import AtlasNative.Program.Client

/-!
# The CSI controller

A volume is a filesystem of the cluster, a snapshot a filesystem snapshot, and a volume's capacity the
byte limit of its filesystem's quota. Every function of the controller is what it asks of the cluster,
one request after another; any number of calls are under way at once. A request may fail, be taken
with its answer lost, or be sent several times, so that an attempt is taken late.
-/

namespace AtlasNative.Csi

open Program

/-! ### The cluster -/

/-- A quota without limits is none. -/
structure FsQuota where
  maxBytes : Option Nat := none
  maxInodes : Option Nat := none
deriving DecidableEq, Repr

/-- A filesystem, its files as they are seen by a mount. -/
structure Fs (T : Type) where
  name : String
  tree : T
  sourceSnapshot : Option String := none
  quota : FsQuota := {}
deriving DecidableEq, Repr

structure FsSnapshot (T : Type) where
  fsId : String
  name : String
  createdNs : Int
  tree : Fs T
deriving DecidableEq, Repr

inductive ClientError where
  | api (status : Nat) (code message : String)
  | transport (message : String)
deriving DecidableEq, Repr

def ClientError.isNotFound : ClientError → Bool
  | .api _ code _ => code = "not_found"
  | .transport _ => false

def ClientError.text : ClientError → String
  | .api status code message => s!"{status} {code}: {message}"
  | .transport message => s!"cluster unreachable: {message}"

inductive Req (T : Type) where
  | createFs (id name : String) (extent : Option Nat)
  | cloneFs (snapshot id name : String)
  | deleteFs (id : String)
  | snapshotFs (fs id name : String)
  | deleteFsSnapshot (id : String)
  | fsSnapshots
  | getQuota (id : String)
  | putQuota (id : String) (quota : FsQuota)
  /-- A mount leaves the filesystem with this content. -/
  | write (id : String) (tree : T)
  /-- An attempt of a request that was sent before reaches the cluster. -/
  | again (k : Nat)
deriving DecidableEq, Repr

structure Cluster (T : Type) where
  filesystems : String → Option (Fs T) := fun _ => none
  snapshots : String → Option (FsSnapshot T) := fun _ => none
  /-- Every request that was sent. -/
  sent : List (Req T) := []

variable {T : Type}

def notFound (what : String) : ClientError := .api 404 "not_found" s!"resource not found: {what}"
def existing (what : String) : ClientError := .api 409 "exists" s!"already exists: {what}"

namespace Cluster

variable (s : Cluster T)

def putFs (id : String) (f : Option (Fs T)) : Cluster T :=
  { s with filesystems := fun i => if i = id then f else s.filesystems i }

def putSnapshot (id : String) (f : Option (FsSnapshot T)) : Cluster T :=
  { s with snapshots := fun i => if i = id then f else s.snapshots i }

def filesystem (id : String) : Except ClientError (Fs T) :=
  match s.filesystems id with
  | some f => .ok f
  | none => .error (notFound s!"filesystem {id}")

variable [Inhabited T]

def createFs (id name : String) : Except ClientError (Cluster T) :=
  match s.filesystems id with
  | some f => if f.name = name then .ok s else .error (existing s!"filesystem {id}")
  | none => .ok (s.putFs id (some { name, tree := default }))

def cloneFs (snapshot id name : String) : Except ClientError (Cluster T) :=
  match s.filesystems id with
  | some f =>
    if f.name = name ∧ f.sourceSnapshot = some snapshot then .ok s
    else .error (existing s!"filesystem {id}")
  | none =>
    match s.snapshots snapshot with
    | some p => .ok (s.putFs id (some { p.tree with name, sourceSnapshot := some snapshot }))
    | none => .error (notFound s!"filesystem snapshot {snapshot}")

def snapshotFs (nowNs : Int) (fs id name : String) : Except ClientError (Cluster T) :=
  match s.snapshots id with
  | some p =>
    if p.fsId = fs ∧ p.name = name then .ok s else .error (existing s!"filesystem snapshot {id}")
  | none => do
    let f ← s.filesystem fs
    .ok (s.putSnapshot id (some ⟨fs, name, nowNs, f⟩))

/-- A request as the cluster takes it. -/
def apply (nowNs : Int) : Req T → Except ClientError (Cluster T)
  | .createFs id name _ => s.createFs id name
  | .cloneFs snapshot id name => s.cloneFs snapshot id name
  | .deleteFs id => do
    let _ ← s.filesystem id
    .ok (s.putFs id none)
  | .snapshotFs fs id name => s.snapshotFs nowNs fs id name
  | .deleteFsSnapshot id =>
    match s.snapshots id with
    | some _ => .ok (s.putSnapshot id none)
    | none => .error (notFound s!"filesystem snapshot {id}")
  | .fsSnapshots => .ok s
  | .getQuota id => do
    let _ ← s.filesystem id
    .ok s
  | .putQuota id quota => do
    let f ← s.filesystem id
    .ok (s.putFs id (some { f with quota }))
  | .write id tree => do
    let f ← s.filesystem id
    .ok (s.putFs id (some { f with tree }))
  | .again _ => .ok s

end Cluster

/-- What a request is answered; snapshots are listed with their creation times. -/
@[reducible] def Rep : Req T → Type
  | .getQuota _ => Except ClientError FsQuota
  | .fsSnapshots => Except ClientError (String → Option Int)
  | _ => Except ClientError Unit

inductive Fate where
  | taken
  /-- Taken, and the answer lost. -/
  | lost
  /-- Not taken: refused, or it never reached the leader. -/
  | failed (e : ClientError)
deriving DecidableEq, Repr

structure Delivery where
  fate : Fate := .taken
  nowNs : Int := 0
deriving DecidableEq, Repr

def refused (r : Req T) (e : ClientError) : Rep r :=
  match r with
  | .createFs .. | .cloneFs .. | .deleteFs _ | .snapshotFs .. | .deleteFsSnapshot _ | .fsSnapshots
  | .getQuota _ | .putQuota .. | .write .. | .again _ => .error e

def granted (r : Req T) (s : Cluster T) : Rep r :=
  match r with
  | .getQuota id => .ok ((s.filesystems id).elim {} (·.quota))
  | .fsSnapshots => .ok fun id => (s.snapshots id).map (·.createdNs)
  | .createFs .. | .cloneFs .. | .deleteFs _ | .snapshotFs .. | .deleteFsSnapshot _ | .putQuota ..
  | .write .. | .again _ => .ok ()

namespace Cluster

variable [Inhabited T] (s : Cluster T)

/-- The request that the cluster gets. -/
def received : Req T → Option (Req T)
  | .again k => s.sent[k]?
  | r => some r

def send (r : Req T) : Cluster T := { s with sent := s.sent ++ [r] }

def take (nowNs : Int) (r : Req T) : Except ClientError (Cluster T) :=
  match s.received r with
  | some r' => (s.send r).apply nowNs r'
  | none => .ok (s.send r)

def answer (x : Delivery) (r : Req T) : Rep r × Cluster T :=
  match x.fate, s.take x.nowNs r with
  | .taken, .ok s' => (granted r s', s')
  | .taken, .error e => (refused r e, s.send r)
  | .lost, .ok s' => (refused r (.transport "error sending request"), s')
  | .lost, .error _ => (refused r (.transport "error sending request"), s.send r)
  | .failed e, _ => (refused r e, s.send r)

end Cluster

/-! ### The controller -/

inductive Code where
  | invalidArgument
  | notFound
  | alreadyExists
  | failedPrecondition
  | resourceExhausted
  | unauthenticated
  | permissionDenied
  | outOfRange
  | unavailable
  | internal
deriving DecidableEq, Repr

structure Status where
  code : Code
  message : String
deriving DecidableEq, Repr

def status (e : ClientError) : Status :=
  match e with
  | .api number code message =>
    if code = "not_found" then ⟨.notFound, message⟩
    else if code = "exists" then ⟨.alreadyExists, message⟩
    else if code = "invalid" then ⟨.invalidArgument, message⟩
    else if code = "not_empty" ∨ code = "locked" ∨ code = "read_only" then
      ⟨.failedPrecondition, message⟩
    else if code = "quota" then ⟨.resourceExhausted, message⟩
    else if number = 401 then ⟨.unauthenticated, e.text⟩
    else if number = 403 then ⟨.permissionDenied, e.text⟩
    else ⟨.internal, e.text⟩
  | .transport _ => ⟨.unavailable, e.text⟩

/-- 1-64 of `[A-Za-z0-9-]`. -/
def validId (id : String) : Bool :=
  1 ≤ id.utf8ByteSize && id.utf8ByteSize ≤ 64 && id.toList.all fun c => c.isAlphanum || c = '-'

/-- The object id for a CSI name; `hex` is the start of the name's SHA-256. -/
def objectId (hex : String → String) (name : String) : String :=
  if name.utf8ByteSize ≤ 48 ∧ validId name then name else "csi-" ++ hex name

structure CapacityRange where
  requiredBytes : Int
  limitBytes : Int
deriving DecidableEq, Repr

/-- The capacity a range asks for: `required_bytes`, else `limit_bytes`, else 0 (unspecified). -/
def requested : Option CapacityRange → Except Status Nat
  | none => .ok 0
  | some r =>
    if r.requiredBytes < 0 ∨ r.limitBytes < 0 then
      .error ⟨.invalidArgument, "capacity_range must not be negative"⟩
    else if 0 < r.limitBytes ∧ r.limitBytes < r.requiredBytes then
      .error ⟨.outOfRange, s!"required_bytes {r.requiredBytes} exceeds limit_bytes {r.limitBytes}"⟩
    else .ok (if 0 < r.requiredBytes then r.requiredBytes else r.limitBytes).toNat

inductive ContentSource where
  | snapshot (id : String)
  | volume (id : String)
deriving DecidableEq, Repr

/-- With capabilities and parameters that pass their checks, as the parameters are read. -/
structure CreateVolumeRequest where
  name : String
  capacityRange : Option CapacityRange := none
  extent : Option Nat := none
  enforce : Bool := true
  source : Option ContentSource := none
deriving DecidableEq, Repr

structure ExpandVolumeRequest where
  volumeId : String
  capacityRange : Option CapacityRange
deriving DecidableEq, Repr

abbrev Asks (T α : Type) := ExceptT Status (Client (Rep (T := T))) α

def ask (r : Req T) : Client (Rep (T := T)) (Rep r) := .request r

/-- An answer, with a failure as the caller of the controller sees it. -/
def answered {α : Type} (x : Client (Rep (T := T)) (Except ClientError α)) : Asks T α := .mk do
  match ← x with
  | .ok a => pure (.ok a)
  | .error e => pure (.error (status e))

/-- Deletes; a missing object counts as deleted. -/
def remove (x : Client (Rep (T := T)) (Except ClientError Unit)) : Asks T Unit := .mk do
  match ← x with
  | .ok () => pure (.ok ())
  | .error e => if e.isNotFound then pure (.ok ()) else pure (.error (status e))

/-- The quota as the cluster returns it. -/
def quota (id : String) : Asks T FsQuota := answered (ask (.getQuota id))

/-- Sets the byte limit of a quota, keeping any inode limit; `none` clears it. -/
def setMaxBytes (id : String) (maxBytes : Option Nat) : Asks T Unit := do
  let q ← quota id
  if q.maxBytes = maxBytes then pure ()
  else answered (ask (.putQuota id { q with maxBytes }))

/-- The filesystem of a new volume, empty or with the content of its source. -/
def makeFs (id : String) (r : CreateVolumeRequest) : Asks T Unit :=
  match r.source with
  | none => answered (ask (.createFs id r.name r.extent))
  | some (.snapshot snapshot) => do
    if validId snapshot then answered (ask (.cloneFs snapshot id r.name))
    else throw ⟨.notFound, s!"snapshot {snapshot}"⟩
  | some (.volume volume) => do
    if validId volume then
      -- a clone of a transient snapshot, deleted once the clone exists
      let snap := id ++ "-src"
      answered (ask (.snapshotFs volume snap snap))
      answered (ask (.cloneFs snap id r.name))
      remove (ask (.deleteFsSnapshot snap))
    else throw ⟨.notFound, s!"volume {volume}"⟩

/-- What a call reports. -/
structure Reported where
  id : String
  capacityBytes : Nat := 0
  /-- Whether the volume has a byte limit, as the call left or found it; not part of the answer. -/
  enforced : Bool := false
  creationNs : Int := 0
deriving DecidableEq, Repr

variable (hex : String → String)

def createVolume (r : CreateVolumeRequest) : Asks T Reported :=
  if r.name = "" then throw ⟨.invalidArgument, "name is required"⟩
  else
    match requested r.capacityRange with
    | .error e => throw e
    | .ok capacity => do
      let id := objectId hex r.name
      makeFs id r
      -- a clone inherits its source's quota; the byte limit becomes this volume's own
      let maxBytes := if r.enforce ∧ 0 < capacity then some capacity else none
      setMaxBytes id maxBytes
      pure { id, capacityBytes := capacity, enforced := maxBytes.isSome }

def deleteVolume (id : String) : Asks T Reported :=
  if id = "" then throw ⟨.invalidArgument, "volume_id is required"⟩
  else if validId id then do
    remove (ask (.deleteFs id))
    pure { id }
  else pure { id }

def createSnapshot (name sourceVolumeId : String) : Asks T Reported :=
  if name = "" then throw ⟨.invalidArgument, "name is required"⟩
  else if sourceVolumeId = "" then throw ⟨.invalidArgument, "source_volume_id is required"⟩
  else if ¬ validId sourceVolumeId then throw ⟨.notFound, s!"volume {sourceVolumeId}"⟩
  else do
    let id := objectId hex name
    answered (ask (.snapshotFs sourceVolumeId id name))
    let created ← answered (ask .fsSnapshots)
    match created id with
    | some creationNs => pure { id, creationNs }
    | none => throw ⟨.internal, s!"snapshot {id} missing after create"⟩

def deleteSnapshot (id : String) : Asks T Reported :=
  if id = "" then throw ⟨.invalidArgument, "snapshot_id is required"⟩
  else if validId id then do
    remove (ask (.deleteFsSnapshot id))
    pure { id }
  else pure { id }

/-- Raises the byte limit; a volume without one stays thin and reports the new size. -/
def raise (id : String) (want : Nat) : Asks T Reported := do
  let q ← quota id
  match q.maxBytes with
  | none => pure { id, capacityBytes := want }
  | some cur =>
    if want ≤ cur then pure { id, capacityBytes := cur, enforced := true }
    else do
      setMaxBytes id (some want)
      pure { id, capacityBytes := want, enforced := true }

def controllerExpandVolume (r : ExpandVolumeRequest) : Asks T Reported :=
  if r.volumeId = "" then throw ⟨.invalidArgument, "volume_id is required"⟩
  else if ¬ validId r.volumeId then throw ⟨.notFound, s!"volume {r.volumeId}"⟩
  else
    match requested r.capacityRange with
    | .error e => throw e
    | .ok want =>
      if want = 0 then throw ⟨.invalidArgument, "capacity_range is required"⟩
      else raise r.volumeId want

inductive Call (T : Type) where
  | createVolume (r : CreateVolumeRequest)
  | expandVolume (r : ExpandVolumeRequest)
  | deleteVolume (id : String)
  | createSnapshot (name sourceVolumeId : String)
  | deleteSnapshot (id : String)
  | write (id : String) (tree : T)
  /-- The cluster gets an attempt of the `k`-th request that was sent. -/
  | late (k : Nat)
deriving DecidableEq, Repr

def program (_ : Nat) : Call T → Client (Rep (T := T)) (Except Status Reported)
  | .createVolume r => (createVolume hex r).run
  | .expandVolume r => (controllerExpandVolume r).run
  | .deleteVolume id => (deleteVolume id).run
  | .createSnapshot name source => (createSnapshot hex name source).run
  | .deleteSnapshot id => (deleteSnapshot id).run
  | .write id tree => (do answered (ask (.write id tree)); pure { id } : Asks T Reported).run
  | .late k => (do answered (ask (.again k)); pure { id := "" } : Asks T Reported).run

abbrev World (T : Type) := Pool (Rep (T := T)) (Call T) (Except Status Reported) (Cluster T)

variable [Inhabited T]

/-- Calls that come in, and requests of the calls under way as the cluster gets them. -/
def step : World T → Turn (Call T) Delivery → World T :=
  Pool.step (fun _ x r s => s.answer x r) (program hex)

def run (s : Cluster T) (turns : List (Turn (Call T) Delivery)) : World T :=
  turns.foldl (step hex) ⟨s, []⟩

end AtlasNative.Csi
