import AtlasNative.Catalog.Frame

/-!
# Which metadata group serves an id

A cluster with several metadata groups. Each group's replicas apply one log; a node that serves a
request looks at its own replicas, which may be behind, and after a miss once more behind a barrier.
A new volume or filesystem goes to the group that its id hashes to, a snapshot or clone to its
source's group unless another group is found to hold the id. A look-up and the commit that follows
it are separate steps, and each group of a look-up is its own.
-/

namespace AtlasNative.Node

/-- The group that a new object goes to when nothing places it elsewhere (FNV-1a). -/
def home (id : String) (groups : Nat) : Nat :=
  id.toUTF8.data.toList.foldl (fun h b => (h ^^^ b.toNat) * 0x100000001b3 % 2 ^ 64)
    0xcbf29ce484222325 % max groups 1

/-! ### Requests -/

def defaultFsExtentBytes : Nat := 2 ^ 20

inductive Request where
  /-- Also for an import. -/
  | createVolume (id : VolumeId) (name : String) (sizeBytes : Nat)
  | deleteVolume (id : VolumeId)
  | createSnapshot (id : SnapshotId) (volume : VolumeId) (name : String)
  | deleteSnapshot (id : SnapshotId)
  | cloneSnapshot (id : VolumeId) (snapshot : SnapshotId) (name : String) (sizeBytes : Option Nat)
  | createFs (id : FsId) (name : String) (extentBytes : Option Nat) (nowNs : Int)
  | createReplica (id : FsId) (name : String) (extentBytes : Nat) (nowNs : Int)
  | deleteFs (fs : FsId)
  | snapshotFs (id : SnapshotId) (fs : FsId) (name : String) (nowNs : Int)
  | deleteFsSnapshot (id : SnapshotId)
  | cloneFs (id : FsId) (snapshot : SnapshotId) (name : String)
  | replicaCommit (fs : FsId) (fromSnap : Option SnapshotId) (toSnap snapshot : SnapshotId)
      (nextIno : Nat) (nowNs : Int)
deriving DecidableEq, Repr

namespace Request

/-- `<fs>@<snapshot>` names a snapshot tree of `<fs>`. -/
def treeOf (fs : FsId) : FsId := String.ofList (fs.toList.takeWhile (· ≠ '@'))

/-- What the request is routed by. -/
def routed : Request → ObjectKind × String
  | .createVolume id _ _ | .deleteVolume id | .createSnapshot _ id _ => (.volume, id)
  | .deleteSnapshot id | .cloneSnapshot _ id _ _ => (.snapshot, id)
  | .createFs id _ _ _ | .createReplica id _ _ _ => (.filesystem, id)
  | .deleteFs fs | .snapshotFs _ fs _ _ | .replicaCommit fs _ _ _ _ _ => (.filesystem, treeOf fs)
  | .deleteFsSnapshot id | .cloneFs _ id _ => (.fsSnapshot, id)

/-- What it then claims in the group of its source. -/
def claimed : Request → Option (ObjectKind × String)
  | .createSnapshot id _ _ => some (.snapshot, id)
  | .cloneSnapshot id _ _ _ => some (.volume, id)
  | .snapshotFs id _ _ _ | .replicaCommit _ _ _ id _ _ => some (.fsSnapshot, id)
  | .cloneFs id _ _ => some (.filesystem, id)
  | _ => none

def grid (cluster : Nat) (extentBytes : Option Nat) : Nat :=
  extentBytes.getD (min defaultFsExtentBytes cluster)

/-- What the group is asked to commit; `cluster` is the size of the cluster's extents. -/
def command (cluster : Nat) : Request → MetaCommand
  | .createVolume id name sizeBytes => .createVolume id name sizeBytes
  | .deleteVolume id => .deleteVolume id
  | .createSnapshot id volume name => .createSnapshot id volume name
  | .deleteSnapshot id => .deleteSnapshot id
  | .cloneSnapshot id snapshot name sizeBytes => .cloneSnapshot id name snapshot sizeBytes
  | .createFs id name extentBytes nowNs =>
    .fs (.createFs id name nowNs (some (grid cluster extentBytes)))
  | .createReplica id name extentBytes nowNs => .fs (.createReplica id name nowNs extentBytes)
  | .deleteFs fs => .fs (.deleteFs fs)
  | .snapshotFs id fs name nowNs => .fs (.snapshotFs id fs name nowNs)
  | .deleteFsSnapshot id => .fs (.deleteFsSnapshot id)
  | .cloneFs id snapshot name => .fs (.cloneFs id name snapshot)
  | .replicaCommit fs fromSnap toSnap snapshot nextIno nowNs =>
    .fs (.replicaCommit fs fromSnap toSnap snapshot toSnap nextIno nowNs)

/-- The engine's own checks before it commits. -/
def accepted (cluster : Nat) : Request → Bool
  | .createVolume _ _ sizeBytes => sizeBytes ≠ 0
  | .createFs id _ extentBytes _ =>
    !id.toList.contains '@' && 0 < grid cluster extentBytes && grid cluster extentBytes ≤ cluster
  | .createReplica _ _ extentBytes _ => 0 < extentBytes && extentBytes ≤ cluster
  | .deleteFs fs | .snapshotFs _ fs _ _ => !fs.toList.contains '@'
  | .cloneFs id _ _ => !id.toList.contains '@'
  | _ => true

/-- The object that the request is to create. -/
def creates (r : Request) : Option (ObjectKind × String) := (r.command 0).creates

theorem creates_command (r : Request) (cluster : Nat) : (r.command cluster).creates = r.creates := by
  cases r <;> rfl

/-- A new object is looked up as what it is routed by, or as what it claims. -/
theorem creates_cases (r : Request) : r.creates = none ∧ r.claimed = none ∨
    r.creates = some r.routed ∧ r.claimed = none ∨ r.creates = r.claimed ∧ r.claimed.isSome := by
  cases r <;> first | exact .inl ⟨rfl, rfl⟩ | exact .inr (.inl ⟨rfl, rfl⟩) | exact .inr (.inr ⟨rfl, rfl⟩)

end Request

/-! ### Serving a request -/

/-- Where a look-up stands: at a group, behind a barrier, or at a group once more. -/
inductive Look where
  | first (group : Nat)
  /-- How much of each log has to be applied. -/
  | barrier (need : List Nat)
  | second (group : Nat)
deriving DecidableEq, Repr

inductive Phase where
  | route (look : Look)
  | claim (group : Nat) (look : Look)
  | commit (group : Nat)
  /-- Answered, or committed. -/
  | over
deriving DecidableEq, Repr

structure Served where
  request : Request
  node : Nat
  /-- Where the logs ended when the request began. -/
  since : List Nat
  phase : Phase := .route (.first 0)
deriving DecidableEq, Repr

/-- An entry of a group's log: its term and command. -/
abbrev Log := List (Nat × MetaCommand)

/-- What a replica is after it applied `log`. -/
def catalogOf (log : Log) : MemCatalog :=
  log.zipIdx.foldl (fun c e => (c.applyCommitted e.1.1 (e.2 + 1) e.1.2).2) {}

structure Cluster where
  extentBytes : Nat
  /-- What each group has committed. -/
  logs : List Log
  /-- How much of a group's log a node has applied. -/
  applied : Nat → Nat → Nat := fun _ _ => 0
  requests : List Served := []

namespace Cluster

def log (s : Cluster) (group : Nat) : Log := s.logs.getD group []

/-- Does the group hold the object? -/
def held (s : Cluster) (group : Nat) (kind : ObjectKind) (id : String) : Bool :=
  (catalogOf (s.log group)).holds kind id

/-- Does the node's replica of the group hold it? -/
def sees (s : Cluster) (node group : Nat) (kind : ObjectKind) (id : String) : Bool :=
  (catalogOf ((s.log group).take (s.applied node group))).holds kind id

/-- The group that a look-up finds where all replicas are caught up. -/
def find (s : Cluster) (kind : ObjectKind) (id : String) : Option Nat :=
  (List.range s.logs.length).find? fun group => s.held group kind id

/-- One step of `locate`: the next look, or the result. -/
def locate (s : Cluster) (node : Nat) (kind : ObjectKind) (id : String) : Look → Look ⊕ Option Nat
  | .first group =>
    if group < s.logs.length then
      if s.sees node group kind id then .inr (some group) else .inl (.first (group + 1))
    else if s.logs.length = 1 then .inr none
    else .inl (.barrier (s.logs.map List.length))
  | .barrier need =>
    -- a replica's barrier covers what was committed before it
    if need.zipIdx.all fun e => e.1 ≤ s.applied node e.2 then .inl (.second 0)
    else .inl (.barrier need)
  | .second group =>
    if group < s.logs.length then
      if s.sees node group kind id then .inr (some group) else .inl (.second (group + 1))
    else .inr none

/-- Once the group is known. -/
def enter (s : Cluster) (r : Request) (group : Nat) : Phase :=
  if r.accepted s.extentBytes then .commit group else .over

def advance (s : Cluster) (p : Served) : Phase :=
  match p.phase with
  | .route look =>
    match s.locate p.node p.request.routed.1 p.request.routed.2 look with
    | .inl look => .route look
    | .inr found =>
      let group := found.getD (home p.request.routed.2 s.logs.length)
      match p.request.claimed with
      | none => s.enter p.request group
      | some _ => .claim group (.first 0)
  | .claim group look =>
    match p.request.claimed with
    | none => .over
    | some (kind, id) =>
      match s.locate p.node kind id look with
      | .inl look => .claim group look
      | .inr (some other) => if other ≠ group then .over else s.enter p.request group
      | .inr none => s.enter p.request group
  | phase => phase

def arrive (s : Cluster) (r : Nat) (p : Served) (phase : Phase) : Cluster :=
  { s with requests := s.requests.set r { p with phase := phase } }

def append (s : Cluster) (group term : Nat) (cmd : MetaCommand) : Cluster :=
  { s with logs := s.logs.modify group (· ++ [(term, cmd)]) }

inductive Event where
  | call (node : Nat) (request : Request)
  /-- The next step of a request's look-up. -/
  | step (r : Nat)
  /-- The group commits what a request asked for, also if the caller has given up. -/
  | commit (r term : Nat)
  /-- A request fails before it asks a group. -/
  | fail (r : Nat)
  /-- A node applies one more entry. -/
  | apply (node group : Nat)
  /-- A node starts again, from older replicas perhaps. -/
  | restart (node : Nat) (applied : List Nat)
  /-- A group commits a command that creates nothing. -/
  | other (group term : Nat) (cmd : { cmd : MetaCommand // cmd.creates = none })

def Served.drop (p : Served) : Served :=
  match p.phase with
  | .route _ | .claim .. => { p with phase := .over }
  | _ => p

def step (s : Cluster) : Event → Cluster
  | .call node request =>
    { s with requests := s.requests ++ [⟨request, node, s.logs.map List.length, .route (.first 0)⟩] }
  | .step r =>
    match s.requests[r]? with
    | none => s
    | some p => s.arrive r p (s.advance p)
  | .commit r term =>
    match s.requests[r]? with
    | some p =>
      match p.phase with
      | .commit group => (s.append group term (p.request.command s.extentBytes)).arrive r p .over
      | _ => s
    | none => s
  | .fail r =>
    match s.requests[r]? with
    | none => s
    | some p => { s with requests := s.requests.set r (Served.drop p) }
  | .apply node group =>
    { s with applied := fun n g =>
        s.applied n g + if n = node ∧ g = group ∧ s.applied n g < (s.log g).length then 1 else 0 }
  | .restart node applied =>
    { s with
      applied := fun n g => if n = node then min (applied.getD g 0) (s.applied n g) else s.applied n g
      requests := s.requests.map fun p => if p.node = node then Served.drop p else p }
  | .other group term cmd => s.append group term cmd.1

def start (extentBytes groups : Nat) : Cluster :=
  { extentBytes := extentBytes, logs := List.replicate groups [] }

def run (extentBytes groups : Nat) (events : List Event) : Cluster :=
  events.foldl step (start extentBytes groups)

end Cluster

end AtlasNative.Node
