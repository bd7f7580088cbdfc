import AtlasNative.Catalog.Replica

/-!
# Applying a command to the catalog

`Catalog.apply` runs one command at its log index; `Catalog.applyCommitted` is what a replica does
with a committed entry: a rejected command still consumes its index.
-/

namespace AtlasNative

variable {T D C : Type} [Backend T D C]

namespace CatM

def setVolume (id : VolumeId) (v : VolumeMeta) : CatM T C Unit :=
  modifyCat fun c => { c with volumes := c.volumes.insert id v }

def insertVolume (id : VolumeId) (v : VolumeMeta) : CatM T C Unit := do
  replace .volumes id
  setVolume id v

/-- `self.volumes.get_mut(id)`, which must be there. -/
def volumeMut (id : VolumeId) : CatM T C VolumeMeta := do
  match (← get).cat.volumes[id]? with
  | none => reject (.notFound id)
  | some v =>
    touch .volumes id
    pure v

/-! ### Volumes -/

def createVolume (id : VolumeId) (name : String) (sizeBytes : Nat) : CatM T C Unit := do
  match (← get).cat.volumes[id]? with
  | some v =>
    -- client-chosen ids make a retried create a no-op
    if v.name = name ∧ v.sizeBytes = sizeBytes then pure ()
    else reject (.invalid s!"volume {id} already exists")
  | none => insertVolume id ⟨id, name, sizeBytes, ∅⟩

/-- Maps already checked extents into a volume; `new` says where each goes. -/
def installVolume (volumeId : VolumeId) (new : List (Nat × ExtentRef)) : CatM T C Unit := do
  let v ← volumeMut volumeId
  let (extents, old) := FsM.mapExtents v.extents (new.map fun e => (e.1, e.2.id))
  setVolume volumeId { v with extents := extents }
  (new.map Prod.snd).forM addExtentRef
  old.forM decRef

def installExtent (volumeId : VolumeId) (logicalOffset : Nat) (extent : ExtentRef) :
    CatM T C Unit := do
  ofExcept extent.check
  installVolume volumeId [(logicalOffset, extent)]

def installExtents (volumeId : VolumeId) (extents : List ExtentRef) : CatM T C Unit := do
  extents.forM fun e => ofExcept e.check
  installVolume volumeId (extents.map fun e => (e.logicalOffset, e))

def createSnapshot (id : SnapshotId) (volumeId : VolumeId) (name : String) : CatM T C Unit := do
  let c := (← get).cat
  match c.snapshots[id]? with
  | some s =>
    if s.volumeId = volumeId ∧ s.name = name then pure ()
    else reject (.invalid s!"snapshot {id} already exists")
  | none =>
    match c.volumes[volumeId]? with
    | none => reject (.notFound volumeId)
    | some v =>
      v.extents.values.forM shareExtent
      replace .snapshots id
      modifyCat fun c => { c with
        snapshots := c.snapshots.insert id ⟨id, volumeId, name, v.sizeBytes, v.extents⟩ }

def deleteSnapshot (id : SnapshotId) : CatM T C Unit := do
  match (← get).cat.snapshots[id]? with
  | none => reject (.notFound id)
  | some s =>
    replace .snapshots id
    modifyCat fun c => { c with snapshots := c.snapshots.erase id }
    s.extents.values.forM decRef

def deleteVolume (id : VolumeId) : CatM T C Unit := do
  match (← get).cat.volumes[id]? with
  | none => reject (.notFound id)
  | some v =>
    replace .volumes id
    modifyCat fun c => { c with volumes := c.volumes.erase id }
    v.extents.values.forM decRef

def resizeVolume (id : VolumeId) (sizeBytes : Nat) : CatM T C Unit := do
  let v ← volumeMut id
  if sizeBytes < v.sizeBytes then
    reject (.invalid s!"volume {id} cannot shrink from {v.sizeBytes} to {sizeBytes} bytes")
  else setVolume id { v with sizeBytes := sizeBytes }

/-- End of the last written byte among `extents`. -/
def writtenEnd (c : Catalog T) (extents : BTreeMap Nat ExtentId) : Nat :=
  (extents.values.filterMap fun e =>
    c.extents[e]?.map fun m => u64 (m.extent.logicalOffset + m.extent.len)).foldl max 0

def cloneSnapshot (id : VolumeId) (name : String) (snapshotId : SnapshotId)
    (sizeBytes : Option Nat) : CatM T C Unit := do
  let c := (← get).cat
  match c.volumes[id]? with
  | some v => if v.name = name then pure () else reject (.invalid s!"volume {id} already exists")
  | none =>
    match c.snapshots[snapshotId]? with
    | none => reject (.notFound snapshotId)
    | some s =>
      let floor := if 0 < s.sizeBytes then s.sizeBytes else writtenEnd c s.extents
      let size := sizeBytes.getD floor
      if size = 0 ∨ size < floor then
        reject (.invalid s!"clone of {snapshotId} needs at least {max floor 1} bytes") else
      s.extents.values.forM shareExtent
      insertVolume id ⟨id, name, size, s.extents⟩

/-! ### Extents -/

/-- Returns one range of an extent to the free list. -/
def release (r : ReplicaRef) (len : Nat) : CatM T C Unit := do
  match (← get).cat.free.release r.nodeId r.deviceIndex r.offset len with
  | .ok free => modifyCat fun c => { c with free := free }
  | .error msg => reject (.invalid msg)

def markExtentReclaimed (id : ExtentId) : CatM T C Unit := do
  match (← get).cat.extents[id]? with
  | none => reject (.notFound id)
  | some e =>
    if e.refs ≠ 0 then reject (.invalid s!"extent {id} still has {e.refs} refs") else
    replace .extents id
    modifyCat fun c => { c with extents := c.extents.erase id }
    e.extent.replicas.forM fun r => release r e.extent.storedLen

def tierExtent (id : ExtentId) (key : String) (replicas : List ReplicaRef) : CatM T C Unit := do
  match (← get).cat.extents[id]? with
  | none => reject (.notFound id)
  | some e =>
    touch .extents id
    if e.extent.object.isSome then reject (.invalid s!"extent {id} is already tiered") else
    if e.extent.replicas ≠ replicas ∨ replicas = [] then
      reject (.invalid s!"extent {id} changed before it could be tiered") else
    setExtent id { e with extent := { e.extent with replicas := [], ec := none, object := some key } }
    e.extent.replicas.forM fun r => release r e.extent.storedLen

def replaceReplica (id : ExtentId) (old new : ReplicaRef) : CatM T C Unit := do
  if old = new then reject (.invalid "replacement replica is the same range") else
  match (← get).cat.extents[id]? with
  | none => reject (.notFound id)
  | some e =>
    touch .extents id
    match e.extent.replicas.findIdx? (· = old) with
    | none => reject (.invalid s!"extent {id} has no replica on {old.nodeId} at {old.offset}")
    | some pos =>
      if (e.extent.replicas.eraseIdx pos).any (·.nodeId = new.nodeId) then
        reject (.invalid s!"extent {id} already has a replica on {new.nodeId}") else
      let len := e.extent.storedLen
      setExtent id { e with extent := { e.extent with replicas := e.extent.replicas.set pos new } }
      modifyCat fun c => { c with free := c.free.reserve new.nodeId new.deviceIndex new.offset len }
      release old len

/-! ### Membership, filesystems, leases -/

def changeMembership (m : Membership) (addrs : BTreeMap String String) : CatM T C Unit := do
  if m.voters.isEmpty then reject (.invalid "membership has no voters") else
  match m with
  | .joint old new =>
    if old.isEmpty ∨ new.isEmpty then
      reject (.invalid "joint membership needs voters on both sides") else
    modifyCat fun c => { c with raftAddrs := c.raftAddrs ∪ addrs, membership := some m }
  | .stable _ =>
    modifyCat fun c => { c with raftAddrs := c.raftAddrs ∪ addrs, membership := some m }

/-- The command itself, once the filesystem may be changed by it. -/
def runFsOp : FsOp → CatM T C Unit
  | .createFs fs name nowNs extentBytes => createFs fs name nowNs extentBytes
  | .deleteFs fs => deleteFs fs
  | .mknode fs parent name opId nodeType target rdev mode createMode uid gid nowNs => do
    ofExcept (checkName name)
    withFs fs (FsM.mknode parent name opId nodeType target rdev mode createMode uid gid nowNs)
  | .link fs ino parent name nowNs => do
    ofExcept (checkName name)
    withFs fs (FsM.link ino parent name nowNs)
  | .unlink fs parent name nowNs => do
    let gone ← withFs fs (FsM.unlink parent name nowNs)
    dropGone fs gone
  | .rmdir fs parent name nowNs => withFs fs (FsM.rmdir parent name nowNs)
  | .rename fs parent name newParent newName nowNs => do
    ofExcept (checkName newName)
    let gone ← withFs fs (FsM.rename parent name newParent newName nowNs)
    dropGone fs gone
  | .setAttr fs ino attr nowNs => setAttr fs ino attr nowNs
  | .setXattr fs ino name value mode nowNs => setXattr fs ino name value mode nowNs
  | .removeXattr fs ino name nowNs => withFs fs (FsM.removeXattr ino name nowNs)
  | .installFileExtent fs ino logicalOffset extent size nowNs replica =>
    installFileExtent fs ino logicalOffset extent size nowNs replica
  | .installFileExtents fs ino extents size nowNs replica =>
    installFileExtents fs ino extents size nowNs replica
  | .snapshotFs id fs name nowNs => snapshotTree id fs name nowNs
  | .deleteFsSnapshot id => deleteFsSnapshot id
  | .cloneFs id name snapshotId => cloneFs id name snapshotId
  | .setQuota fs maxBytes maxInodes => setQuota fs maxBytes maxInodes
  | .createReplica fs name nowNs extentBytes => createReplica fs name nowNs extentBytes
  | .replicaApply fs fromSnap toSnap inodes removed =>
    replicaApply fs fromSnap toSnap inodes removed
  | .replicaCommit fs fromSnap toSnap snapshot name nextIno nowNs =>
    replicaCommit fs fromSnap toSnap snapshot name nextIno nowNs
  | .replicaPromote fs force => replicaPromote fs force
  | .replicaDemote fs snapshot base => replicaDemote fs snapshot base

def applyFs (op : FsOp) : CatM T C Unit := do
  let c := (← get).cat
  match op.clientChange.filter fun fs => c.filesystems[fs]?.any (·.replica.isSome) with
  | some fs => reject (.readOnly s!"filesystem {fs} is a replica; promote it to change it")
  | none =>
    match op.replicaData with
    | some fs =>
      if (← filesystem fs).replica.isNone then
        reject (.invalid s!"filesystem {fs} is not a replica")
      else runFsOp op
    | none => runFsOp op

/-- Whether an inode of a filesystem is a regular file. -/
def checkFile (fs : FsId) (ino : Nat) : CatM T C Unit := do
  let f ← filesystem fs
  match (← read fun _ => f.inode ino).kind with
  | .file .. => pure ()
  | _ => reject (.invalid s!"inode {ino} is not a regular file")

def applyLease (op : LeaseOp) (term : Nat) : CatM T C Unit := do
  let leases ← (← get).cat.leases.apply op term checkFile
  modifyCat fun c => { c with leases := leases }

def runCommand (term : Nat) : MetaCommand → CatM T C Unit
  | .createVolume id name sizeBytes => createVolume id name sizeBytes
  | .installExtent volumeId logicalOffset extent => installExtent volumeId logicalOffset extent
  | .installExtents volumeId extents => installExtents volumeId extents
  | .createSnapshot id volumeId name => createSnapshot id volumeId name
  | .deleteSnapshot id => deleteSnapshot id
  | .deleteVolume id => deleteVolume id
  | .resizeVolume id sizeBytes => resizeVolume id sizeBytes
  | .cloneSnapshot id name snapshotId sizeBytes => cloneSnapshot id name snapshotId sizeBytes
  | .markExtentReclaimed id => markExtentReclaimed id
  | .replaceReplica id old new => replaceReplica id old new
  | .tierExtent id key replicas => tierExtent id key replicas
  | .changeMembership m addrs => changeMembership m addrs
  | .fs op => applyFs op
  | .lease op => applyLease op term
  | .noop => pure ()

end CatM

/-! ### Whole commands -/

/-- How a command ended. -/
inductive Outcome where
  | ok (gc : List ExtentId)
  | err (e : MetaError)
  | panic (msg : String)
  | hang
deriving DecidableEq, Repr

namespace Catalog

/-- A catalog with the side state of its tables. -/
abbrev With (T C : Type) := Catalog T × C

/-- `Catalog::apply`: runs `cmd` at log position `index`, in `term`. -/
def applyWith (term index : Nat) (cmd : MetaCommand) (s : With T C) : Outcome × With T C :=
  if index ≤ s.1.appliedIndex then (.ok [], s) else
  match CatM.runCommand term cmd ⟨s.1, s.2, []⟩ with
  | .ok _ w => (.ok w.gc, { w.cat with currentTerm := term, appliedIndex := index }, w.side)
  | .error (.err (.store e)) w =>
    (.panic s!"catalog store unreadable while applying index {index}: {e}", w.cat, w.side)
  | .error (.err e) w => (.err e, w.cat, w.side)
  | .error (.panic msg) w => (.panic msg, w.cat, w.side)
  | .error .hang w => (.hang, w.cat, w.side)

/-- `Catalog::apply_committed`: a rejected command still consumes its index. -/
def applyCommittedWith (term index : Nat) (cmd : MetaCommand) (s : With T C) :
    Outcome × With T C :=
  match applyWith term index cmd s with
  | (.err e, s) =>
    (.err e, if s.1.appliedIndex < index then
      ({ s.1 with appliedIndex := index, currentTerm := term }, s.2) else s)
  | r => r

end Catalog

/-- The catalog with every table in memory. -/
abbrev MemCatalog := Catalog MemTable

namespace MemCatalog

def apply (term index : Nat) (cmd : MetaCommand) (c : MemCatalog) : Outcome × MemCatalog :=
  let r := Catalog.applyWith term index cmd (c, ())
  (r.1, r.2.1)

def applyCommitted (term index : Nat) (cmd : MetaCommand) (c : MemCatalog) :
    Outcome × MemCatalog :=
  let r := Catalog.applyCommittedWith term index cmd (c, ())
  (r.1, r.2.1)

end MemCatalog

end AtlasNative
