import AtlasNative.Catalog.Alloc
import AtlasNative.Catalog.Inode
import AtlasNative.Catalog.Leases
import AtlasNative.Membership

/-!
# The catalog and its commands

`Catalog` is the state every metadata replica holds, `MetaCommand` an entry of the replicated log
that changes it, and `FsOp` the commands on filesystems.
-/

namespace AtlasNative

/-- One inode of a replication increment as the source snapshot has it. -/
structure ReplicaInode where
  ino : Nat
  nodeType : NodeType
  mode : Nat
  uid : Nat
  gid : Nat
  nlink : Nat
  atimeNs : Int
  mtimeNs : Int
  ctimeNs : Int
  xattrs : BTreeMap String Bytes
  size : Nat
  /-- File grid cells to clear. -/
  holes : List Nat
  /-- Directory: its parent. -/
  parent : Nat
  /-- Directory entries set or removed since the increment's base. -/
  entries : List (String × Option Nat)
  target : Option String
  rdev : Nat
deriving DecidableEq

/-- Attribute changes; `none` leaves a field alone. -/
structure SetAttr where
  mode : Option Nat := none
  uid : Option Nat := none
  gid : Option Nat := none
  size : Option Nat := none
  atimeNs : Option Int := none
  mtimeNs : Option Int := none
deriving DecidableEq, Repr

inductive XattrMode where
  | set | create | replace
deriving DecidableEq, Repr

inductive FsOp where
  | createFs (fs : FsId) (name : String) (nowNs : Int) (extentBytes : Option Nat)
  | deleteFs (fs : FsId)
  | mknode (fs : FsId) (parent : Nat) (name opId : String) (nodeType : NodeType)
      (target : Option String) (rdev mode : Nat) (createMode : Option Nat) (uid gid : Nat)
      (nowNs : Int)
  | link (fs : FsId) (ino parent : Nat) (name : String) (nowNs : Int)
  | unlink (fs : FsId) (parent : Nat) (name : String) (nowNs : Int)
  | rmdir (fs : FsId) (parent : Nat) (name : String) (nowNs : Int)
  | rename (fs : FsId) (parent : Nat) (name : String) (newParent : Nat) (newName : String)
      (nowNs : Int)
  | setAttr (fs : FsId) (ino : Nat) (attr : SetAttr) (nowNs : Int)
  | setXattr (fs : FsId) (ino : Nat) (name : String) (value : Bytes) (mode : XattrMode)
      (nowNs : Int)
  | removeXattr (fs : FsId) (ino : Nat) (name : String) (nowNs : Int)
  | installFileExtent (fs : FsId) (ino logicalOffset : Nat) (extent : ExtentRef) (size : Nat)
      (nowNs : Int) (replica : Bool)
  | installFileExtents (fs : FsId) (ino : Nat) (extents : List ExtentRef) (size : Nat)
      (nowNs : Int) (replica : Bool)
  | snapshotFs (id : SnapshotId) (fs : FsId) (name : String) (nowNs : Int)
  | deleteFsSnapshot (id : SnapshotId)
  | cloneFs (id : FsId) (name : String) (snapshotId : SnapshotId)
  | setQuota (fs : FsId) (maxBytes maxInodes : Option Nat)
  | createReplica (fs : FsId) (name : String) (nowNs : Int) (extentBytes : Nat)
  | replicaApply (fs : FsId) (fromSnap : Option SnapshotId) (toSnap : SnapshotId)
      (inodes : List ReplicaInode) (removed : List Nat)
  | replicaCommit (fs : FsId) (fromSnap : Option SnapshotId) (toSnap snapshot : SnapshotId)
      (name : String) (nextIno : Nat) (nowNs : Int)
  | replicaPromote (fs : FsId) (force : Bool)
  | replicaDemote (fs : FsId) (snapshot base : SnapshotId)
deriving DecidableEq

/-- The filesystem a client change applies to; replicas refuse these. -/
def FsOp.clientChange : FsOp → Option FsId
  | mknode fs .. | link fs .. | unlink fs .. | rmdir fs .. | rename fs .. | setAttr fs ..
  | setXattr fs .. | removeXattr fs .. => some fs
  | installFileExtent fs _ _ _ _ _ replica => if replica then none else some fs
  | installFileExtents fs _ _ _ _ replica => if replica then none else some fs
  | _ => none

/-- The replica that replication data is for. -/
def FsOp.replicaData : FsOp → Option FsId
  | installFileExtent fs _ _ _ _ _ true | installFileExtents fs _ _ _ _ true => some fs
  | _ => none

inductive MetaCommand where
  | createVolume (id : VolumeId) (name : String) (sizeBytes : Nat)
  | installExtent (volumeId : VolumeId) (logicalOffset : Nat) (extent : ExtentRef)
  | installExtents (volumeId : VolumeId) (extents : List ExtentRef)
  | createSnapshot (id : SnapshotId) (volumeId : VolumeId) (name : String)
  | deleteSnapshot (snapshotId : SnapshotId)
  | deleteVolume (volumeId : VolumeId)
  | resizeVolume (volumeId : VolumeId) (sizeBytes : Nat)
  | cloneSnapshot (id : VolumeId) (name : String) (snapshotId : SnapshotId)
      (sizeBytes : Option Nat)
  | markExtentReclaimed (extentId : ExtentId)
  | replaceReplica (extentId : ExtentId) (old new : ReplicaRef)
  | tierExtent (extentId : ExtentId) (key : String) (replicas : List ReplicaRef)
  | changeMembership (membership : Membership) (addrs : BTreeMap String String)
  | fs (op : FsOp)
  | lease (op : LeaseOp)
  | noop
deriving DecidableEq

structure Catalog (T : Type) where
  volumes : BTreeMap VolumeId VolumeMeta := ∅
  snapshots : BTreeMap SnapshotId SnapshotMeta := ∅
  extents : BTreeMap ExtentId ExtentMeta := ∅
  appliedIndex : Nat := 0
  currentTerm : Nat := 0
  free : FreeList := {}
  /-- The voter configuration as of `appliedIndex`, none until the first change. -/
  membership : Option Membership := none
  raftAddrs : BTreeMap String String := ∅
  filesystems : BTreeMap FsId (FsMeta T) := ∅
  fsSnapshots : BTreeMap SnapshotId (FsSnapshotMeta T) := ∅
  leases : Leases := {}
deriving DecidableEq

/-- The catalog, the side state of its tables, and the extents a command leaves unreferenced. -/
structure World (T C : Type) where
  cat : Catalog T
  side : C
  gc : List ExtentId := []

/-- One filesystem being changed in place. -/
structure FsState (T C : Type) where
  fs : FsMeta T
  side : C

/-- A read of a filesystem, a change of one, a change of the catalog. On a fault the state is what
the steps before it left. -/
abbrev Rd (C α : Type) := EStateM Fault C α
abbrev FsM (T C α : Type) := EStateM Fault (FsState T C) α
abbrev CatM (T C α : Type) := EStateM Fault (World T C) α

def reject {σ α : Type} (e : MetaError) : EStateM Fault σ α := throw (.err e)

def ofExcept {σ α : Type} : Except MetaError α → EStateM Fault σ α
  | .ok a => pure a
  | .error e => reject e

/-- A table operation. -/
def tab {C α : Type} (x : EStateM MetaError C α) : Rd C α := fun c =>
  match x c with
  | .ok a c => .ok a c
  | .error e c => .error (.err e) c

def FsM.read {T C α : Type} (x : FsMeta T → Rd C α) : FsM T C α := fun s =>
  match x s.fs s.side with
  | .ok a c => .ok a { s with side := c }
  | .error e c => .error e { s with side := c }

def CatM.read {T C α : Type} (x : Catalog T → Rd C α) : CatM T C α := fun s =>
  match x s.cat s.side with
  | .ok a c => .ok a { s with side := c }
  | .error e c => .error e { s with side := c }

end AtlasNative
