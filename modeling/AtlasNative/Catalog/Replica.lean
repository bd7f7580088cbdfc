import AtlasNative.Catalog.FsOps

/-!
# Replica filesystems

The receiving side of asynchronous replication: a source's snapshots arrive as increments
(`replicaApply` parts, then `replicaCommit`). A part is checked against the replica's current tree;
if another increment was partly applied, that tree is reverted before the part is applied.
-/

namespace AtlasNative

variable {T D C : Type} [Backend T D C]

namespace CatM

def invalid (msg : String) : MetaError := .invalid msg

def replicaOf (fs : FsId) : CatM T C ReplicaState := do
  match (← filesystem fs).replica with
  | some r => pure r
  | none => reject (invalid s!"filesystem {fs} is not a replica")

def createReplica (fs : FsId) (name : String) (nowNs : Int) (extentBytes : Nat) :
    CatM T C Unit := do
  if extentBytes = 0 then reject (invalid "extent_bytes must be positive") else
  match (← get).cat.filesystems[fs]? with
  | some f =>
    if f.name = name ∧ f.replica.isSome ∧ f.extentBytes = some extentBytes then pure ()
    else reject (.exists s!"filesystem {fs}")
  | none => insertFs fs (emptyFs fs name nowNs (some extentBytes) (some {}))

/-- Replaces `fs`'s tree with that of its snapshot `snapshot`, keeping its identity and quota. -/
def revertTo (fs : FsId) (snapshot : SnapshotId) (replica : Option ReplicaState) :
    CatM T C Unit := do
  match (← get).cat.fsSnapshots[snapshot]?.filter fun s => s.fsId = fs with
  | none => reject (.notFound s!"snapshot {snapshot} of filesystem {fs}")
  | some s =>
    let current ← filesystem fs
    let old ← read fun _ => tab (Backend.scan current.inodes)
    let tree := { s.tree with
      id := current.id
      name := current.name
      quota := current.quota
      sourceSnapshot := current.sourceSnapshot
      nextIno := max s.tree.nextIno current.nextIno
      replica := replica }
    shareExtents tree.inodes
    insertFs fs tree
    modifyCat fun c => { c with leases := c.leases.forgetFs fs }
    old.forM dropInode

/-- Drops a partly applied increment: back to the last complete one, or to an empty root. -/
def discardPartial (fs : FsId) : CatM T C Unit := do
  let r ← replicaOf fs
  match r.localSnap with
  | some localSnap => revertTo fs localSnap (some { r with pending := none })
  | none =>
    let f ← filesystem fs
    let old ← read fun _ => tab (Backend.scan f.inodes)
    let rootNs := (← read fun _ => f.inode rootIno).ctimeNs
    let fresh := emptyFs fs f.name rootNs (some (f.extentBytes.getD 0)) (some {})
    insertFs fs { fresh with quota := f.quota, nextIno := f.nextIno }
    modifyCat fun c => { c with leases := c.leases.forgetFs fs }
    old.forM dropInode

/-- Checks one upserted inode; `types` holds the types of those before it. -/
def checkPartInode (f : FsMeta T) (types : BTreeMap Nat NodeType) (n : ReplicaInode) :
    Rd C (BTreeMap Nat NodeType) := do
  if n.ino = 0 then reject (invalid "inode 0 does not exist") else
  if n.ino = rootIno ∧ n.nodeType ≠ .dir then
    reject (invalid "the root inode is a directory") else
  let known ← match types[n.ino]? with
    | some t => pure (some t)
    | none => (·.map Inode.nodeType) <$> tab (Backend.get f.inodes n.ino)
  if known.any (· ≠ n.nodeType) then
    reject (invalid s!"inode {n.ino} would change type to {n.nodeType.debug}") else
  if n.nodeType = .symlink ∧
      ¬ n.target.any (fun t => !t.isEmpty && t.utf8ByteSize ≤ maxSymlinkBytes) then
    reject (invalid s!"symlink {n.ino} needs a 1-{maxSymlinkBytes} byte target") else
  if n.nodeType = .dir ∧ n.parent = 0 then
    reject (invalid s!"directory {n.ino} needs a parent") else
  if n.nodeType ≠ .dir ∧ n.entries ≠ [] then
    reject (invalid s!"inode {n.ino} has entries but is no directory") else
  if n.nodeType ≠ .file ∧ n.holes ≠ [] then
    reject (invalid s!"inode {n.ino} has holes but is no file") else
  n.entries.forM fun e => ofExcept (checkName e.1)
  n.xattrs.toList.forM fun kv => do
    ofExcept (checkXattrName kv.1)
    if maxXattrValueBytes < kv.2.length then
      reject (.tooBig s!"extended attribute values are at most {maxXattrValueBytes} bytes")
    else pure ()
  if maxXattrTotalBytes < (n.xattrs.toList.map fun kv => kv.1.utf8ByteSize + kv.2.length).sum then
    reject (.tooBig s!"extended attributes of inode {n.ino} exceed {maxXattrTotalBytes} bytes")
  else pure (types.insert n.ino n.nodeType)

/-- Checks one part of an increment against the replica before anything changes. -/
def checkPart (fs : FsId) (fromSnap : Option SnapshotId) (toSnap : SnapshotId)
    (inodes : List ReplicaInode) (removed : List Nat) : CatM T C Unit := do
  let r ← replicaOf fs
  if r.pending ≠ some toSnap ∧ r.base ≠ fromSnap then
    reject (invalid (s!"increment from {debugOpt fromSnap} does not start at replica {fs}'s " ++
      s!"base {debugOpt r.base}")) else
  let f ← filesystem fs
  let types ← read fun _ => inodes.foldlM (checkPartInode f) ∅
  removed.forM fun ino =>
    if ino = rootIno then reject (invalid "the root inode cannot be removed")
    else if types.contains ino then
      reject (invalid s!"inode {ino} is both changed and removed")
    else pure ()

end CatM

/-! ### Applying a part to the tree -/

/-- What a part takes out of the tree: extents dropped from files, inodes removed, and the change
of the total file size. -/
structure PartEffect (D : Type) where
  dropped : List ExtentId := []
  gone : List (Inode D) := []
  fileBytes : Int := 0

namespace FsM

/-- An existing inode as an increment changes it. -/
def upsertKind (n : ReplicaInode) (kind : InodeKind D) (eff : PartEffect D) :
    Except Fault (InodeKind D × PartEffect D) :=
  match kind with
  | .file size extents =>
    let cut := if n.size < size then extents.filter fun off _ => n.size ≤ off else ∅
    let kept := if n.size < size then extents.filter fun off _ => off < n.size else extents
    let (kept, holes) := n.holes.foldl (fun (acc : BTreeMap Nat ExtentId × List ExtentId) h =>
      (acc.1.erase h, acc.2 ++ acc.1[h]?.toList)) (kept, [])
    .ok (.file n.size kept, { eff with
      dropped := eff.dropped ++ cut.values ++ holes
      fileBytes := eff.fileBytes + n.size - size })
  | .dir _ entries => .ok (.dir n.parent entries, eff)
  | .symlink _ =>
    match n.target with
    | some target => .ok (.symlink target, eff)
    | none => .error (.panic "checked")
  | .special t _ => .ok (.special t n.rdev, eff)

/-- The kind of an inode the increment brings. -/
def upsertNew (n : ReplicaInode) : Except Fault (InodeKind D) :=
  match n.nodeType with
  | .file => .ok (.file n.size ∅)
  | .dir => .ok (.dir n.parent (Backend.noEntries T))
  | .symlink =>
    match n.target with
    | some target => .ok (.symlink target)
    | none => .error (.panic "checked")
  | t => .ok (.special t n.rdev)

def ofFault {σ α : Type} : Except Fault α → EStateM Fault σ α
  | .ok a => pure a
  | .error e => throw e

/-- Upserts one inode of a part, without its directory entries. -/
def upsertInode (eff : PartEffect D) (n : ReplicaInode) : FsM T C (PartEffect D) := do
  match ← edit n.ino with
  | some i =>
    let i := { i with
      mode := n.mode &&& 0o7777, uid := n.uid, gid := n.gid, nlink := n.nlink
      atimeNs := n.atimeNs, mtimeNs := n.mtimeNs, ctimeNs := n.ctimeNs, xattrs := n.xattrs }
    -- the attributes are set before the kind is looked at
    putInode i
    let (kind, eff) ← ofFault (upsertKind n i.kind eff)
    putInode { i with kind := kind }
    pure eff
  | none =>
    let kind ← ofFault (upsertNew (T := T) n)
    insertInode
      { ino := n.ino, kind := kind, mode := n.mode &&& 0o7777, uid := n.uid, gid := n.gid
        nlink := n.nlink, atimeNs := n.atimeNs, mtimeNs := n.mtimeNs, ctimeNs := n.ctimeNs
        opId := "", xattrs := n.xattrs }
    pure (if n.nodeType = .file then { eff with fileBytes := eff.fileBytes + n.size } else eff)

def upsert (eff : PartEffect D) (n : ReplicaInode) : FsM T C (PartEffect D) := do
  let eff ← upsertInode eff n
  modifyFs fun f => { f with nextIno := max f.nextIno (u64 (n.ino + 1)) }
  n.entries.forM fun e => tableSetEntry n.ino e.1 e.2
  pure eff

def removeGone (eff : PartEffect D) (ino : Nat) : FsM T C (PartEffect D) := do
  let i ← removeInode ino
  pure { eff with gone := eff.gone ++ i.toList }

/-- Upserts `inodes`, then removes `removed`. -/
def applyPart (toSnap : SnapshotId) (inodes : List ReplicaInode) (removed : List Nat) :
    FsM T C (PartEffect D) := do
  let eff ← inodes.foldlM upsert {}
  let eff ← removed.foldlM removeGone eff
  match (← get).fs.replica with
  | some r =>
    modifyFs fun f => { f with replica := some { r with pending := some toSnap } }
    pure eff
  | none => throw (.panic "checked")

end FsM

namespace CatM

/-- `u64` arithmetic on file sizes goes through `i128`, cut off at zero. -/
def addSigned (n : Nat) (d : Int) : Nat := u64 ((n : Int) + d).toNat

def replicaApply (fs : FsId) (fromSnap : Option SnapshotId) (toSnap : SnapshotId)
    (inodes : List ReplicaInode) (removed : List Nat) : CatM T C Unit := do
  checkPart fs fromSnap toSnap inodes removed
  let r ← replicaOf fs
  if r.pending.any (· ≠ toSnap) then discardPartial fs else pure ()
  let eff ← withFs fs (FsM.applyPart toSnap inodes removed)
  let c := (← get).cat
  let droppedBytes := u64 (eff.dropped.map c.extentLen).sum
  withUsage fs fun u =>
    { fileBytes := addSigned u.fileBytes eff.fileBytes, usedBytes := u.usedBytes - droppedBytes }
  eff.dropped.forM decRef
  eff.gone.forM fun i => do
    forgetUsage fs i
    dropInode i

def replicaCommit (fs : FsId) (fromSnap : Option SnapshotId) (toSnap snapshot : SnapshotId)
    (name : String) (nextIno : Nat) (nowNs : Int) : CatM T C Unit := do
  let r ← replicaOf fs
  if r.base = some toSnap ∧ r.localSnap = some snapshot then pure () else
  let started := r.pending = some toSnap
  if ¬ started ∧ r.base ≠ fromSnap then
    reject (invalid (s!"increment from {debugOpt fromSnap} to {toSnap} does not continue " ++
      s!"replica {fs} (base {debugOpt r.base}, pending {debugOpt r.pending})")) else
  if (← get).cat.fsSnapshots.contains snapshot then
    reject (.exists s!"filesystem snapshot {snapshot}") else
  if ¬ started ∧ r.pending.isSome then discardPartial fs else pure ()
  withFs fs <| FsM.modifyFs fun f => { f with
    nextIno := max f.nextIno nextIno
    replica := some ⟨some toSnap, some snapshot, none⟩ }
  snapshotTree snapshot fs name nowNs

def replicaPromote (fs : FsId) (force : Bool) : CatM T C Unit := do
  match (← filesystem fs).replica with
  | none => pure ()
  | some r =>
    match r.localSnap, r.pending with
    | some localSnap, some _ => revertTo fs localSnap none
    | some _, none => withFs fs <| FsM.modifyFs fun f => { f with replica := none }
    | none, _ =>
      if force then withFs fs <| FsM.modifyFs fun f => { f with replica := none }
      else reject (invalid
        s!"replica {fs} has no complete increment yet; force promotes it as it is")

def replicaDemote (fs : FsId) (snapshot base : SnapshotId) : CatM T C Unit := do
  match (← filesystem fs).replica with
  | some r =>
    if r.localSnap = some snapshot ∧ r.base = some base then pure ()
    else reject (invalid s!"filesystem {fs} is already a replica")
  | none => revertTo fs snapshot (some ⟨some base, some snapshot, none⟩)

end CatM

end AtlasNative
