import AtlasNative.Catalog.Namespace

/-!
# The filesystem commands

One definition for each client command on a filesystem and for snapshots and clones.
-/

namespace AtlasNative

variable {T D C : Type} [Backend T D C]

/-! ### Commands on one tree -/

namespace FsM

/-- The kind of a new node. -/
def newKind (parent : Nat) (nodeType : NodeType) (target : Option String) (rdev : Nat) :
    Except MetaError (InodeKind D) :=
  match nodeType with
  | .file => .ok (.file 0 ∅)
  | .dir => .ok (.dir parent (Backend.noEntries T))
  | .symlink =>
    match target.filter fun t => !t.isEmpty && t.utf8ByteSize ≤ maxSymlinkBytes with
    | some t => .ok (.symlink t)
    | none => .error (.invalid s!"a symlink needs a 1-{maxSymlinkBytes} byte target")
  | t => .ok (.special t rdev)

def mknode (parent : Nat) (name opId : String) (nodeType : NodeType) (target : Option String)
    (rdev mode : Nat) (createMode : Option Nat) (uid gid : Nat) (nowNs : Int) : FsM T C Unit := do
  match ← read fun f => f.entry parent name with
  | some existing =>
    -- a retried create finds its own inode
    let i ← if opId.isEmpty then pure none else some <$> read fun f => f.inode existing
    if i.any (·.opId = opId) then pure ()
    else reject (.exists s!"{debugStr name} in directory {parent}")
  | none =>
    read fun f => f.checkInodeQuota
    let (mode, acls) ← read fun f => f.inheritAcls parent nodeType mode createMode
    let kind ← ofExcept (newKind (T := T) parent nodeType target rdev)
    let ino := (← get).fs.nextIno
    modifyFs fun f => { f with nextIno := u64 (f.nextIno + 1) }
    let i := Inode.new ino kind mode uid gid nowNs
    let i := { i with opId := opId, xattrs := i.xattrs.insertMany acls }
    insertInode i
    setEntry parent name (some ino)
    dirChanged parent i.isDir.toInt nowNs

def link (ino parent : Nat) (name : String) (nowNs : Int) : FsM T C Unit := do
  if (← read fun f => f.inode ino).isDir then
    reject (.isDir s!"inode {ino}: directories cannot be hard-linked") else
  match ← read fun f => f.entry parent name with
  | some existing =>
    if existing = ino then pure ()
    else reject (.exists s!"{debugStr name} in directory {parent}")
  | none =>
    setEntry parent name (some ino)
    dirChanged parent 0 nowNs
    let i ← inodeMut ino
    putInode { i with nlink := u32 (i.nlink + 1), ctimeNs := nowNs }

/-- Returns the inode if this was its last link. -/
def unlink (parent : Nat) (name : String) (nowNs : Int) : FsM T C (Option (Inode D)) := do
  let ino ← read fun f => f.lookup parent name
  if (← read fun f => f.inode ino).isDir then
    reject (.isDir s!"{debugStr name} in directory {parent}") else
  setEntry parent name none
  dirChanged parent 0 nowNs
  dropLink ino nowNs

def rmdir (parent : Nat) (name : String) (nowNs : Int) : FsM T C Unit := do
  let ino ← read fun f => f.lookup parent name
  let d ← read fun f => f.dir ino
  if (← get).fs.sizeOf d ≠ 0 then
    reject (.notEmpty s!"{debugStr name} in directory {parent}") else
  setEntry parent name none
  dirChanged parent (-1) nowNs
  let _ ← removeInode ino

/-- Removes what `rename` replaces; returns a file whose last link that was. -/
def renameOver (srcDir : Bool) (dst newParent : Nat) (newName : String) (nowNs : Int) :
    FsM T C (Option (Inode D)) := do
  let d ← read fun f => f.inode dst
  let where_ := s!"{debugStr newName} in directory {newParent}"
  match srcDir, d.isDir with
  | true, false => reject (.notDir where_)
  | false, true => reject (.isDir where_)
  | true, true =>
    let d ← read fun f => f.dir dst
    if (← get).fs.sizeOf d ≠ 0 then reject (.notEmpty where_) else
    setEntry newParent newName none
    let _ ← removeInode dst
    dirChanged newParent (-1) nowNs
    pure none
  | false, false =>
    setEntry newParent newName none
    dropLink dst nowNs

/-- Moves the entry, once nothing is in its way. -/
def renameMove (src : Nat) (srcDir : Bool) (parent : Nat) (name : String) (newParent : Nat)
    (newName : String) (nowNs : Int) : FsM T C Unit := do
  setEntry parent name none
  setEntry newParent newName (some src)
  let moved : Int := (srcDir && parent != newParent).toInt
  dirChanged parent (-moved) nowNs
  dirChanged newParent moved nowNs
  let s ← inodeMut src
  let kind := match s.kind with
    | .dir _ entries => .dir newParent entries
    | k => k
  putInode { s with ctimeNs := nowNs, kind := kind }

/-- Returns a replaced file whose last link that was. -/
def rename (parent : Nat) (name : String) (newParent : Nat) (newName : String) (nowNs : Int) :
    FsM T C (Option (Inode D)) := do
  let src ← read fun f => f.lookup parent name
  let dst ← read fun f => f.entry newParent newName
  if dst = some src then pure none else
  let srcDir := (← read fun f => f.inode src).isDir
  let inside ← if srcDir then read fun f => f.isWithin newParent src else pure false
  if inside then reject (.invalid s!"cannot move directory {src} inside itself") else
  let dropped ← match dst with
    | some dst => renameOver srcDir dst newParent newName nowNs
    | none => pure none
  renameMove src srcDir parent name newParent newName nowNs
  pure dropped

/-- What `setAttr` cut off a file: its extents past the new size, and the old and new size. -/
structure Resized where
  cut : List ExtentId := []
  sizes : Option (Nat × Nat) := none

/-- The resizing part of `setAttr`. -/
def resize (ino : Nat) (i : Inode D) (size : Option Nat) (nowNs : Int) :
    Except MetaError (Inode D × Resized) :=
  match size with
  | none => .ok (i, {})
  | some newSize =>
    match i.kind with
    | .file size extents =>
      let kept := if newSize < size then extents.filter fun off _ => off < newSize else extents
      let cut := if newSize < size then extents.filter fun off _ => newSize ≤ off else ∅
      if newSize ≠ size then
        .ok ({ i with kind := .file newSize kept, mtimeNs := nowNs },
          ⟨cut.values, some (size, newSize)⟩)
      else .ok ({ i with kind := .file size kept }, ⟨cut.values, none⟩)
    | _ => .error (.isDir s!"inode {ino} is not a regular file")

def setAttr (ino : Nat) (attr : SetAttr) (nowNs : Int) : FsM T C Resized := do
  let i ← inodeMut ino
  -- chmod rewrites the access ACL's owner, group (mask) and other entries
  let acl ← match attr.mode, i.xattrs[Acl.access]? with
    | some m, some raw => do
      let a ← ofExcept (Acl.parse raw)
      pure (some (Acl.encode (Acl.chmod a m)))
    | _, _ => pure none
  let (i, cut) ← ofExcept (resize ino i attr.size nowNs)
  let xattrs := match acl with
    | some a => i.xattrs.insert Acl.access a
    | none => i.xattrs
  putInode { i with
    mode := (attr.mode.map (· &&& 0o7777)).getD i.mode
    xattrs := xattrs
    uid := attr.uid.getD i.uid
    gid := attr.gid.getD i.gid
    atimeNs := attr.atimeNs.getD i.atimeNs
    mtimeNs := attr.mtimeNs.getD i.mtimeNs
    ctimeNs := nowNs }
  pure cut

/-- The mode an access ACL stands for and whether it says no more than that. -/
def aclMode (i : Inode D) (ino : Nat) (name : String) (value : Bytes) :
    Except MetaError (Option (Nat × Bool)) :=
  if name = Acl.access then do
    let a ← Acl.parse value
    pure (some (Acl.applyToMode a i.mode, Acl.isMinimal a))
  else if name = Acl.default then do
    let _ ← Acl.parse value
    if !i.isDir then throw (.invalid s!"inode {ino}: only directories have a default ACL")
    pure none
  else pure none

def setXattr (ino : Nat) (name : String) (value : Bytes) (mode : XattrMode) (nowNs : Int) :
    FsM T C Unit := do
  let i ← inodeMut ino
  let aclMode ← ofExcept (aclMode i ino name value)
  let old := i.xattrs[name]?
  if mode = .create ∧ old.isSome then
    reject (.exists s!"extended attribute {debugStr name}") else
  if mode = .replace ∧ old.isNone then reject (.noAttr name) else
  let total := (i.xattrs.toList.map fun kv => kv.1.utf8ByteSize + kv.2.length).sum -
    (old.map fun v => name.utf8ByteSize + v.length).getD 0 + name.utf8ByteSize + value.length
  if maxXattrTotalBytes < total then
    reject (.tooBig s!"extended attributes of inode {ino} would exceed {maxXattrTotalBytes} bytes")
  else
  let i := match aclMode with
    | some (m, true) => { i with mode := m, xattrs := i.xattrs.erase name }
    | some (m, false) => { i with mode := m, xattrs := i.xattrs.insert name value }
    | none => { i with xattrs := i.xattrs.insert name value }
  putInode { i with ctimeNs := nowNs }

def removeXattr (ino : Nat) (name : String) (nowNs : Int) : FsM T C Unit := do
  let i ← inodeMut ino
  if i.xattrs.contains name then putInode { i with xattrs := i.xattrs.erase name, ctimeNs := nowNs }
  else reject (.noAttr name)

/-- Maps each extent at its offset; also returns the extents mapped there before, in order. -/
def mapExtents (extents : BTreeMap Nat ExtentId) (new : List (Nat × ExtentId)) :
    BTreeMap Nat ExtentId × List ExtentId :=
  new.foldl (fun (acc : BTreeMap Nat ExtentId × List ExtentId) e =>
    (acc.1.insert e.1 e.2, acc.2 ++ acc.1[e.1]?.toList)) (extents, [])

/-- Maps extents into a file and grows it to at least `atLeast`; returns the extents they replace
and how much the file grew. -/
def installAt (ino : Nat) (new : List (Nat × ExtentId)) (atLeast : Nat) (nowNs : Int)
    (replica : Bool) : FsM T C (List ExtentId × Nat) := do
  let i ← inodeMut ino
  match i.kind with
  | .file size extents =>
    let (extents, old) := mapExtents extents new
    let i := { i with kind := .file (max size atLeast) extents }
    putInode (if replica then i else i.touch nowNs)
    pure (old, max size atLeast - size)
  | _ => reject (.isDir s!"inode {ino} is not a regular file")

end FsM

/-! ### Commands on the catalog -/

namespace CatM

/-- A fresh filesystem: its root directory only. -/
def emptyFs (fs : FsId) (name : String) (nowNs : Int) (extentBytes : Option Nat)
    (replica : Option ReplicaState) : FsMeta T where
  id := fs
  name := name
  nextIno := rootIno + 1
  inodes := Backend.ofInodes
    [Inode.new rootIno (.dir rootIno (Backend.noEntries T)) 0o755 0 0 nowNs]
  sourceSnapshot := none
  extentBytes := extentBytes
  usage := some {}
  quota := none
  replica := replica

def createFs (fs : FsId) (name : String) (nowNs : Int) (extentBytes : Option Nat) :
    CatM T C Unit := do
  if extentBytes = some 0 then reject (.invalid "extent_bytes must be positive") else
  match (← get).cat.filesystems[fs]? with
  | some f => if f.name = name then pure () else reject (.exists s!"filesystem {fs}")
  | none => insertFs fs (emptyFs fs name nowNs extentBytes none)

def deleteFs (fs : FsId) : CatM T C Unit := do
  let f ← filesystem fs
  let all ← read fun _ => tab (Backend.scan f.inodes)
  replace .filesystems fs
  modifyCat fun c => { c with
    filesystems := c.filesystems.erase fs
    leases := c.leases.forgetFs fs }
  all.forM dropInode

/-- Forgets a file whose last link is gone. -/
def dropGone (fs : FsId) (gone : Option (Inode D)) : CatM T C Unit :=
  match gone with
  | some i => do
    forgetUsage fs i
    dropInode i
  | none => pure ()

def setAttr (fs : FsId) (ino : Nat) (attr : SetAttr) (nowNs : Int) : CatM T C Unit := do
  let r ← withFs fs (FsM.setAttr ino attr nowNs)
  let c := (← get).cat
  let cutBytes := u64 (r.cut.map c.extentLen).sum
  withUsage fs fun u =>
    { fileBytes := match r.sizes with
        | some (old, new) => satAdd (u.fileBytes - old) new
        | none => u.fileBytes
      usedBytes := u.usedBytes - cutBytes }
  r.cut.forM decRef

def setXattr (fs : FsId) (ino : Nat) (name : String) (value : Bytes) (mode : XattrMode)
    (nowNs : Int) : CatM T C Unit := do
  ofExcept (checkXattrName name)
  if maxXattrValueBytes < value.length then
    reject (.tooBig s!"extended attribute values are at most {maxXattrValueBytes} bytes") else
  withFs fs (FsM.setXattr ino name value mode nowNs)

/-- Installs already checked extents in a file; `new` says where each goes. -/
def installFile (fs : FsId) (ino : Nat) (new : List (Nat × ExtentRef)) (atLeast : Nat)
    (nowNs : Int) (replica : Bool) : CatM T C Unit := do
  checkByteQuota fs ino (new.map fun e => (e.1, e.2.len))
  let (old, grown) ← withFs fs
    (FsM.installAt ino (new.map fun e => (e.1, e.2.id)) atLeast nowNs replica)
  (new.map Prod.snd).forM addExtentRef
  let c := (← get).cat
  let oldLen := u64 (old.map c.extentLen).sum
  let newLen := u64 (new.map fun e => e.2.len).sum
  withUsage fs fun u =>
    { fileBytes := satAdd u.fileBytes grown, usedBytes := u64 (u.usedBytes + newLen) - oldLen }
  old.forM decRef

def installFileExtent (fs : FsId) (ino logicalOffset : Nat) (extent : ExtentRef) (size : Nat)
    (nowNs : Int) (replica : Bool) : CatM T C Unit := do
  ofExcept extent.check
  installFile fs ino [(logicalOffset, extent)] size nowNs replica

def installFileExtents (fs : FsId) (ino : Nat) (extents : List ExtentRef) (size : Nat)
    (nowNs : Int) (replica : Bool) : CatM T C Unit := do
  extents.forM fun e => ofExcept e.check
  installFile fs ino (extents.map fun e => (e.logicalOffset, e)) size nowNs replica

/-- Freezes `fs` as snapshot `id` (idempotent for the same filesystem and name). -/
def snapshotTree (id : SnapshotId) (fs : FsId) (name : String) (nowNs : Int) :
    CatM T C Unit := do
  match (← get).cat.fsSnapshots[id]? with
  | some s =>
    if s.fsId = fs ∧ s.name = name then pure ()
    else reject (.exists s!"filesystem snapshot {id}")
  | none =>
    let f ← filesystem fs
    let inodes ← read fun _ => tab (Backend.detached f.inodes)
    let tree := { f with inodes := inodes, replica := none }
    shareExtents tree.inodes
    replace .fsSnapshots id
    modifyCat fun c => { c with fsSnapshots := c.fsSnapshots.insert id ⟨id, fs, name, nowNs, tree⟩ }

def deleteFsSnapshot (id : SnapshotId) : CatM T C Unit := do
  let c := (← get).cat
  match c.filesystems.values.find? fun f => f.replica.any (·.localSnap = some id) with
  | some f => reject (.invalid s!"filesystem snapshot {id} is the base of replica {f.id}")
  | none =>
    match c.fsSnapshots[id]? with
    | none => reject (.notFound s!"filesystem snapshot {id}")
    | some s =>
      replace .fsSnapshots id
      modifyCat fun c => { c with fsSnapshots := c.fsSnapshots.erase id }
      let all ← read fun _ => tab (Backend.scan s.tree.inodes)
      all.forM dropInode

def cloneFs (id : FsId) (name : String) (snapshotId : SnapshotId) : CatM T C Unit := do
  let c := (← get).cat
  match c.filesystems[id]? with
  | some f =>
    if f.name = name ∧ f.sourceSnapshot = some snapshotId then pure ()
    else reject (.exists s!"filesystem {id}")
  | none =>
    match c.fsSnapshots[snapshotId]? with
    | none => reject (.notFound s!"filesystem snapshot {snapshotId}")
    | some s =>
      shareExtents s.tree.inodes
      insertFs id { s.tree with
        id := id, name := name, sourceSnapshot := some snapshotId, replica := none }

def setQuota (fs : FsId) (maxBytes maxInodes : Option Nat) : CatM T C Unit :=
  withFs fs <| FsM.modifyFs fun f => { f with
    quota := if maxBytes = none ∧ maxInodes = none then none else some ⟨maxBytes, maxInodes⟩ }

end CatM

end AtlasNative
