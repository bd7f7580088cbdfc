import AtlasNative.Catalog.Command

/-!
# The file and directory namespace

Reads of one filesystem (`FsMeta`), changes of one filesystem in place (`FsM`), and the commands
on the catalog's filesystems (`CatM`). Effects happen in the order of the source, so that a
command that fails leaves behind exactly what it had done before.
-/

namespace AtlasNative

variable {T D C : Type} [Backend T D C]

/-! ### Names -/

/-- `str::split_once` at a character. -/
def splitOnce (c : Char) (s : String) : Option (String × String) :=
  let l := s.toList
  if l.contains c then
    some (String.ofList (l.takeWhile (· ≠ c)), String.ofList ((l.dropWhile (· ≠ c)).drop 1))
  else none

/-- An extended attribute name in a namespace that is stored. -/
def checkXattrName (name : String) : Except MetaError Unit :=
  if name.isEmpty ∨ maxNameBytes < name.utf8ByteSize ∨ name.toList.any (·.toNat = 0) then
    .error (.invalid s!"invalid extended attribute name {debugStr name}")
  else if name = Acl.access ∨ name = Acl.default then .ok ()
  else match splitOnce '.' name with
    | some (ns, rest) =>
      if (ns = "user" ∨ ns = "trusted" ∨ ns = "security") ∧ ¬ rest.isEmpty then .ok ()
      else .error (.unsupported s!"extended attribute namespace of {debugStr name}")
    | none => .error (.unsupported s!"extended attribute namespace of {debugStr name}")

def checkName (name : String) : Except MetaError Unit :=
  if name.isEmpty ∨ maxNameBytes < name.utf8ByteSize ∨ name = "." ∨ name = ".." ∨
      name.toList.any (fun c => c = '/' || c.toNat = 0) then
    .error (.invalid s!"invalid file name {debugStr name}")
  else .ok ()

/-! ### Reading a filesystem -/

namespace FsMeta

def inode (f : FsMeta T) (ino : Nat) : Rd C (Inode D) := do
  match ← tab (Backend.get f.inodes ino) with
  | some i => pure i
  | none => reject (.notFound s!"inode {ino} in filesystem {f.id}")

/-- A directory inode. -/
def dir (f : FsMeta T) (dir : Nat) : Rd C (Inode D) := do
  let i ← f.inode dir
  if !i.isDir then reject (.notDir s!"inode {dir}") else pure i

/-- The inode `name` in directory `dir` names, if any. -/
def entry (f : FsMeta T) (dir : Nat) (name : String) : Rd C (Option Nat) := do
  let d ← f.dir dir
  tab (Backend.entry f.inodes d name)

def lookup (f : FsMeta T) (dir : Nat) (name : String) : Rd C Nat := do
  match ← f.entry dir name with
  | some i => pure i
  | none => reject (.notFound s!"{debugStr name} in directory {dir}")

/-- File size; a directory reports its entry count and a symlink its target length. -/
def sizeOf (_ : FsMeta T) (i : Inode D) : Nat := match i.kind with
  | .dir _ entries => Backend.entryCount T entries
  | .file size _ => size
  | .symlink target => target.utf8ByteSize
  | .special .. => 0

/-- The mode and ACL xattrs of a node created in `parent`. -/
def inheritAcls (f : FsMeta T) (parent : Nat) (nodeType : NodeType) (mode : Nat)
    (createMode : Option Nat) : Rd C (Nat × List (String × Bytes)) := do
  if nodeType = .symlink then pure (mode, []) else
  let p ← f.inode parent
  match p.xattrs[Acl.default]? with
  | none => pure (mode, [])
  | some raw =>
    let acl ← ofExcept (Acl.parse raw)
    let (access, mode) := Acl.createMasq acl (createMode.getD mode)
    let acls := if Acl.isMinimal access then [] else [(Acl.access, Acl.encode access)]
    let acls := if nodeType = .dir then acls ++ [(Acl.default, raw)] else acls
    pure (mode, acls)

/-- Fails if one more inode would take the filesystem over its inode quota. -/
def checkInodeQuota (f : FsMeta T) : Rd C Unit :=
  match f.quota.bind FsQuota.maxInodes with
  | some max =>
    if max ≤ Backend.count f.inodes then
      reject (.quota s!"filesystem {f.id} has reached its inode quota of {max}")
    else pure ()
  | none => pure ()

/-- Walks the parent chain from `ino`. Past as many steps as there are inodes the walk has come
back to an inode it was at before, and never ends. -/
def isWithinFuel (f : FsMeta T) (ancestor : Nat) : Nat → Nat → Rd C Bool
  | 0, _ => throw .hang
  | fuel + 1, ino => do
    if ino = ancestor then pure true else
    match (← f.inode ino).kind with
    | .dir parent _ => if ino ≠ rootIno then f.isWithinFuel ancestor fuel parent else pure false
    | _ => pure false

/-- Whether `ino` is `ancestor` or lies below it. -/
def isWithin (f : FsMeta T) (ino ancestor : Nat) : Rd C Bool :=
  f.isWithinFuel ancestor (Backend.count f.inodes + 1) ino

end FsMeta

/-! ### Changing a filesystem -/

namespace FsM

def modifyFs (g : FsMeta T → FsMeta T) : FsM T C Unit := modify fun s => { s with fs := g s.fs }

def setInodes (t : T) : FsM T C Unit := modifyFs fun f => { f with inodes := t }

/-- `InodeTable::get_mut`: the inode to edit in place. -/
def edit (ino : Nat) : FsM T C (Option (Inode D)) := do
  let (i, t) ← read fun f => tab (Backend.getMut f.inodes ino)
  setInodes t
  pure i

def inodeMut (ino : Nat) : FsM T C (Inode D) := do
  match ← edit ino with
  | some i => pure i
  | none => read fun f => reject (.notFound s!"inode {ino} in filesystem {f.id}")

/-- Writes an edited inode back. -/
def putInode (i : Inode D) : FsM T C Unit :=
  modifyFs fun f => { f with inodes := Backend.put f.inodes i }

def insertInode (i : Inode D) : FsM T C Unit :=
  modifyFs fun f => { f with inodes := Backend.insert f.inodes i }

def removeInode (ino : Nat) : FsM T C (Option (Inode D)) := do
  let (i, t) ← read fun f => tab (Backend.remove f.inodes ino)
  setInodes t
  pure i

/-- `InodeTable::set_entry`. -/
def tableSetEntry (dir : Nat) (name : String) (ino : Option Nat) : FsM T C Unit := do
  match ← read fun f => tab (Backend.get f.inodes dir) with
  | none => reject (.notFound s!"inode {dir}")
  | some d =>
    let old ← read fun f => tab (Backend.entry f.inodes d name)
    match ← edit dir with
    | some i =>
      match i.kind with
      | .dir parent entries =>
        putInode { i with kind := .dir parent (Backend.setName T entries name ino old.isSome) }
      | _ => reject (.notDir s!"inode {dir}")
    | none => reject (.notDir s!"inode {dir}")

def setEntry (dir : Nat) (name : String) (ino : Option Nat) : FsM T C Unit := do
  let _ ← read fun f => f.dir dir
  tableSetEntry dir name ino

/-- Adjusts a directory's link count and stamps it modified. -/
def dirChanged (dir : Nat) (subdirs : Int) (nowNs : Int) : FsM T C Unit := do
  let d ← inodeMut dir
  putInode ({ d with nlink := u32 ((d.nlink : Int) + subdirs).toNat }.touch nowNs)

/-- Drops one link to a non-directory; returns the inode once its last link is gone. -/
def dropLink (ino : Nat) (nowNs : Int) : FsM T C (Option (Inode D)) := do
  let i ← inodeMut ino
  let i := { i with nlink := i.nlink - 1, ctimeNs := nowNs }
  putInode i
  if i.nlink = 0 then removeInode ino else pure none

end FsM

/-! ### The catalog's maps -/

namespace CatM

def modifyCat (g : Catalog T → Catalog T) : CatM T C Unit :=
  modify fun w => { w with cat := g w.cat }

def touch (p : Part) (key : String) : CatM T C Unit :=
  modify fun w => { w with side := Backend.touch T p key w.side }

/-- A value inserted or removed is both changed and replaced. -/
def replace (p : Part) (key : String) : CatM T C Unit :=
  modify fun w => { w with side := Backend.replace T p key (Backend.touch T p key w.side) }

def setExtent (id : ExtentId) (e : ExtentMeta) : CatM T C Unit :=
  modifyCat fun c => { c with extents := c.extents.insert id e }

def setFs (fs : FsId) (f : FsMeta T) : CatM T C Unit :=
  modifyCat fun c => { c with filesystems := c.filesystems.insert fs f }

def insertFs (fs : FsId) (f : FsMeta T) : CatM T C Unit := do
  replace .filesystems fs
  setFs fs f

/-- `Catalog::filesystem`. -/
def filesystem (fs : FsId) : CatM T C (FsMeta T) := do
  match (← get).cat.filesystems[fs]? with
  | some f => pure f
  | none => reject (.notFound s!"filesystem {fs}")

/-- Runs a change of filesystem `fs` in place (`Catalog::fs_mut`). -/
def withFs {α : Type} (fs : FsId) (x : FsM T C α) : CatM T C α := do
  let f ← filesystem fs
  touch .filesystems fs
  fun w =>
    match x ⟨f, w.side⟩ with
    | .ok a s =>
      .ok a { w with cat.filesystems := w.cat.filesystems.insert fs s.fs, side := s.side }
    | .error e s =>
      .error e { w with cat.filesystems := w.cat.filesystems.insert fs s.fs, side := s.side }

/-- Takes a reference on `extent`, reserving its device ranges the first time it is seen. -/
def addExtentRef (extent : ExtentRef) : CatM T C Unit := do
  match (← get).cat.extents[extent.id]? with
  | some e =>
    touch .extents extent.id
    setExtent extent.id { e with refs := e.refs + 1 }
  | none =>
    modifyCat fun c => { c with free := extent.replicas.foldl (fun free r =>
      free.reserve r.nodeId r.deviceIndex r.offset extent.storedLen) c.free }
    replace .extents extent.id
    setExtent extent.id ⟨extent, 1, false⟩

def decRef (id : ExtentId) : CatM T C Unit := do
  match (← get).cat.extents[id]? with
  | none => reject (.notFound id)
  | some e =>
    touch .extents id
    if e.refs = 0 then reject (.invalid s!"extent {id} refcount underflow") else
    setExtent id { e with refs := e.refs - 1 }
    if e.refs - 1 = 0 then modify fun w => { w with gc := w.gc ++ [id] } else pure ()

/-- One more reference to an extent that must be there. -/
def shareExtent (id : ExtentId) : CatM T C Unit := do
  match (← get).cat.extents[id]? with
  | none => reject (.notFound id)
  | some e =>
    touch .extents id
    setExtent id { e with refs := e.refs + 1 }

def dropInode (i : Inode D) : CatM T C Unit := i.fileExtents.forM decRef

def shareExtents (t : T) : CatM T C Unit := do
  let all ← read fun _ => tab (Backend.scan t)
  (all.flatMap Inode.fileExtents).forM shareExtent

end CatM

def Catalog.extentLen (c : Catalog T) (id : ExtentId) : Nat :=
  (c.extents[id]?.map fun m => m.extent.len).getD 0

namespace CatM

/-- Changes a filesystem's usage counters, if it keeps them (`Catalog::usage_mut`). -/
def withUsage (fs : FsId) (g : FsUsage → FsUsage) : CatM T C Unit := do
  match (← get).cat.filesystems[fs]? with
  | none => pure ()
  | some f =>
    touch .filesystems fs
    setFs fs { f with usage := f.usage.map g }

/-- Takes a file about to be dropped out of its filesystem's usage. -/
def forgetUsage (fs : FsId) (i : Inode D) : CatM T C Unit := do
  match i.kind with
  | .file size extents =>
    let c := (← get).cat
    let used := u64 ((extents.values.map c.extentLen).sum)
    withUsage fs fun u =>
      { fileBytes := u.fileBytes - size, usedBytes := u.usedBytes - used }
  | _ => pure ()

/-- Fails if installing `new` (offset and length pairs) in file `ino` would grow `fs` past its
byte quota. -/
def checkByteQuota (fs : FsId) (ino : Nat) (new : List (Nat × Nat)) : CatM T C Unit := do
  let f ← filesystem fs
  match f.quota.bind FsQuota.maxBytes, f.usage with
  | some max, some usage =>
    let i ← read fun _ => f.inode ino
    match i.kind with
    | .file _ extents =>
      let c := (← get).cat
      let freed := u64 ((new.filterMap fun n => extents[n.1]?).map c.extentLen).sum
      let added := u64 (new.map Prod.snd).sum
      if added ≤ freed then pure () else
      let after := u64 (usage.usedBytes + added) - freed
      if max < after then
        reject (.quota s!"filesystem {fs} would use {after} bytes, over its quota of {max}")
      else pure ()
    | _ => pure ()
  | _, _ => pure ()

end CatM

end AtlasNative
