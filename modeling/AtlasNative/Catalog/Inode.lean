import AtlasNative.Catalog.Acl

/-!
# Inodes, filesystems and the table they are kept in

A filesystem is a table of inodes; a directory inode holds its entries, a file inode an extent map.
Where the table keeps them is a separate matter: the source has one table type that holds
everything in memory until the catalog is checkpointed and reads the rest from the store
afterwards. The commands are written once, over the operations of `Backend`; `MemTable` is the
table that holds everything in memory.

Every read may consult a cache and every change is recorded for the next checkpoint, so the
operations pass a side state `C` along. In memory it is `Unit`.
-/

namespace AtlasNative

def rootIno : Nat := 1
def maxNameBytes : Nat := 255
def maxSymlinkBytes : Nat := 4096
def maxXattrValueBytes : Nat := 64 * 1024
def maxXattrTotalBytes : Nat := 256 * 1024

inductive NodeType where
  | file | dir | symlink | fifo | socket | charDevice | blockDevice
deriving DecidableEq, Repr

def NodeType.debug : NodeType → String
  | .file => "File"
  | .dir => "Dir"
  | .symlink => "Symlink"
  | .fifo => "Fifo"
  | .socket => "Socket"
  | .charDevice => "CharDevice"
  | .blockDevice => "BlockDevice"

/-- What an inode is; `D` holds a directory's entries. -/
inductive InodeKind (D : Type) where
  | dir (parent : Nat) (entries : D)
  | file (size : Nat) (extents : BTreeMap Nat ExtentId)
  | symlink (target : String)
  | special (nodeType : NodeType) (rdev : Nat)
deriving DecidableEq

structure Inode (D : Type) where
  ino : Nat
  kind : InodeKind D
  mode : Nat
  uid : Nat
  gid : Nat
  nlink : Nat
  atimeNs : Int
  mtimeNs : Int
  ctimeNs : Int
  /-- Client-chosen id of the create that made this inode. -/
  opId : String
  xattrs : BTreeMap String Bytes
deriving DecidableEq

namespace Inode

variable {D : Type}

def isDir (i : Inode D) : Bool := match i.kind with
  | .dir .. => true
  | _ => false

def nodeType (i : Inode D) : NodeType := match i.kind with
  | .dir .. => .dir
  | .file .. => .file
  | .symlink _ => .symlink
  | .special t _ => t

def new (ino : Nat) (kind : InodeKind D) (mode uid gid : Nat) (nowNs : Int) : Inode D where
  ino := ino
  kind := kind
  mode := mode &&& 0o7777
  uid := uid
  gid := gid
  nlink := match kind with
    | .dir .. => 2
    | _ => 1
  atimeNs := nowNs
  mtimeNs := nowNs
  ctimeNs := nowNs
  opId := ""
  xattrs := ∅

def touch (i : Inode D) (nowNs : Int) : Inode D := { i with mtimeNs := nowNs, ctimeNs := nowNs }

/-- The extents of a file; none for anything else. -/
def fileExtents (i : Inode D) : List ExtentId := match i.kind with
  | .file _ extents => extents.values
  | _ => []

end Inode

structure FsQuota where
  maxBytes : Option Nat
  maxInodes : Option Nat
deriving DecidableEq, Repr

structure FsUsage where
  /-- Sum of file sizes. -/
  fileBytes : Nat := 0
  /-- Sum of the lengths of the extents files reference. -/
  usedBytes : Nat := 0
deriving DecidableEq, Repr

/-- Where a replica filesystem stands. -/
structure ReplicaState where
  /-- The source snapshot the last complete increment brought this filesystem to. -/
  base : Option SnapshotId := none
  /-- This filesystem's own snapshot of that state. -/
  localSnap : Option SnapshotId := none
  /-- The source snapshot of an increment partly applied since. -/
  pending : Option SnapshotId := none
deriving DecidableEq, Repr

structure FsMeta (T : Type) where
  id : FsId
  name : String
  nextIno : Nat
  inodes : T
  sourceSnapshot : Option SnapshotId
  extentBytes : Option Nat
  usage : Option FsUsage
  quota : Option FsQuota
  /-- Set while the filesystem receives another one's changes. -/
  replica : Option ReplicaState
deriving DecidableEq

structure FsSnapshotMeta (T : Type) where
  id : SnapshotId
  fsId : FsId
  name : String
  createdNs : Int
  /-- The filesystem as it was when the snapshot was taken. -/
  tree : FsMeta T
deriving DecidableEq

/-- The catalog maps whose changes are recorded for the next checkpoint. -/
inductive Part where
  | volumes | snapshots | extents | filesystems | fsSnapshots
deriving DecidableEq, Repr

/-- A table of inodes `T` with directory entries `D` and a side state `C`. -/
class Backend (T : Type) (D C : outParam Type) where
  /-- `DirEntries::default`. -/
  noEntries : D
  /-- `DirEntries::len`. -/
  entryCount : D → Nat
  /-- `DirEntries::set`: sets or removes a name that existed before or not. -/
  setName : D → String → Option Nat → Bool → D
  /-- A table of these inodes, all in memory. -/
  ofInodes : List (Inode D) → T
  count : T → Nat
  get : T → Nat → EStateM MetaError C (Option (Inode D))
  /-- The inode to edit in place. -/
  getMut : T → Nat → EStateM MetaError C (Option (Inode D) × T)
  /-- Writes an edited inode back. -/
  put : T → Inode D → T
  insert : T → Inode D → T
  remove : T → Nat → EStateM MetaError C (Option (Inode D) × T)
  /-- The inode a name in a directory of this table names. -/
  entry : T → Inode D → String → EStateM MetaError C (Option Nat)
  /-- Every inode, in inode order. -/
  scan : T → EStateM MetaError C (List (Inode D))
  /-- Up to so many inodes numbered from the given one on, with every directory entry. -/
  pageFull : T → Nat → Nat → EStateM MetaError C (List (Inode D))
  /-- The same inodes in memory, with every directory entry. -/
  detached : T → EStateM MetaError C T
  /-- Records a changed value, and a value inserted or removed. -/
  touch : Part → String → C → C
  replace : Part → String → C → C

/-! ### Everything in memory -/

structure MemEntries where
  map : BTreeMap String Nat := ∅
  len : Nat := 0
deriving DecidableEq

namespace MemEntries

def set (d : MemEntries) (name : String) (ino : Option Nat) (existed : Bool) : MemEntries :=
  match ino with
  | some i => ⟨d.map.insert name i, d.len + (!existed).toNat⟩
  | none => ⟨d.map.erase name, d.len - existed.toNat⟩

end MemEntries

abbrev MemInode := Inode MemEntries

/-- The inodes by number, and how many there are. -/
structure MemTable where
  map : BTreeMap Nat MemInode := ∅
  len : Nat := 0
  counted : len = map.size := by rfl
  keyed : ∀ (k : Nat) i, map[k]? = some i → i.ino = k := by simp

namespace MemTable

theorem ext' {t u : MemTable} (h : t.map = u.map) : t = u := by
  obtain ⟨tm, tl, ht, _⟩ := t
  obtain ⟨um, ul, hu, _⟩ := u
  obtain rfl : tm = um := h
  obtain rfl : tl = ul := ht.trans hu.symm
  rfl

instance : DecidableEq MemTable := fun t u =>
  decidable_of_iff (t.map = u.map) ⟨ext', fun h => h ▸ rfl⟩

/-- Replaces an inode that is there. -/
def put (t : MemTable) (i : MemInode) : MemTable where
  map := t.map.modify i.ino fun _ => i
  len := t.len
  counted := by rw [Std.ExtTreeMap.size_modify, t.counted]
  keyed k j h := by
    rw [Std.ExtTreeMap.getElem?_modify] at h
    split at h
    · rename_i hk
      obtain ⟨_, -, rfl⟩ := Option.map_eq_some_iff.mp h
      exact Std.LawfulEqCmp.eq_of_compare hk
    · exact t.keyed k j h

def insert (t : MemTable) (i : MemInode) : MemTable where
  map := t.map.insert i.ino i
  len := if t.map.contains i.ino then t.len else t.len + 1
  counted := by rw [Std.ExtTreeMap.size_insert, t.counted]
  keyed k j h := by
    rcases Program.getElem?_of_insert h with ⟨rfl, rfl⟩ | h
    · rfl
    · exact t.keyed k j h

def erase (t : MemTable) (ino : Nat) : MemTable where
  map := t.map.erase ino
  len := if t.map.contains ino then t.len - 1 else t.len
  counted := by rw [Std.ExtTreeMap.size_erase, t.counted]
  keyed k j h := by
    exact t.keyed k j (Program.getElem?_of_erase h)

def ofInodes (l : List MemInode) : MemTable := l.foldl insert {}

def remove (t : MemTable) (ino : Nat) : Option MemInode × MemTable :=
  match t.map[ino]? with
  | some i => (some i, t.erase ino)
  | none => (none, t)

def entry (i : MemInode) (name : String) : Option Nat := match i.kind with
  | .dir _ entries => entries.map[name]?
  | _ => none

/-- Up to `limit` inodes numbered `start` or more. -/
def page (t : MemTable) (start limit : Nat) : List MemInode :=
  ((t.map.toList.filter fun kv => start ≤ kv.1).take limit).map Prod.snd

instance : Backend MemTable MemEntries Unit where
  noEntries := {}
  entryCount := MemEntries.len
  setName := MemEntries.set
  ofInodes := ofInodes
  count := len
  get t ino := pure t.map[ino]?
  getMut t ino := pure (t.map[ino]?, t)
  put := put
  insert := insert
  remove t ino := pure (t.remove ino)
  entry _ i name := pure (entry i name)
  scan t := pure t.map.values
  pageFull t start limit := pure (t.page start limit)
  detached t := pure (ofInodes t.map.values)
  touch _ _ c := c
  replace _ _ c := c

end MemTable

end AtlasNative
