import AtlasNative.Catalog.Inode
import AtlasNative.Program.Client

/-!
# The files of a bucket

A bucket is one filesystem, which the gateway (and other protocols) reach by requests that are each
atomic. An inode number is not given out twice; what is unlinked stays in the table as not `live`, and
requests answer that it does not exist. The extended attributes that the gateway keeps are typed.
-/

namespace AtlasNative.S3

abbrev Text := List Char

def utf8Bytes (t : Text) : Nat := (t.map Char.utf8Size).sum

def rootIno : Nat := 1
def maxNameBytes : Nat := 255

inductive Errno where
  | noent | exist | notdir | isdir | inval | notempty | nodata | nametoolong | rofs | dquot | io
deriving DecidableEq, Repr

/-- MD5, of bytes and of digests written one after another. -/
structure Md5 (D : Type) where
  ofBytes : Bytes → D
  ofDigests : List D → D
  /-- Sixteen zero bytes. -/
  zero : D

inductive ETag (D : Type) where
  /-- The hex of a digest. -/
  | plain (d : D)
  /-- Of a multipart object: `<hex>-<parts>`. -/
  | parts (d : D) (n : Nat)
  /-- Anything else that a client may send. -/
  | other (t : Text)
deriving DecidableEq

/-- Standard headers and user metadata stored with an object. -/
structure Headers where
  contentType : Option String := none
  contentEncoding : Option String := none
  contentDisposition : Option String := none
  contentLanguage : Option String := none
  cacheControl : Option String := none
  metadata : BTreeMap String String := ∅
deriving DecidableEq

/-- The extended attribute on an object's file. -/
structure ObjectMeta (D : Type) where
  etag : ETag D
  size : Nat
  mtimeNs : Int
  headers : Headers
deriving DecidableEq

/-- The extended attribute on a multipart upload's directory. -/
structure UploadMeta where
  key : Text
  initiatedNs : Int
  headers : Headers
deriving DecidableEq

structure Attr where
  ino : Nat
  kind : NodeType
  size : Nat
  mtimeNs : Int
  ctimeNs : Int
deriving DecidableEq

structure DirEntry where
  name : Text
  ino : Nat
  kind : NodeType
deriving DecidableEq

structure Node (D W : Type) where
  kind : NodeType
  /-- Who made it; none for the root. -/
  maker : Option W := none
  /-- Where it was made. Directories stay there. -/
  path : List Text := []
  live : Bool := true
  /-- Has it been given its final name? -/
  moved : Bool := false
  data : Bytes := []
  entries : AList (fun _ : Text => Nat) := ∅
  mtimeNs : Int
  ctimeNs : Int
  recorded : Option (ObjectMeta D) := none
  upload : Option UploadMeta := none
  created : Option Int := none
  /-- The contents that it had before, with their mtimes. -/
  was : List (Int × Bytes) := []

/-- Every content that a file has had, with its mtime. -/
def Node.history {D W : Type} (n : Node D W) : List (Int × Bytes) := (n.mtimeNs, n.data) :: n.was

/-- A file with another content. -/
def Node.rewritten {D W : Type} (n : Node D W) (data : Bytes) (nowNs : Int) : Node D W :=
  { n with data := data, mtimeNs := nowNs, ctimeNs := nowNs, was := n.history }

def Node.attr {D W : Type} (n : Node D W) (ino : Nat) : Attr :=
  ⟨ino, n.kind, if n.kind = .dir then n.entries.entries.length else n.data.length, n.mtimeNs, n.ctimeNs⟩

structure Files (D W : Type) where
  nodes : Nat → Option (Node D W)
  next : Nat

/-- `data` after `new` is written at `offset`. -/
def overwrite (data : Bytes) (offset : Nat) (new : Bytes) : Bytes :=
  data.take offset ++ List.replicate (offset - data.length) 0 ++ new ++ data.drop (offset + new.length)

/-- `data` cut or filled up with zeroes. -/
def resize (data : Bytes) (size : Nat) : Bytes :=
  data.take size ++ List.replicate (size - data.length) 0

namespace Files

variable {D W : Type}

/-- A filesystem with nothing in it. -/
def empty (nowNs : Int) : Files D W where
  nodes ino := if ino = rootIno then some { kind := .dir, mtimeNs := nowNs, ctimeNs := nowNs } else none
  next := rootIno + 1

def set (f : Files D W) (ino : Nat) (n : Node D W) : Files D W :=
  { f with nodes := Function.update f.nodes ino (some n) }

def inode (f : Files D W) (ino : Nat) : Except Errno (Node D W) :=
  match f.nodes ino with
  | some n => if n.live then .ok n else .error .noent
  | none => .error .noent

def dir (f : Files D W) (ino : Nat) : Except Errno (Node D W) := do
  let n ← f.inode ino
  if n.kind = .dir then .ok n else .error .notdir

/-- The inode that `name` names in a directory. -/
def entry (f : Files D W) (parent : Nat) (name : Text) : Except Errno Nat := do
  let d ← f.dir parent
  match d.entries.lookup name with
  | some ino => .ok ino
  | none => .error .noent

def checkName (name : Text) : Except Errno Unit :=
  if maxNameBytes < utf8Bytes name then .error .nametoolong else .ok ()

def lookup (f : Files D W) (parent : Nat) (name : Text) : Except Errno Attr := do
  checkName name
  let ino ← f.entry parent name
  let n ← f.inode ino
  .ok (n.attr ino)

def getattr (f : Files D W) (ino : Nat) : Except Errno Attr := do
  let n ← f.inode ino
  .ok (n.attr ino)

def hiddenPrefix : Text := ".atlas_hidden_".toList

/-- Every visible entry of a directory. -/
def readdir (f : Files D W) (ino : Nat) : Except Errno (List DirEntry) := do
  let d ← f.dir ino
  let all := d.entries.entries.filterMap fun e =>
    (f.nodes e.2).map fun n => (⟨e.1, e.2, n.kind⟩ : DirEntry)
  .ok (all.filter fun e => !hiddenPrefix.isPrefixOf e.name)

def mknode (f : Files D W) (who : W) (nowNs : Int) (parent : Nat) (name : Text) (kind : NodeType) :
    Except Errno (Attr × Files D W) := do
  checkName name
  let d ← f.dir parent
  if (d.entries.lookup name).isSome then .error .exist
  else
    let n : Node D W :=
      { kind := kind, maker := some who, path := d.path ++ [name], mtimeNs := nowNs, ctimeNs := nowNs }
    let d := { d with entries := d.entries.insert name f.next, mtimeNs := nowNs, ctimeNs := nowNs }
    .ok (n.attr f.next, { (f.set parent d).set f.next n with next := f.next + 1 })

def setRecorded (f : Files D W) (nowNs : Int) (ino : Nat) (m : ObjectMeta D) :
    Except Errno (Unit × Files D W) := do
  let n ← f.inode ino
  .ok ((), f.set ino { n with recorded := some m, ctimeNs := nowNs })

def removeRecorded (f : Files D W) (nowNs : Int) (ino : Nat) : Except Errno (Unit × Files D W) := do
  let n ← f.inode ino
  if n.recorded.isNone then .error .nodata
  else .ok ((), f.set ino { n with recorded := none, ctimeNs := nowNs })

def setUpload (f : Files D W) (nowNs : Int) (ino : Nat) (u : UploadMeta) :
    Except Errno (Unit × Files D W) := do
  let n ← f.inode ino
  .ok ((), f.set ino { n with upload := some u, ctimeNs := nowNs })

def file (f : Files D W) (ino : Nat) : Except Errno (Node D W) := do
  let n ← f.inode ino
  if n.kind = .dir then .error .isdir else .ok n

/-- The cluster calls a read of a directory invalid. -/
def read (f : Files D W) (ino offset len : Nat) : Except Errno Bytes := do
  let n ← f.inode ino
  if n.kind = .dir then .error .inval else .ok ((n.data.drop offset).take len)

def change (f : Files D W) (nowNs : Int) (ino : Nat) (edit : Bytes → Bytes) :
    Except Errno (Unit × Files D W) := do
  let n ← f.file ino
  .ok ((), f.set ino (n.rewritten (edit n.data) nowNs))

def touch (n : Node D W) (nowNs : Int) (entries : AList fun _ : Text => Nat) : Node D W :=
  { n with entries := entries, mtimeNs := nowNs, ctimeNs := nowNs }

/-- Gives the file `name` another name in the same directory, in place of what has that name. The
gateway moves nothing else. -/
def rename (f : Files D W) (nowNs : Int) (parent : Nat) (name newName : Text) :
    Except Errno (Unit × Files D W) := do
  checkName newName
  let src ← f.entry parent name
  let d ← f.dir parent
  let n ← f.file src
  let moved := (f.set parent (touch d nowNs ((d.entries.erase name).insert newName src))).set src
    { n with moved := true, ctimeNs := nowNs }
  match d.entries.lookup newName with
  | none => .ok ((), moved)
  | some dst =>
    if dst = src then .ok ((), f)
    else
      let gone ← f.file dst
      .ok ((), moved.set dst { gone with live := false })

def unlink (f : Files D W) (nowNs : Int) (parent : Nat) (name : Text) :
    Except Errno (Unit × Files D W) := do
  let ino ← f.entry parent name
  let d ← f.dir parent
  let n ← f.file ino
  .ok ((), (f.set parent (touch d nowNs (d.entries.erase name))).set ino { n with live := false })

def rmdir (f : Files D W) (nowNs : Int) (parent : Nat) (name : Text) :
    Except Errno (Unit × Files D W) := do
  let ino ← f.entry parent name
  let d ← f.dir parent
  let n ← f.dir ino
  if n.entries.entries.isEmpty then
    .ok ((), (f.set parent (touch d nowNs (d.entries.erase name))).set ino { n with live := false })
  else .error .notempty

end Files

/-! ### Requests -/

inductive Request (D : Type) where
  | lookup (parent : Nat) (name : Text)
  | getattr (ino : Nat)
  | readdir (ino : Nat)
  | mknode (parent : Nat) (name : Text) (kind : NodeType)
  | getRecorded (ino : Nat)
  | setRecorded (ino : Nat) (m : ObjectMeta D)
  | removeRecorded (ino : Nat)
  | getUpload (ino : Nat)
  | setUpload (ino : Nat) (u : UploadMeta)
  | getCreated (ino : Nat)
  | read (ino offset len : Nat)
  | write (ino offset : Nat) (data : Bytes)
  | truncate (ino size : Nat)
  | flush (ino : Nat)
  | rename (parent : Nat) (name newName : Text)
  | unlink (parent : Nat) (name : Text)
  | rmdir (parent : Nat) (name : Text)

/-- What a request returns. -/
def Request.Value {D : Type} : Request D → Type
  | lookup .. | getattr _ | mknode .. => Attr
  | readdir _ => List DirEntry
  | getRecorded _ => Option (ObjectMeta D)
  | getUpload _ => Option UploadMeta
  | getCreated _ => Option Int
  | read .. => Bytes
  | _ => Unit

abbrev Reply {D : Type} (r : Request D) : Type := Except Errno r.Value

/-- How a request may fail on its own, changing nothing. -/
inductive Fault where
  | rofs | dquot | io
deriving DecidableEq, Repr

def Fault.errno : Fault → Errno
  | rofs => .rofs
  | dquot => .dquot
  | io => .io

/-- What the cluster adds to a request. -/
structure Env where
  nowNs : Int
  fault : Option Fault := none
deriving DecidableEq, Repr

/-- A request that changes the files, if it does not fail. -/
def changed {D W α : Type} (f : Files D W) : Except Errno (α × Files D W) → Except Errno α × Files D W
  | .ok (a, f') => (.ok a, f')
  | .error e => (.error e, f)

namespace Files

variable {D W : Type}

def perform (f : Files D W) (who : W) (nowNs : Int) : (r : Request D) → Reply r × Files D W
  | .lookup parent name => (f.lookup parent name, f)
  | .getattr ino => (f.getattr ino, f)
  | .readdir ino => (f.readdir ino, f)
  | .mknode parent name kind => changed f (f.mknode who nowNs parent name kind)
  | .getRecorded ino => ((f.inode ino).map Node.recorded, f)
  | .setRecorded ino m => changed f (f.setRecorded nowNs ino m)
  | .removeRecorded ino => changed f (f.removeRecorded nowNs ino)
  | .getUpload ino => ((f.inode ino).map Node.upload, f)
  | .setUpload ino u => changed f (f.setUpload nowNs ino u)
  | .getCreated ino => ((f.inode ino).map Node.created, f)
  | .read ino offset len => (f.read ino offset len, f)
  | .write ino offset data => changed f (f.change nowNs ino (overwrite · offset data))
  | .truncate ino size => changed f (f.change nowNs ino (resize · size))
  | .flush _ => (.ok (), f)
  | .rename parent name newName => changed f (f.rename nowNs parent name newName)
  | .unlink parent name => changed f (f.unlink nowNs parent name)
  | .rmdir parent name => changed f (f.rmdir nowNs parent name)

end Files

/-! ### The files and what was asked of them -/

structure Asked (D W : Type) where
  who : W
  request : Request D
  reply : Reply request
  /-- The files that it was asked of. -/
  files : Files D W

structure World (D W : Type) where
  files : Files D W
  log : List (Asked D W) := []

def answer {D W : Type} (who : W) (x : Env) (r : Request D) (w : World D W) : Reply r × World D W :=
  let done : Reply r × Files D W := match x.fault with
    | some e => (.error e.errno, w.files)
    | none => w.files.perform who x.nowNs r
  (done.1, { files := done.2, log := w.log ++ [⟨who, r, done.1, w.files⟩] })

end AtlasNative.S3
