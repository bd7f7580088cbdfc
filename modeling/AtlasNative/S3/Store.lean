import AtlasNative.S3.Files

/-!
# Objects as files

An object key `a/b/c` is the file `c` in directory `a/b`, a key that ends in `/` is a directory with a
marker. A put writes a hidden temporary file next to the object and renames it into place. Every
function here is what the gateway asks of the filesystem, one request after another.
-/

namespace AtlasNative.S3

open Program

def reservedPrefix : Text := ".atlas_".toList
def tempPrefix : Text := ".atlas_s3_tmp_".toList
def uploadsDir : Text := ".atlas_s3_uploads".toList
def maxKeyBytes : Nat := 1024
def minPartBytes : Nat := 5 * 2 ^ 20
def maxPartNumber : Int := 10000
/-- Bytes moved per read or write call when copying. -/
def chunk : Nat := 4 * 2 ^ 20

inductive StoreError where
  | noSuchKey
  | noSuchUpload
  | invalidKey (m : String)
  | conflict (m : String)
  | readOnly
  | quota
  | invalidPart (m : String)
  | tooSmall (number : Int)
  | badDigest
  | invalid (m : String)
  | io (e : Errno)
deriving DecidableEq, Repr

def io : Errno → StoreError
  | .dquot => .quota
  | .rofs => .readOnly
  | .nametoolong => .invalidKey "a key segment is longer than 255 bytes"
  | e => .io e

/-! ### Keys -/

/-- A key split into its directories and, unless it is a directory marker, its name. -/
structure KeyPath where
  dirs : List Text
  name : Option Text
deriving DecidableEq, Repr

def badKey (why : String) : Except StoreError KeyPath :=
  .error (.invalidKey s!"the key cannot be stored as a file path: {why}")

/-- Why a segment of a key is refused. -/
def refused (p : Text) : Option String :=
  if p = [] then some "it has an empty segment (`//` or a leading `/`)"
  else if p = ['.'] ∨ p = ['.', '.'] then some "it has a `.` or `..` segment"
  else if maxNameBytes < utf8Bytes p then some "a segment is longer than 255 bytes"
  else if '\x00' ∈ p then some "it contains NUL"
  else if reservedPrefix.isPrefixOf p then some "segments starting with `.atlas_` are reserved"
  else none

def parseKey (key : Text) : Except StoreError KeyPath :=
  if key = [] then badKey "it is empty"
  else if maxKeyBytes < utf8Bytes key then
    .error (.invalidKey s!"keys are limited to {maxKeyBytes} bytes")
  else
    let marker := key.getLast? = some '/'
    let body := if marker then key.dropLast else key
    if body = [] then badKey "it is `/`"
    else
      let segments := body.splitOn '/'
      match segments.findSome? refused with
      | some why => badKey why
      | none =>
        if marker then .ok ⟨segments, none⟩ else .ok ⟨segments.dropLast, segments.getLast?⟩

/-! ### A bucket -/

variable {Req : Type} {Rep : Req → Type} {D : Type}

/-- One exported filesystem. -/
structure Bucket (Rep : Req → Type) (D : Type) where
  ops : (r : Request D) → Client Rep (Reply r)
  md5 : Md5 D
  /-- By configuration, or because it is a snapshot. -/
  readOnly : Bool := false

structure Object (D : Type) where
  ino : Nat
  size : Nat
  mtimeNs : Int
  etag : ETag D
  headers : Headers
deriving DecidableEq

structure Part (D : Type) where
  number : Int
  size : Nat
  mtimeNs : Int
  etag : ETag D
deriving DecidableEq

/-- Bytes being written to a hidden temporary file. -/
structure Writer where
  parent : Nat
  ino : Nat
  tmp : Text
  written : Bytes := []
deriving DecidableEq, Repr

abbrev Store (Rep : Req → Type) (α : Type) := ExceptT StoreError (Client Rep) α

/-- ETag of a file without a valid recorded one. -/
def derivedText (a : Attr) : Bytes := s!"{a.ino}:{a.size}:{a.mtimeNs}".toUTF8.data.toList

/-- A number as text, filled up with zeroes. -/
def pad (width n : Nat) : Text :=
  List.replicate (width - (Nat.toDigits 10 n).length) '0' ++ Nat.toDigits 10 n

/-- The hidden name and the upload id that a call makes up; no two calls make up the same. -/
def uuid (seed : Nat) : Text := pad 32 seed

/-- The hidden name of a call's temporary file. -/
def tempName (seed : Nat) : Text := tempPrefix ++ uuid seed

/-- `format!("{number:05}")`. -/
def partName (number : Int) : Text :=
  match number with
  | .ofNat n => pad 5 n
  | .negSucc n => '-' :: pad 4 (n + 1)

/-- `str::parse::<i32>` of a short text. -/
def parseNumber (t : Text) : Option Int :=
  let digits (t : Text) : Option Nat :=
    if t ≠ [] ∧ t.all Char.isDigit then some (Nat.ofDigitChars 10 t 0) else none
  match t with
  | '-' :: t => (digits t).map fun n => -(n : Int)
  | '+' :: t => (digits t).map Int.ofNat
  | t => (digits t).map Int.ofNat

namespace Bucket

variable (b : Bucket Rep D)

def writable : Store Rep Unit := if b.readOnly then throw .readOnly else pure ()

/-- A request whose failure is the call's. -/
def call (r : Request D) : Store Rep r.Value := ExceptT.mk do
  match ← b.ops r with
  | .ok v => pure (.ok v)
  | .error e => pure (.error (io e))

def lookup (parent : Nat) (name : Text) : Store Rep (Option Attr) := ExceptT.mk do
  match ← b.ops (.lookup parent name) with
  | .ok a => pure (.ok (some a))
  | .error .noent => pure (.ok none)
  | .error e => pure (.error (io e))

/-- The directory at `dirs` below `ino`, if every segment exists and is a directory. -/
def findFrom (ino : Nat) : List Text → Store Rep (Option Nat)
  | [] => pure (some ino)
  | d :: dirs => do
    match ← b.lookup ino d with
    | some a => if a.kind = .dir then findFrom a.ino dirs else pure none
    | none => pure none

def findDir (dirs : List Text) : Store Rep (Option Nat) := b.findFrom rootIno dirs

/-- A directory that is there, or is made. -/
def makeDir (ino : Nat) (d : Text) : Store Rep Attr := do
  match ← b.lookup ino d with
  | some a => pure a
  | none =>
    ExceptT.mk do
      match ← b.ops (.mknode ino d .dir) with
      | .ok a => pure (.ok a)
      | .error .exist => (do
          match ← b.lookup ino d with
          | some a => pure a
          | none => throw (.io .noent) : Store Rep Attr).run
      | .error e => pure (.error (io e))

/-- The directory at `dirs` below `ino`, creating missing segments; `above` leads to `ino`. -/
def makeFrom (above : List Text) (ino : Nat) : List Text → Store Rep Nat
  | [] => pure ino
  | d :: dirs => do
    let a ← b.makeDir ino d
    if a.kind = .dir then makeFrom (above ++ [d]) a.ino dirs
    else
      let path := String.ofList (List.intercalate ['/'] (above ++ [d]))
      throw (.conflict s!"`{path}` is an object, so no key can continue it with `/`")

def makeDirs (dirs : List Text) : Store Rep Nat := b.makeFrom [] rootIno dirs

def recorded (ino : Nat) : Store Rep (Option (ObjectMeta D)) := ExceptT.mk do
  match ← b.ops (.getRecorded ino) with
  | .ok m => pure (.ok m)
  | .error .noent => pure (.error .noSuchKey)
  | .error e => pure (.error (io e))

def isMarker (dir : Nat) : Store Rep Bool := do
  let m ← b.recorded dir
  pure m.isSome

def emptyETag : ETag D := .plain (b.md5.ofBytes [])

def derivedETag (a : Attr) : ETag D := .plain (b.md5.ofBytes (derivedText a))

/-- The object that a file with attributes `a` is, given its recorded attribute. -/
def described (a : Attr) (m : Option (ObjectMeta D)) : Object D :=
  let isDir := a.kind = NodeType.dir
  let tagged : ETag D × Headers := match m with
    | some m =>
      if isDir then (b.emptyETag, m.headers)
      else if m.size = a.size ∧ m.mtimeNs = a.mtimeNs then (m.etag, m.headers)
      else (b.derivedETag a, m.headers)
    | none => (b.derivedETag a, {})
  ⟨a.ino, if isDir then 0 else a.size, a.mtimeNs, tagged.1, tagged.2⟩

def object (a : Attr) : Store Rep (Object D) := do
  let m ← b.recorded a.ino
  pure (b.described a m)

/-- The object at `key`: a regular file, or a directory carrying a marker. -/
def head (key : Text) : Store Rep (Object D) :=
  match parseKey key with
  | .error (.invalidKey _) => throw .noSuchKey
  | .error e => throw e
  | .ok p => do
    match ← b.findDir p.dirs with
    | none => throw .noSuchKey
    | some dir =>
      match p.name with
      | some name =>
        match ← b.lookup dir name with
        | some a => if a.kind = .file then b.object a else throw .noSuchKey
        | none => throw .noSuchKey
      | none =>
        if ← b.isMarker dir then
          let a ← b.call (.getattr dir)
          b.object a
        else throw .noSuchKey

def read (ino offset len : Nat) : Store Rep Bytes := ExceptT.mk do
  match ← b.ops (.read ino offset len) with
  | .ok v => pure (.ok v)
  | .error .isdir => pure (.ok [])
  | .error e => pure (.error (io e))

/-! ### Puts -/

/-- Where an object at `key` goes. A marker key makes its directories and marks the last one. -/
def preparePut (key : Text) (headers : Headers) : Store Rep (Option (Nat × Text)) := do
  b.writable
  match parseKey key with
  | .error e => throw e
  | .ok p =>
    let dir ← b.makeDirs p.dirs
    match p.name with
    | some name =>
      match ← b.lookup dir name with
      | some a =>
        if a.kind = .dir then
          let key := String.ofList key
          throw (.conflict
            s!"`{key}` is a prefix of other keys (a directory), so it cannot be an object")
        else pure (some (dir, name))
      | none => pure (some (dir, name))
    | none =>
      let a ← b.call (.getattr dir)
      b.call (.setRecorded dir ⟨b.emptyETag, 0, a.mtimeNs, headers⟩)
      pure none

/-- A hidden temporary file in `parent` to write an object or part into. -/
def writer (seed parent : Nat) : Store Rep Writer := do
  b.writable
  let a ← b.call (.mknode parent (tempName seed) .file)
  pure ⟨parent, a.ino, tempName seed, []⟩

def write (w : Writer) (data : Bytes) : Store Rep Writer :=
  if data = [] then pure w
  else do
    b.call (.write w.ino w.written.length data)
    pure { w with written := w.written ++ data }

/-- Removes a temporary file that will not be committed. -/
def discard (w : Writer) : Client Rep Unit := do
  let _ ← b.ops (.flush w.ino)
  let _ ← b.ops (.unlink w.parent w.tmp)
  pure ()

def isDirectory (name : Text) : StoreError :=
  let name := String.ofList name
  .conflict s!"`{name}` is a directory (a prefix of other keys), so it cannot be an object"

/-- The written file takes its name, and is then the object `o`. -/
def moveInto (w : Writer) (name : Text) (o : Object D) : Store Rep (Object D) := ExceptT.mk do
  match ← b.ops (.rename w.parent w.tmp name) with
  | .ok () => pure (.ok o)
  | .error .isdir | .error .notempty | .error .exist => pure (.error (isDirectory name))
  | .error e => pure (.error (io e))

/-- `commit` up to the point where a failure removes the temporary file. -/
def place (w : Writer) (name : Text) (expectedMd5 : Option D) [DecidableEq D]
    (etag : Option (ETag D)) (headers : Headers) : Store Rep (Object D) := do
  b.call (.flush w.ino)
  let digest := b.md5.ofBytes w.written
  if expectedMd5.any (· ≠ digest) then throw .badDigest
  let etag := etag.getD (.plain digest)
  let a ← b.call (.getattr w.ino)
  b.call (.setRecorded w.ino ⟨etag, a.size, a.mtimeNs, headers⟩)
  match ← b.lookup w.parent name with
  | some t => if t.kind = .dir then throw (isDirectory name)
  | none => pure ()
  b.moveInto w name ⟨w.ino, a.size, a.mtimeNs, etag, headers⟩

/-- Makes the written bytes the object `name` in their directory, replacing any object there. -/
def commit (w : Writer) (name : Text) (expectedMd5 : Option D) [DecidableEq D]
    (etag : Option (ETag D)) (headers : Headers) : Store Rep (Object D) := ExceptT.mk do
  match ← (b.place w name expectedMd5 etag headers).run with
  | .ok o => pure (.ok o)
  | .error e =>
    let _ ← b.ops (.unlink w.parent w.tmp)
    pure (.error e)

/-- Replaces the stored headers of an existing object (a copy onto itself). -/
def setHeaders (key : Text) (headers : Headers) : Store Rep (Object D) := do
  b.writable
  let o ← b.head key
  let a ← b.call (.getattr o.ino)
  b.call (.setRecorded o.ino ⟨o.etag, if a.kind = .dir then 0 else a.size, a.mtimeNs, headers⟩)
  pure { o with headers := headers }

/-- Appends `len - sofar` bytes of `src`'s file `ino` to `w`. -/
def copyLoop (src : Bucket Rep D) (ino offset len : Nat) : Nat → Nat → Writer → Store Rep Writer
  | 0, _, w => pure w
  | fuel + 1, sofar, w =>
    if sofar < len then do
      let data ← src.read ino (offset + sofar) (min (len - sofar) chunk)
      if data = [] then throw (.invalid "the source object changed while it was copied")
      else
        let w ← b.write w data
        copyLoop src ino offset len fuel (sofar + data.length) w
    else pure w

/-- Every round copies a byte at least, so that there are `len` rounds at most. -/
def copyFrom (src : Bucket Rep D) (ino offset len : Nat) (w : Writer) : Store Rep Writer :=
  b.copyLoop src ino offset len len 0 w

/-- What fails removes the temporary file. -/
def orDiscard (w : Writer) (x : Store Rep Writer) : Store Rep Writer := ExceptT.mk do
  match ← x.run with
  | .ok w => pure (.ok w)
  | .error e =>
    b.discard w
    pure (.error e)

/-! ### Deletion -/

/-- The inodes of the directories at `dirs`, from the root on. -/
def chainFrom (ino : Nat) : List Text → Store Rep (Option (List Nat))
  | [] => pure (some [ino])
  | d :: dirs => do
    match ← b.lookup ino d with
    | some a =>
      if a.kind = .dir then
        let chain ← chainFrom a.ino dirs
        pure (chain.map (ino :: ·))
      else pure none
    | none => pure none

/-- Removes directories that are left empty, the last first: `(parent, name, directory)`. -/
def prune : List (Nat × Text × Nat) → Store Rep Unit
  | [] => pure ()
  | (parent, name, dir) :: above => ExceptT.mk do
    match ← (b.isMarker dir).run with
    | .ok false =>
      match ← b.ops (.rmdir parent name) with
      | .ok () => (prune above).run
      | .error _ => pure (.ok ())
    | _ => pure (.ok ())

/-- Deletes the object at `key` (nothing if there is none) and the directories it leaves empty, up
to the first one that is a marker or still holds something. -/
def delete (key : Text) : Store Rep Unit := do
  b.writable
  match parseKey key with
  | .error (.invalidKey _) => pure ()
  | .error e => throw e
  | .ok p =>
    match ← b.chainFrom rootIno p.dirs with
    | none => pure ()
    | some chain =>
      let dir := chain.getLastD rootIno
      let prune := b.prune ((chain.zip (p.dirs.zip chain.tail)).reverse)
      match p.name with
      | some name =>
        match ← b.lookup dir name with
        | some a =>
          if a.kind = .dir then pure ()
          else
            ExceptT.mk do
              match ← b.ops (.unlink dir name) with
              | .ok () | .error .noent => prune.run
              | .error e => pure (.error (io e))
        | none => pure ()
      | none =>
        ExceptT.mk do
          match ← b.ops (.removeRecorded dir) with
          | .ok () | .error .nodata | .error .noent => prune.run
          | .error e => pure (.error (io e))

/-! ### Multipart uploads -/

def isHex (c : Char) : Bool := c.isDigit || ('a' ≤ c && c ≤ 'f') || ('A' ≤ c && c ≤ 'F')

def uploadDir (id key : Text) : Store Rep (Nat × UploadMeta) := do
  if utf8Bytes id ≠ 32 ∨ !id.all isHex then throw .noSuchUpload
  match ← b.findDir [uploadsDir, id] with
  | none => throw .noSuchUpload
  | some dir => ExceptT.mk do
    match ← b.ops (.getUpload dir) with
    | .ok (some m) => pure (if m.key = key then .ok (dir, m) else .error .noSuchUpload)
    | .ok none | .error .noent => pure (.error .noSuchUpload)
    | .error e => pure (.error (io e))

def createUpload (seed : Nat) (key : Text) (headers : Headers) : Store Rep Text := do
  b.writable
  match parseKey key with
  | .error e => throw e
  | .ok p =>
    if p.name.isNone then throw (.invalidKey "a directory marker cannot be uploaded in parts")
    let uploads ← b.makeDirs [uploadsDir]
    let id := uuid seed
    let a ← b.call (.mknode uploads id .dir)
    b.call (.setUpload a.ino ⟨key, a.ctimeNs, headers⟩)
    pure id

/-- A writer for part `number` of upload `id`. -/
def partWriter (seed : Nat) (id key : Text) (number : Int) : Store Rep Writer := do
  b.writable
  if number < 1 ∨ maxPartNumber < number then
    throw (.invalid s!"part numbers run from 1 to {maxPartNumber}")
  let (dir, _) ← b.uploadDir id key
  b.writer seed dir

def commitPart (w : Writer) (number : Int) (expectedMd5 : Option D) [DecidableEq D] :
    Store Rep (ETag D) := do
  let o ← b.commit w (partName number) expectedMd5 none {}
  pure o.etag

/-- The part that an entry of an upload's directory is, if it is one. -/
def partOf (e : DirEntry) : Store Rep (Option (Part D)) :=
  match parseNumber e.name with
  | none => pure none
  | some number =>
    if e.kind ≠ .file ∨ utf8Bytes e.name ≠ 5 then pure none
    else ExceptT.mk do
      match ← b.ops (.getattr e.ino) with
      | .ok a => (do
          let o ← b.object a
          pure (some ⟨number, o.size, o.mtimeNs, o.etag⟩) : Store Rep (Option (Part D))).run
      | .error .noent => pure (.ok none)
      | .error e => pure (.error (io e))

def partsOf : List DirEntry → Store Rep (List (Part D))
  | [] => pure []
  | e :: entries => do
    let part ← b.partOf e
    let rest ← partsOf entries
    pure (part.toList ++ rest)

def listParts (id key : Text) : Store Rep (List (Part D)) := do
  let (dir, _) ← b.uploadDir id key
  let entries ← b.call (.readdir dir)
  let parts ← b.partsOf entries
  pure (parts.insertionSort fun p q => p.number ≤ q.number)

def notUploaded (number : Int) : StoreError := .invalidPart s!"part {number} was not uploaded"

/-- What to copy, and the digests, for the parts that a completion lists. -/
def sources (dir : Nat) (stored : List (Part D)) [DecidableEq D] :
    List (Int × ETag D) → Store Rep (List (D × Nat × Nat))
  | [] => pure []
  | (number, etag) :: parts => do
    -- the last of a number stays in the map
    match stored.reverse.find? (·.number = number) with
    | none => throw (notUploaded number)
    | some part =>
      if part.etag ≠ etag then throw (.invalidPart s!"part {number}'s ETag does not match")
      if !parts.isEmpty ∧ part.size < minPartBytes then throw (.tooSmall number)
      let digest := match part.etag with
        | .plain d => d
        | _ => b.md5.zero
      match ← b.lookup dir (partName number) with
      | none => throw (notUploaded number)
      | some a =>
        let rest ← sources dir stored parts
        pure ((digest, a.ino, part.size) :: rest)

def copyAll (w : Writer) : List (D × Nat × Nat) → Store Rep Writer
  | [] => pure w
  | (_, ino, size) :: rest => do
    let w ← b.orDiscard w (b.copyFrom b ino 0 size w)
    copyAll w rest

def unlinkAll (dir : Nat) : List DirEntry → Client Rep Unit
  | [] => pure ()
  | e :: entries => do
    let _ ← b.ops (.unlink dir e.name)
    unlinkAll dir entries

def removeUpload (dir : Nat) (id : Text) : Client Rep Unit := do
  match ← b.ops (.readdir dir) with
  | .ok entries => b.unlinkAll dir entries
  | .error _ => pure ()
  match ← (b.findDir [uploadsDir]).run with
  | .ok (some uploads) =>
    let _ ← b.ops (.rmdir uploads id)
    pure ()
  | _ => pure ()

def ascending : List (Int × ETag D) → Bool
  | p :: q :: rest => p.1 < q.1 && ascending (q :: rest)
  | _ => true

/-- Assembles the parts (in ascending order, each but the last at least 5 MiB, ETags matching) into
the object, then removes the upload. -/
def completeUpload (seed : Nat) (id key : Text) (parts : List (Int × ETag D)) [DecidableEq D] :
    Store Rep (Object D) := do
  b.writable
  let (dir, upload) ← b.uploadDir id key
  if parts.isEmpty then throw (.invalidPart "at least one part is required")
  if !ascending parts then throw (.invalidPart "parts must be listed in ascending order")
  let stored ← b.listParts id key
  let sources ← b.sources dir stored parts
  let etag := ETag.parts (b.md5.ofDigests (sources.map Prod.fst)) parts.length
  match ← b.preparePut key upload.headers with
  | none => throw (.invalidKey "not an object key")
  | some (parent, name) =>
    let w ← b.writer seed parent
    let w ← b.copyAll w sources
    let o ← b.commit w name none (some etag) upload.headers
    b.removeUpload dir id
    pure o

def abortUpload (id key : Text) : Store Rep Unit := do
  b.writable
  let (dir, _) ← b.uploadDir id key
  b.removeUpload dir id

end Bucket

end AtlasNative.S3
