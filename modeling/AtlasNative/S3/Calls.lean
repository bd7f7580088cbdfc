import AtlasNative.S3.Store

/-!
# Calls on a bucket

What the gateway does for a request of a client, once it has checked access, and what other protocols
do to the file of a key. Any number of calls are under way at once.
-/

namespace AtlasNative.S3

open Program

/-- A request body as it is received. -/
structure Body (D : Type) where
  chunks : List Bytes
  /-- It ended as announced, with the checksums that came with it. -/
  sound : Bool := true
  /-- `Content-MD5`. -/
  md5 : Option D := none
deriving DecidableEq

inductive Call (D : Type) where
  | put (key : Text) (ifNoneMatch : Bool) (headers : Headers) (body : Body D)
  | delete (key : Text)
  /-- `headers` replace those of the source. -/
  | copy (src dst : Text) (headers : Option Headers)
  | setHeaders (key : Text) (headers : Headers)
  | head (key : Text)
  | createUpload (key : Text) (headers : Headers)
  | uploadPart (id key : Text) (number : Int) (body : Body D)
  | completeUpload (id key : Text) (parts : List (Int × ETag D))
  | abortUpload (id key : Text)
  /-- Through another protocol. -/
  | write (key : Text) (offset : Nat) (data : Bytes)
  | truncate (key : Text) (size : Nat)
deriving DecidableEq

inductive Failure where
  | store (e : StoreError)
  | preconditionFailed
  | incompleteBody
deriving DecidableEq, Repr

/-- What a call returns. -/
inductive Answer (D : Type) where
  | nothing
  | etag (e : ETag D)
  | object (o : Object D)
  | upload (id : Text)
deriving DecidableEq

abbrev Out (D : Type) := Except Failure (Answer D)

variable {Req : Type} {Rep : Req → Type} {D : Type}

/-- A store call, with its result and its failure as the caller sees them. -/
def finish {α : Type} (f : α → Answer D) (x : Store Rep α) : Client Rep (Out D) := do
  match ← x.run with
  | .ok a => pure (.ok (f a))
  | .error e => pure (.error (.store e))

namespace Bucket

variable (b : Bucket Rep D)

/-- Writes a body piece by piece; a failure removes the file. -/
def writeChunks (w : Writer) : List Bytes → Store Rep Writer
  | [] => pure w
  | data :: chunks => do
    let w ← b.orDiscard w (b.write w data)
    writeChunks w chunks

/-- The body of a put or a part, up to its commit. -/
def receive (w : Writer) (body : Body D) (commit : Writer → Store Rep (ETag D)) :
    Client Rep (Out D) := do
  match ← (b.writeChunks w body.chunks).run with
  | .error e => pure (.error (.store e))
  | .ok w =>
    if body.sound then finish .etag (commit w)
    else
      b.discard w
      pure (.error .incompleteBody)

def putBody [DecidableEq D] (seed : Nat) (key : Text) (headers : Headers) (body : Body D) :
    Client Rep (Out D) := do
  if key.getLast? = some '/' ∧ !body.chunks.flatten.isEmpty then
    pure (.error (.store (.invalid "a key ending in `/` cannot have a body")))
  else
    match ← (b.preparePut key headers).run with
    | .error e => pure (.error (.store e))
    | .ok none => pure (.ok (.etag b.emptyETag))
    | .ok (some (parent, name)) =>
      match ← (b.writer seed parent).run with
      | .error e => pure (.error (.store e))
      | .ok w => b.receive w body fun w => do
          let o ← b.commit w name body.md5 none headers
          pure o.etag

def putObject [DecidableEq D] (seed : Nat) (key : Text) (ifNoneMatch : Bool) (headers : Headers)
    (body : Body D) : Client Rep (Out D) :=
  if ifNoneMatch then do
    match ← (b.head key).run with
    | .ok _ => pure (.error .preconditionFailed)
    | .error .noSuchKey => b.putBody seed key headers body
    | .error e => pure (.error (.store e))
  else b.putBody seed key headers body

def copyObject [DecidableEq D] (seed : Nat) (src dst : Text) (headers : Option Headers) :
    Store Rep (Object D) := do
  let s ← b.head src
  let h := headers.getD s.headers
  match ← b.preparePut dst h with
  | none => b.head dst
  | some (parent, name) =>
    let w ← b.writer seed parent
    let w ← b.orDiscard w (b.copyFrom b s.ino 0 s.size w)
    b.commit w name none none h

def uploadPart [DecidableEq D] (seed : Nat) (id key : Text) (number : Int) (body : Body D) :
    Client Rep (Out D) := do
  match ← (b.partWriter seed id key number).run with
  | .error e => pure (.error (.store e))
  | .ok w => b.receive w body fun w => b.commitPart w number body.md5

/-- A change of the file of `key` through another protocol. -/
def editFile (key : Text) (edit : Nat → Request D) : Store Rep Unit :=
  match parseKey key with
  | .error e => throw e
  | .ok p => do
    match p.name with
    | none => throw (.io .isdir)
    | some name =>
      match ← b.findDir p.dirs with
      | none => throw (.io .noent)
      | some dir =>
        match ← b.lookup dir name with
        | none => throw (.io .noent)
        | some a => ExceptT.mk do
          let _ ← b.ops (edit a.ino)
          pure (.ok ())

/-- A call, as a client of the filesystem; `seed` makes up its unique ids. -/
def program [DecidableEq D] (seed : Nat) : Call D → Client Rep (Out D)
  | .put key ifNoneMatch headers body => b.putObject seed key ifNoneMatch headers body
  | .delete key => finish (fun _ => .nothing) (b.delete key)
  | .copy src dst headers => finish .object (b.copyObject seed src dst headers)
  | .setHeaders key headers => finish .object (b.setHeaders key headers)
  | .head key => finish .object (b.head key)
  | .createUpload key headers => finish .upload (b.createUpload seed key headers)
  | .uploadPart id key number body => b.uploadPart seed id key number body
  | .completeUpload id key parts => finish .object (b.completeUpload seed id key parts)
  | .abortUpload id key => finish (fun _ => .nothing) (b.abortUpload id key)
  | .write key offset data => finish (fun _ => .nothing) (b.editFile key (.write · offset data))
  | .truncate key size => finish (fun _ => .nothing) (b.editFile key (.truncate · size))

end Bucket

/-! ### All calls on one bucket -/

/-- A bucket whose requests go to the filesystem directly. -/
def bucket (md5 : Md5 D) (readOnly : Bool) : Bucket (Reply (D := D)) D := ⟨Client.request, md5, readOnly⟩

/-- The files of a bucket, and the calls on it. -/
abbrev Gateway (D : Type) := Pool (Reply (D := D)) (Call D) (Out D) (World D (Nat × Call D))

def step [DecidableEq D] (md5 : Md5 D) (readOnly : Bool) :
    Gateway D → Turn (Call D) Env → Gateway D :=
  Pool.step answer (bucket md5 readOnly).program

def start (files : Files D (Nat × Call D)) : Gateway D := ⟨⟨files, []⟩, []⟩

def run [DecidableEq D] (md5 : Md5 D) (readOnly : Bool) (files : Files D (Nat × Call D))
    (turns : List (Turn (Call D) Env)) : Gateway D :=
  turns.foldl (step md5 readOnly) (start files)

/-! ### Runs to look at -/

/-- Bytes in place of their digest. -/
def plainMd5 : Md5 Bytes := ⟨id, List.flatten, []⟩

/-- Each of the calls, one after the other, for so many requests. -/
def inTurn (n : Nat) (calls : List Nat) : List (Turn (Call Bytes) Env) :=
  (List.replicate n (calls.map fun i => Turn.step i { nowNs := 0 })).flatten

end AtlasNative.S3
