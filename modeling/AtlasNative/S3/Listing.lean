import AtlasNative.Program.Delimited
import AtlasNative.S3.Store

/-!
# Listings

A listing walks the directories of a bucket in key order: siblings sort by name, with `/` after the
name of a directory. It leaves out what a prefix, a resume point or a delimiter excludes, if it can
without looking into it, and stops when it has found one more than a page holds.
-/

namespace AtlasNative.S3

open Program

inductive Found where
  | object (key : Text) (ino : Nat)
  | commonPrefix (p : Text)
deriving DecidableEq, Repr

/-- What a listing shows. -/
inductive ListedItem (D : Type) where
  | object (key : Text) (object : Object D)
  | commonPrefix (p : Text)
deriving DecidableEq

/-- What is listed. -/
structure Query where
  keyPrefix : Text
  delimiter : Option Text
  after : Option Text
  max : Nat

/-- How far a walk has come. -/
structure Walk where
  /-- Up to `max + 1` results: one more than asked tells whether the listing is truncated. -/
  found : List Found := []
  lastPrefix : Option Text := none
deriving DecidableEq, Repr

/-- An entry of a directory, with `/` after the name of a directory. -/
structure Entry where
  rel : Text
  ino : Nat
  isDir : Bool
deriving DecidableEq, Repr

namespace Query

variable (q : Query)

def past (key : Text) : Bool := q.after.all (· < key)

/-- `key` up to the first delimiter after the prefix. -/
def cut (key : Text) : Option Text := q.delimiter.bind fun d => Program.cut d q.keyPrefix.length key

/-- Is the resume point past everything that begins with `key`? -/
def skips (key : Text) : Bool := q.after.any fun a => key < a && !key.isPrefixOf a

end Query

namespace Walk

variable (w : Walk) (q : Query)

def full : Bool := q.max < w.found.length

def push (x : Found) : Walk := { w with found := w.found ++ [x] }

/-- A key with the common prefix `cp`. -/
def share (cp : Text) : Walk :=
  if w.lastPrefix = some cp then w
  else
    let w := { w with lastPrefix := some cp }
    if q.past cp then w.push (.commonPrefix cp) else w

end Walk

/-- Files and directories are walked. -/
def DirEntry.walked (e : DirEntry) : Option Entry :=
  match e.kind with
  | .file => some ⟨e.name, e.ino, false⟩
  | .dir => some ⟨e.name ++ ['/'], e.ino, true⟩
  | _ => none

/-- The entries of a directory that are walked, in order; `filter` keeps only names starting with it. -/
def entriesOf (filter : Option Text) (entries : List DirEntry) : List Entry :=
  let entries := entries.filter fun e => !reservedPrefix.isPrefixOf e.name
  let entries := entries.filter fun e => filter.all (·.isPrefixOf e.name)
  (entries.filterMap DirEntry.walked).insertionSort fun a b => ¬ b.rel < a.rel

namespace Bucket

variable {Req : Type} {Rep : Req → Type} {D : Type} (b : Bucket Rep D)

/-- Is a directory marked? Asked only where it matters. -/
def askMarker (matters : Bool) (dir : Nat) : Store Rep Bool := if matters then b.isMarker dir else pure false

/-- The entries of the directory at `path`, the directories among them by `descend`. Returns false
once enough is found. -/
def walkEntries (q : Query) (path : Text) (descend : Nat → Text → Walk → Store Rep (Walk × Bool)) :
    List Entry → Walk → Store Rep (Walk × Bool)
  | [], w => pure (w, !w.full q)
  | e :: entries, w =>
    if w.full q then pure (w, false)
    else
      let key := path ++ e.rel
      match q.cut key with
      | some cp =>
        -- keys below a directory whose own key already holds the delimiter all share this prefix
        walkEntries q path descend entries (w.share q cp)
      | none =>
        if e.isDir then
          if q.skips key then walkEntries q path descend entries w
          else do
            let marked ← b.askMarker (q.past key) e.ino
            let (w, more) ← descend e.ino key (if marked then w.push (.object key e.ino) else w)
            if more then walkEntries q path descend entries w else pure (w, false)
        else walkEntries q path descend entries (if q.past key then w.push (.object key e.ino) else w)

/-- Walks the directory `ino` at key `path`, whose directories are less than `depth` deep. -/
def walkDir (q : Query) : (depth ino : Nat) → Text → Option Text → Walk → Store Rep (Walk × Bool)
  | 0, _, _, _, _ => throw (.io .io)
  | depth + 1, ino, path, filter, w => do
    let entries ← b.call (.readdir ino)
    b.walkEntries q path (fun child key w => walkDir q depth child key none w) (entriesOf filter entries) w

/-- What is shown of what was found; nothing if it was removed meanwhile. -/
def resolveOne : Found → Store Rep (Option (ListedItem D))
  | .commonPrefix p => pure (some (.commonPrefix p))
  | .object key ino => ExceptT.mk do
    match ← b.ops (.getattr ino) with
    | .ok a =>
      match ← (b.object a).run with
      | .ok o => pure (.ok (some (.object key o)))
      | .error .noSuchKey => pure (.ok none)
      | .error e => pure (.error e)
    | .error .noent => pure (.ok none)
    | .error e => pure (.error (io e))

def resolveSlots : List Found → Client Rep (List (Except StoreError (Option (ListedItem D))))
  | [] => pure []
  | x :: found => do
    let slot ← (b.resolveOne x).run
    let slots ← resolveSlots found
    pure (slot :: slots)

/-- The first failure, or what is left of the slots. -/
def collect : List (Except StoreError (Option (ListedItem D))) → Except StoreError (List (ListedItem D))
  | [] => .ok []
  | .error e :: _ => .error e
  | .ok l :: slots => (collect slots).map (l.toList ++ ·)

def resolve (found : List Found) : Store Rep (List (ListedItem D)) := ExceptT.mk do
  let slots ← b.resolveSlots found
  pure (collect slots)

/-- The names in a path. -/
def dirsOf (path : Text) : List Text := (path.splitOn '/').filter (· ≠ [])

/-- An empty delimiter is none. -/
def queryOf (keyPrefix : Text) (delimiter after : Option Text) (max : Nat) : Query :=
  ⟨keyPrefix, delimiter.filter (· ≠ []), after, max⟩

/-- A prefix up to its last `/`, and what follows it. -/
def splitPrefix (p : Text) : Text × Text := (p.rdropWhile (· != '/'), p.rtakeWhile (· != '/'))

/-- A segment of a prefix that no key has. -/
def hides (d : Text) : Bool := d = ['.'] || d = ['.', '.'] || reservedPrefix.isPrefixOf d

/-- A listing of the keys in the directory `start` at `dirPath` that go on with `rest`. -/
def listDir (depth : Nat) (q : Query) (start : Nat) (dirPath rest : Text) :
    Store Rep (List (ListedItem D) × Bool) := do
  let marked ← b.askMarker (dirPath ≠ [] ∧ rest = [] ∧ q.past dirPath) start
  let (w, _) ← b.walkDir q depth start dirPath (some rest)
    (if marked then Walk.push {} (.object dirPath start) else {})
  let listed ← b.resolve (w.found.take q.max)
  pure (listed, decide (q.max < w.found.length))

/-- Up to `max` keys and common prefixes after `after`, in key order, and whether more follow. -/
def list (depth : Nat) (keyPrefix : Text) (delimiter after : Option Text) (max : Nat) :
    Store Rep (List (ListedItem D) × Bool) :=
  if max = 0 then pure ([], false)
  else
    let (dirPath, rest) := splitPrefix keyPrefix
    let dirs := dirsOf dirPath
    if dirs.length ≠ dirPath.count '/' ∨ dirs.any hides then pure ([], false)
    else do
      match ← b.findDir dirs with
      | none => pure ([], false)
      | some start => b.listDir depth (queryOf keyPrefix delimiter after max) start dirPath rest

end Bucket

end AtlasNative.S3
