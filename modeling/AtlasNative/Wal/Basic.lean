import AtlasNative.Wal.Text

/-!
# The write-ahead log file

The log is a file of lines, each the JSON of one record. Appends go to the end of the file and are
durable once it has been synced; every other change writes a new file and renames it into place.
When the log is opened, or about to be rewritten, the file is scanned: a last line that is not a
record is taken to be torn and left out. How records are written and read is the business of a
library, `Serde`.

`File` separates the bytes that have been synced from those a crash may lose. How much of a line a
failed write leaves behind and how much a crash keeps are parameters.
-/

namespace AtlasNative.WalFile

structure WalRecord (T : Type) where
  term : UInt64
  index : UInt64
  command : T
deriving DecidableEq

/-- Why a line is not part of a log. -/
inductive CorruptReason where
  | indexAfter (index prev : UInt64)
  | decode
deriving DecidableEq

inductive WalError where
  | io
  | decode
  | indexRegression (last next : UInt64)
  | corrupt (line : Nat) (reason : CorruptReason)
deriving DecidableEq

/-! ## Records as lines -/

/-- What the library reads of a line as its index (`serde_json::from_str::<IndexOnly>`). -/
class IndexOnly where
  indexOnly : Text → Option UInt64

open IndexOnly

/-- How the library writes a record (`serde_json::to_vec`) and reads it back. The library is a
parameter; what the log relies on are the laws. A type with values that nest deeper than the library
reads has no instance. -/
class Serde (T : Type) [IndexOnly] where
  text : WalRecord T → Text
  ofText : Text → Option (WalRecord T)
  /-- A record is written as an object. -/
  text_braces : ∀ r, ∃ cs, text r = '{' :: cs ++ ['}']
  lineFeed_notMem_text : ∀ r, '\n' ∉ text r
  ofText_text : ∀ r, ofText (text r) = some r
  indexOnly_text : ∀ r, indexOnly (text r) = some r.index
  /-- Nothing is read of a text that was cut short. -/
  indexOnly_cut : ∀ {r cs}, cs <+: text r → cs ≠ text r → indexOnly cs = none

variable [IndexOnly] {T : Type} [Serde T]

def WalRecord.text (r : WalRecord T) : Text := Serde.text r

/-- The line of a record, with its line feed. -/
def WalRecord.line (r : WalRecord T) : List UInt8 := r.text.utf8 ++ [10]

/-! ## Scanning the file -/

/-- `char::is_whitespace`. -/
def isWhitespace (c : Char) : Bool :=
  let n := c.toNat
  (0x9 ≤ n && n ≤ 0xd) || n = 0x20 || n = 0x85 || n = 0xa0 || n = 0x1680 ||
    (0x2000 ≤ n && n ≤ 0x200a) || n = 0x2028 || n = 0x2029 || n = 0x202f || n = 0x205f || n = 0x3000

/-- The lines of some bytes and what follows the last line feed. -/
def splitLines : List UInt8 → List (List UInt8) × List UInt8
  | [] => ([], [])
  | b :: bs =>
    let (lines, tail) := splitLines bs
    if b = 10 then ([] :: lines, tail)
    else match lines with
      | [] => ([], b :: tail)
      | line :: lines => ((b :: line) :: lines, tail)

/-- A line without the carriage return before its line feed. -/
def stripReturn (line : List UInt8) : List UInt8 :=
  if line.getLast? = some 13 then line.dropLast else line

def decodeLine (line : List UInt8) : Except WalError Text :=
  match Text.ofUtf8 line with
  | some cs => .ok cs
  | none => .error .io

/-- `BufRead::lines`: a last line may lack its line feed. -/
def readLines (bytes : List UInt8) : Except WalError (List Text) :=
  let (lines, tail) := splitLines bytes
  (lines.map stripReturn ++ if tail = [] then [] else [tail]).mapM decodeLine

/-- The last position with the property. -/
def rposition {α : Type} (p : α → Bool) : List α → Option Nat
  | [] => none
  | a :: l => match rposition p l with
    | some n => some (n + 1)
    | none => if p a then some 0 else none

/-- The loop of `scan`: `n` lines have been read, `out` found in them. -/
def scanLines (lastNonEmpty : Option Nat) : Nat → List (UInt64 × Text) → Bool → List Text →
    Except WalError (List (UInt64 × Text) × Bool)
  | _, out, torn, [] => .ok (out, torn)
  | n, out, torn, line :: rest =>
    if line.all isWhitespace then scanLines lastNonEmpty (n + 1) out torn rest
    else match indexOnly line with
      | some index => match out.getLast? with
        | some (prev, _) =>
          if index ≤ prev then .error (.corrupt (n + 1) (.indexAfter index prev))
          else scanLines lastNonEmpty (n + 1) (out ++ [(index, line)]) torn rest
        | none => scanLines lastNonEmpty (n + 1) (out ++ [(index, line)]) torn rest
      | none =>
        if some n = lastNonEmpty then scanLines lastNonEmpty (n + 1) out true rest
        else .error (.corrupt (n + 1) .decode)

/-- Every complete line with its index, and whether the final line was torn. -/
def scan (bytes : List UInt8) : Except WalError (List (UInt64 × Text) × Bool) := do
  let raw ← readLines bytes
  scanLines (rposition (fun line => !line.all isWhitespace) raw) 0 [] false raw

/-! ## The log -/

/-- The file: what has been synced, and what a crash may lose. -/
structure File where
  durable : List UInt8
  pending : List UInt8
deriving DecidableEq

def File.bytes (f : File) : List UInt8 := f.durable ++ f.pending

/-- What the file holds after a crash that kept `kept` bytes of what was not synced. -/
def File.crash (f : File) (kept : Nat) : File := ⟨f.durable ++ f.pending.take kept, []⟩

structure Wal where
  lastIndex : UInt64
  /-- Highest index known to be on disk. -/
  syncedIndex : UInt64
  records : Nat
deriving DecidableEq

structure WalState where
  wal : Wal
  file : File
deriving DecidableEq

abbrev WalM := EStateM WalError WalState

/-- How a write of some bytes ends: whole, or failing after at most so many of them. -/
inductive Written where
  | all
  | failed (after : Nat)
deriving DecidableEq

namespace Wal

def scanFile : WalM (List (UInt64 × Text) × Bool) := do
  match scan (← get).file.bytes with
  | .ok found => return found
  | .error e => throw e

/-- A write fails only while some byte is missing. -/
def writeAll (bytes : List UInt8) : Written → WalM Unit
  | .all => modify fun s => { s with file.pending := s.file.pending ++ bytes }
  | .failed n => do
    modify fun s => { s with file.pending := s.file.pending ++ bytes.dropLast.take n }
    throw .io

def appendUnsynced (r : WalRecord T) (written : Written) : WalM Unit := do
  let last := (← get).wal.lastIndex
  if r.index ≤ last then throw (.indexRegression last r.index)
  writeAll r.line written
  modify fun s => { s with wal.lastIndex := r.index, wal.records := s.wal.records + 1 }

/-- `synced` says whether the flush, if there is one, succeeds. -/
def sync (synced : Bool) : WalM Unit := do
  let w := (← get).wal
  if w.syncedIndex < w.lastIndex then
    if !synced then throw .io
    modify fun s => { s with file := ⟨s.file.bytes, []⟩, wal.syncedIndex := s.wal.lastIndex }

def append (r : WalRecord T) (written : Written) (synced : Bool) : WalM Unit := do
  appendUnsynced r written
  sync synced

/-- Writes the lines to keep to a new file, which replaces the log once it is on disk. -/
def rewrite (keep : UInt64 → Bool) : WalM Nat := do
  let (lines, _) ← scanFile
  let kept := lines.filter fun l => keep l.1
  let s ← get
  set (⟨{ s.wal with syncedIndex := s.wal.lastIndex, records := kept.length },
    ⟨kept.flatMap fun l => l.2.utf8 ++ [10], []⟩⟩ : WalState)
  return s.wal.records - kept.length

def compactThrough (through : UInt64) : WalM Nat := rewrite fun i => through < i

def truncateAfter (after : UInt64) : WalM Nat := do
  let removed ← rewrite fun i => i ≤ after
  modify fun s => { s with wal.lastIndex := after, wal.syncedIndex := after }
  return removed

def reset (floor : UInt64) : WalM Unit := do
  let _ ← rewrite fun _ => false
  modify fun s => { s with wal.lastIndex := floor, wal.syncedIndex := floor }

def decodeRecord (line : Text) : Except WalError (WalRecord T) :=
  match Serde.ofText line with
  | some r => .ok r
  | none => .error .decode

def replay (bytes : List UInt8) : Except WalError (List (WalRecord T)) := do
  let (lines, _) ← scan bytes
  lines.mapM fun l => decodeRecord l.2

def opened (lines : List (UInt64 × Text)) : Wal :=
  let last := (lines.getLast?.map (·.1)).getD 0
  ⟨last, last, lines.length⟩

def «open» (file : File) : Except WalError WalState := do
  let (lines, torn) ← scan file.bytes
  let s : WalState := ⟨opened lines, file⟩
  if torn then
    match rewrite (fun _ => true) s with
    | .ok _ s => .ok s
    | .error e _ => .error e
  else .ok s

end Wal

end AtlasNative.WalFile
