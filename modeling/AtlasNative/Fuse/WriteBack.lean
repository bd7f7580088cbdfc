import AtlasNative.Catalog.Acl

/-!
# Write-back and the pipeline

A mount buffers the writes to a file as one contiguous run per inode. A run that a write cannot
extend, and the full part of a long one, goes to the cluster: through a pipeline of workers if there
is one. Runs of one inode that overlap go one after the other; a failed run leaves its error for
its inode.
-/

namespace AtlasNative.Fuse

abbrev Errno := Nat

/-- Buffered bytes not yet sent to the cluster. -/
structure Dirty where
  ino : Nat
  offset : Nat
  data : Bytes
deriving DecidableEq, Repr

namespace Dirty

def endAt (run : Dirty) : Nat := run.offset + run.data.length

/-- The byte that the run has for offset `o` of its file. -/
def byteAt (run : Dirty) (o : Nat) : Option UInt8 :=
  if run.offset ≤ o then run.data[o - run.offset]? else none

/-- The run with `data` written over it, or past its end where `data` reaches further. -/
def extend (run : Dirty) (offset : Nat) (data : Bytes) : Dirty :=
  let at_ := offset - run.offset
  { run with data := run.data.take at_ ++ data ++ run.data.drop (at_ + data.length) }

/-- The bytes before offset `cut`, and those from it on. -/
def before (run : Dirty) (cut : Nat) : Dirty := { run with data := run.data.take (cut - run.offset) }
def after (run : Dirty) (cut : Nat) : Dirty := ⟨run.ino, cut, run.data.drop (cut - run.offset)⟩

end Dirty

/-! ### The buffer -/

structure WriteBack where
  /-- Runs are sent once they reach this many bytes; 0 disables buffering. -/
  limit : Nat
  runs : BTreeMap Nat Dirty := ∅
deriving DecidableEq

namespace WriteBack

/-- Can the write extend the run? -/
def joins (w : WriteBack) (run : Dirty) (offset : Nat) (data : Bytes) : Bool :=
  run.offset ≤ offset && offset ≤ run.endAt &&
    max (offset + data.length) run.endAt - run.offset ≤ max w.limit data.length

/-- The run that has to go because the write does not extend it, and the run with the write. -/
def place (w : WriteBack) (ino offset : Nat) (data : Bytes) : List Dirty × Dirty :=
  match w.runs[ino]? with
  | some run =>
    if w.joins run offset data then ([], run.extend offset data) else ([run], ⟨ino, offset, data⟩)
  | none => ([], ⟨ino, offset, data⟩)

/-- Where a full run is cut: at the last multiple of the run size. -/
def cut (w : WriteBack) (run : Dirty) : Nat := run.endAt - run.endAt % max w.limit 1

/-- Buffers a write. Returns the runs that must be sent now, in order. -/
def write (w : WriteBack) (ino offset : Nat) (data : Bytes) : List Dirty × WriteBack :=
  let (out, run) := w.place ino offset data
  if run.data.length < w.limit then (out, { w with runs := w.runs.insert ino run })
  else if run.offset < w.cut run ∧ w.cut run < run.endAt then
    (out ++ [run.before (w.cut run)], { w with runs := w.runs.insert ino (run.after (w.cut run)) })
  else (out ++ [run], { w with runs := w.runs.erase ino })

def take (w : WriteBack) (ino : Nat) : Option Dirty × WriteBack :=
  (w.runs[ino]?, { w with runs := w.runs.erase ino })

def takeAll (w : WriteBack) : List Dirty × WriteBack := (w.runs.toList.map Prod.snd, { w with runs := ∅ })

/-- Forgets buffered bytes at or past `size`. -/
def truncate (w : WriteBack) (ino size : Nat) : WriteBack :=
  match w.runs[ino]? with
  | none => w
  | some run =>
    if size ≤ run.offset then { w with runs := w.runs.erase ino }
    else if size < run.endAt then { w with runs := w.runs.insert ino (run.before size) }
    else w

end WriteBack

/-! ### The pipeline -/

/-- A run that a worker sends, in requests, and how many of its bytes the cluster has. -/
structure Sending where
  run : Dirty
  sent : Nat := 0
deriving DecidableEq, Repr

def Sending.left (s : Sending) : Dirty := s.run.after (s.run.offset + s.sent)

structure Pipeline where
  /-- How many runs are sent at once. -/
  parallel : Nat
  queue : List Dirty := []
  sending : List Sending := []
  /-- The errors of failed runs not yet reported, by inode. -/
  errors : BTreeMap Nat Errno := ∅
deriving DecidableEq

namespace Pipeline

/-- Runs queued or being sent. -/
def inflight (p : Pipeline) : List Dirty := p.queue ++ p.sending.map Sending.run

def overlaps (a b : Dirty) : Bool := a.ino = b.ino && a.offset < b.endAt && b.offset < a.endAt

/-- Queues the run, unless it has to wait for room or for overlapping runs of its inode. -/
def submit (p : Pipeline) (run : Dirty) : Option Pipeline :=
  if 2 * p.parallel ≤ p.inflight.length ∨ p.inflight.any (overlaps run) then none
  else some { p with queue := p.queue ++ [run] }

def failed (p : Pipeline) (ino : Nat) : Option Errno := p.errors[ino]?

/-- Once every run of `ino` is sent: the failure, which is cleared. -/
def wait (p : Pipeline) (ino : Nat) : Option (Option Errno × Pipeline) :=
  if p.inflight.any (fun run => run.ino = ino) then none
  else some (p.errors[ino]?, { p with errors := p.errors.erase ino })

/-- Once every run is sent: a failure, all being cleared. -/
def waitAll (p : Pipeline) : Option (Option Errno × Pipeline) :=
  if p.inflight.isEmpty then some (p.errors.toList.head?.map Prod.snd, { p with errors := ∅ }) else none

/-- An idle worker takes the next queued run. -/
def pop (p : Pipeline) : Pipeline :=
  match p.queue with
  | run :: queue =>
    if p.sending.length < p.parallel then
      { p with queue := queue, sending := p.sending ++ [⟨run, 0⟩] }
    else p
  | [] => p

/-- A worker is done with its run. The first failure of an inode stays. -/
def finish (p : Pipeline) (worker : Nat) (ino : Nat) (failure : Option Errno) : Pipeline :=
  { p with
    sending := p.sending.eraseIdx worker
    errors := match failure with
      | none => p.errors
      | some e => p.errors.insertIfNew ino e }

end Pipeline

end AtlasNative.Fuse
