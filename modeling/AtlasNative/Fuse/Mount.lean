import AtlasNative.Fuse.WriteBack
import AtlasNative.Program.Runs

/-!
# The calls of a mount

Calls of one mount run side by side. A step of a call is one critical section or one request to the
cluster; a call that has to wait for a lock or for runs in flight stays where it is. Between any two
steps the workers of the pipeline go on, and what was remembered about earlier reads may expire.

The cluster takes each request at once: a file there is its bytes.
-/

namespace AtlasNative.Fuse

structure Config where
  writebackBytes : Nat
  /-- Runs sent in the background at once; 0 sends them in the foreground. -/
  writebackParallel : Nat
  /-- The largest request. -/
  maxIoBytes : Nat
  readaheadBytes : Nat
deriving DecidableEq, Repr

/-! ### Files of the cluster -/

namespace File

/-- Writing past the end fills the gap with zeros. -/
def put (file : Bytes) (offset : Nat) (data : Bytes) : Bytes :=
  if data = [] then file
  else (file ++ List.replicate (offset - file.length) 0).take offset ++ data ++
    file.drop (offset + data.length)

def resize (file : Bytes) (size : Nat) : Bytes :=
  file.take size ++ List.replicate (size - file.length) 0

def get (file : Bytes) (offset len : Nat) : Bytes := (file.drop offset).take len

end File

/-! ### Calls -/

inductive Call where
  | read (ino offset len : Nat)
  /-- Around the read-ahead window. -/
  | readDirect (ino offset len : Nat)
  | write (ino offset : Nat) (data : Bytes)
  /-- Around the buffer. -/
  | writeThrough (ino offset : Nat) (data : Bytes)
  | setattr (ino : Nat) (size : Option Nat)
  | opened (ino : Nat)
  /-- What the name leads to, and whether that is its only link and no directory. -/
  | unlink (found : Option (Nat × Bool))
  | rename
  /-- For `fsync`, or for `close`. -/
  | flush (ino : Nat)
  | released (ino : Nat)
  /-- At unmount. -/
  | flushAll
deriving DecidableEq, Repr

inductive Reply where
  | ok
  | written (len : Nat)
  | data (bytes : Bytes)
  | error (e : Errno)
deriving DecidableEq, Repr

/-- Where a call stands: its next critical section or request. -/
inductive Phase where
  /-- `drop_readahead`. -/
  | drop
  /-- A write looks for an earlier failure, then buffers. -/
  | check
  | buffer
  /-- A flush takes the buffered run, hands it on, and waits for the runs in flight. -/
  | take
  | dispatch (left : List Dirty) (result : Option Errno)
  | wait (result : Option Errno)
  /-- A read looks at the window, or fetches, and then may keep what it fetched. -/
  | cached
  | answer (end_ : Nat) (bytes : Bytes)
  | sequential
  | fetch (want : Nat) (out : Bytes)
  | keep (want : Nat) (out : Bytes)
  | send (run : Dirty)
  /-- A truncation cuts the buffer, then the file. -/
  | cut
  | attr
  /-- What `opened` and `unlink` find among the open handles. -/
  | look
  | rename
  | release (flushed : Option Errno)
  | remove (flushed : Option Errno)
  | unhide (result : Option Errno)
  | removeAll (left : List Nat) (result : Option Errno)
  | done (reply : Reply)
deriving DecidableEq, Repr

def Reply.of (result : Option Errno) : Reply :=
  match result with
  | none => .ok
  | some e => .error e

namespace Call

def start : Call → Phase
  | .write .. | .writeThrough .. | .setattr .. => .drop
  | .opened _ | .unlink _ => .look
  | .rename => .rename
  | .read .. | .readDirect .. | .flush _ | .released _ | .flushAll => .take

/-- The inode that the call is about. -/
def ino : Call → Option Nat
  | .read ino .. | .readDirect ino .. | .write ino .. | .writeThrough ino .. | .setattr ino _
  | .opened ino | .unlink (some (ino, _)) | .flush ino | .released ino => some ino
  | .unlink none | .rename | .flushAll => none

/-- After the window is dropped. -/
def dropped : Call → Phase
  | .write .. => .check
  | .setattr _ none => .attr
  | _ => .take

/-- After the runs at hand were handed on. -/
def dispatched (result : Option Errno) : Call → Phase
  | .write _ _ data => .done (.written data.length)
  | _ => .wait result

/-- After a run could not be sent. -/
def sendFailed (e : Errno) : Call → Phase
  | .released _ => .release (some e)
  | _ => .done (.error e)

/-- After a flush. -/
def flushed (result : Option Errno) (c : Call) : Phase :=
  match c, result with
  | .released _, _ => .release result
  | .flushAll, _ => .unhide result
  | .flush _, _ => .done (.of result)
  | _, some e => .done (.error e)
  | .read .., none => .cached
  | .readDirect _ _ len, none => .fetch len []
  | .writeThrough ino offset data, none => .send ⟨ino, offset, data⟩
  | .setattr .., none => .cut
  | .unlink _, none => .remove none
  | _, none => .done .ok

end Call

/-! ### The mount -/

/-- What is seen of a mount: its calls, and the requests that change a file. -/
inductive Entry where
  | begun (id : Nat) (c : Call)
  | ended (id : Nat) (c : Call) (reply : Reply)
  | put (run : Dirty)
  | resized (ino size : Nat)
deriving DecidableEq, Repr

structure Mount where
  cfg : Config
  dirty : WriteBack
  /-- The call that holds the lock of `dirty`. -/
  lock : Option Nat := none
  pipeline : Option Pipeline
  readahead : BTreeMap Nat (Nat × Bytes) := ∅
  lastReadEnd : BTreeMap Nat Nat := ∅
  /-- Open handles per inode. -/
  opens : BTreeMap Nat Nat := ∅
  /-- Files unlinked while open, to be removed on last close. -/
  hidden : BTreeSet Nat := ∅
  /-- The cluster's files. -/
  files : BTreeMap Nat Bytes := ∅
  calls : List (Call × Phase) := []
  log : List Entry := []
deriving DecidableEq

namespace Mount

def new (cfg : Config) : Mount where
  cfg := cfg
  dirty := { limit := cfg.writebackBytes }
  pipeline :=
    if 0 < cfg.writebackParallel ∧ 0 < cfg.writebackBytes then
      some { parallel := cfg.writebackParallel }
    else none

def file (m : Mount) (ino : Nat) : Bytes := m.files.getD ino []

/-- The bytes of a run that the next request takes, and the others. -/
def chunk (m : Mount) (run : Dirty) : Dirty := run.before (run.offset + max m.cfg.maxIoBytes 1)
def rest (m : Mount) (run : Dirty) : Dirty := run.after (run.offset + max m.cfg.maxIoBytes 1)

/-- The cluster stores a chunk. -/
def put (m : Mount) (run : Dirty) : Mount :=
  { m with
    files := m.files.insert run.ino (File.put (m.file run.ino) run.offset run.data)
    log := m.log ++ [.put run] }

/-- One more byte range of the fetch at `offset`, if it wants more. -/
def fetch (m : Mount) (ino offset want : Nat) (out : Bytes) : Bytes × Bool :=
  let len := min (want - out.length) m.cfg.maxIoBytes
  let bytes := File.get (m.file ino) (offset + out.length) len
  (out ++ bytes, bytes.length < len)

/-- The part of the window that answers a read, if the window covers it or ended at the end of the
file. -/
def window (m : Mount) (ino offset len : Nat) : Option (Nat × Bytes) :=
  match m.readahead[ino]? with
  | none => none
  | some (at_, buf) =>
    if at_ ≤ offset ∧ (offset + len ≤ at_ + buf.length ∨ buf.length < m.cfg.readaheadBytes) then
      let from_ := min (offset - at_) buf.length
      let till := min (from_ + len) buf.length
      some (at_ + till, (buf.drop from_).take (till - from_))
    else none

/-- One step of call `id`. A request, if the step makes one, fails with `failure`. -/
def advance (m : Mount) (id : Nat) (c : Call) (failure : Option Errno) (phase : Phase) :
    Phase × Mount :=
  match phase, c with
  | .drop, _ => (c.dropped, { m with readahead := m.readahead.erase (c.ino.getD 0) })
  | .check, _ =>
    match m.pipeline.bind fun p => p.failed (c.ino.getD 0) with
    | some e => (.done (.error e), m)
    | none => (.buffer, m)
  | .buffer, .write ino offset data =>
    if m.lock.isSome then (phase, m)
    else
      let (out, dirty) := m.dirty.write ino offset data
      (.dispatch out none, { m with dirty := dirty, lock := some id })
  | .take, .flushAll =>
    if m.lock.isSome then (phase, m)
    else
      let (runs, dirty) := m.dirty.takeAll
      (.dispatch runs none, { m with dirty := dirty, lock := some id })
  | .take, _ =>
    if m.lock.isSome then (phase, m)
    else
      let (run, dirty) := m.dirty.take (c.ino.getD 0)
      (.dispatch run.toList none, { m with dirty := dirty, lock := some id })
  | .dispatch [] result, _ => (c.dispatched result, { m with lock := none })
  | .dispatch (run :: left) result, _ =>
    match m.pipeline with
    | some p =>
      match p.submit run with
      | none => (phase, m)
      | some p => (.dispatch left result, { m with pipeline := some p })
    | none =>
      if run.data = [] then (.dispatch left result, m)
      else match failure with
        | none => (.dispatch (m.rest run :: left) result, m.put (m.chunk run))
        | some e =>
          if c = .flushAll then (.dispatch left (some e), m)
          else (c.sendFailed e, { m with lock := none })
  | .wait result, _ =>
    match m.pipeline with
    | none => (c.flushed result, m)
    | some p =>
      match if c = .flushAll then p.waitAll else p.wait (c.ino.getD 0) with
      | none => (phase, m)
      | some (e, p) => (c.flushed (e.or result), { m with pipeline := some p })
  | .cached, .read ino offset len =>
    match m.window ino offset len with
    | some (end_, bytes) => (.answer end_ bytes, m)
    | none => (.sequential, m)
  | .answer end_ bytes, _ =>
    (.done (.data bytes), { m with lastReadEnd := m.lastReadEnd.insert (c.ino.getD 0) end_ })
  | .sequential, .read ino offset len =>
    let sequential : Bool := match m.lastReadEnd[ino]? with
      | none => offset = 0
      | some end_ => end_ = offset
    let want := if sequential then max len m.cfg.readaheadBytes else len
    (.fetch want [], { m with lastReadEnd := m.lastReadEnd.insert ino (offset + len) })
  | .fetch want out, .read ino offset _ =>
    if want ≤ out.length then (.keep want out, m)
    else match failure with
      | some e => (.done (.error e), m)
      | none =>
        let (out, short) := m.fetch ino offset want out
        (if short then .keep want out else .fetch want out, m)
  | .fetch want out, .readDirect ino offset _ =>
    if want ≤ out.length then (.done (.data out), m)
    else match failure with
      | some e => (.done (.error e), m)
      | none =>
        let (out, short) := m.fetch ino offset want out
        (if short then .done (.data out) else .fetch want out, m)
  | .keep want out, .read ino offset len =>
    (.done (.data (out.take len)),
      if len < want then { m with readahead := m.readahead.insert ino (offset, out) } else m)
  | .send run, .writeThrough _ _ data =>
    if run.data = [] then (.done (.written data.length), m)
    else match failure with
      | some e => (.done (.error e), m)
      | none => (.send (m.rest run), m.put (m.chunk run))
  | .cut, .setattr ino (some size) =>
    if m.lock.isSome then (phase, m) else (.attr, { m with dirty := m.dirty.truncate ino size })
  | .attr, .setattr ino size =>
    match failure, size with
    | some e, _ => (.done (.error e), m)
    | none, none => (.done .ok, m)
    | none, some size =>
      (.done .ok, { m with
        files := m.files.insert ino (File.resize (m.file ino) size)
        log := m.log ++ [.resized ino size] })
  | .look, .opened ino =>
    (.done .ok, { m with opens := m.opens.insert ino (m.opens.getD ino 0 + 1) })
  | .look, .unlink none => (.remove none, m)
  | .look, .unlink (some (ino, sole)) =>
    (if m.opens.contains ino ∧ sole then .rename else .take, m)
  | .rename, _ =>
    match failure, c with
    | some e, _ => (.done (.error e), m)
    | none, .unlink (some (ino, _)) => (.done .ok, { m with hidden := m.hidden.insert ino })
    | none, _ => (.done .ok, m)
  | .release flushed, .released ino =>
    match m.opens[ino]? with
    | some (n + 2) => (.done (.of flushed), { m with opens := m.opens.insert ino (n + 1) })
    | _ =>
      (if m.hidden.contains ino then .remove flushed else .done (.of flushed),
        { m with opens := m.opens.erase ino, hidden := m.hidden.erase ino })
  | .remove flushed, _ =>
    match failure with
    | some e => (.done (.error e), m)
    | none => (.done (.of flushed), m)
  | .unhide result, _ => (.removeAll m.hidden.toList result, { m with hidden := ∅ })
  | .removeAll [] result, _ => (.done (.of result), m)
  | .removeAll (_ :: left) result, _ => (.removeAll left (failure.or result), m)
  | _, _ => (phase, m)

/-- Call `id` comes to `phase`. -/
def arrive (m : Mount) (id : Nat) (c : Call) (phase : Phase) : Mount :=
  { m with
    calls := m.calls.set id (c, phase)
    log := match phase with
      | .done reply => m.log ++ [.ended id c reply]
      | _ => m.log }

/-- A worker's next request, or its return once the run is sent or a request failed. -/
def work (m : Mount) (worker : Nat) (failure : Option Errno) : Mount :=
  match m.pipeline with
  | none => m
  | some p =>
    match p.sending[worker]? with
    | none => m
    | some s =>
      if s.left.data = [] then { m with pipeline := some (p.finish worker s.run.ino none) }
      else match failure with
        | some e => { m with pipeline := some (p.finish worker s.run.ino (some e)) }
        | none =>
          let sending := p.sending.set worker ⟨s.run, s.sent + (m.chunk s.left).data.length⟩
          { m with pipeline := some { p with sending := sending } }.put (m.chunk s.left)

inductive Event where
  | call (c : Call)
  | step (id : Nat) (failure : Option Errno)
  /-- A worker takes a run. -/
  | pop
  | work (worker : Nat) (failure : Option Errno)
  /-- The window of an inode, or the end of its last read, expires. -/
  | expire (ino : Nat)
  | forget (ino : Nat)

def step (m : Mount) : Event → Mount
  | .call c =>
    { m with
      calls := m.calls ++ [(c, c.start)]
      log := m.log ++ [.begun m.calls.length c] }
  | .step id failure =>
    match m.calls[id]? with
    | none | some (_, .done _) => m
    | some (c, phase) =>
      let (next, m) := m.advance id c failure phase
      m.arrive id c next
  | .pop => { m with pipeline := m.pipeline.map Pipeline.pop }
  | .work worker failure => m.work worker failure
  | .expire ino => { m with readahead := m.readahead.erase ino }
  | .forget ino => { m with lastReadEnd := m.lastReadEnd.erase ino }

def run (cfg : Config) (events : List Event) : Mount := events.foldl step (new cfg)

/-- A call with the steps it takes. -/
def calling (id : Nat) (c : Call) (steps : Nat) : List Event :=
  .call c :: List.replicate steps (.step id none)

end Mount

/-! ### Where a call can stand -/

namespace Phase

def isOver : Phase → Bool
  | .done _ => true
  | _ => false

/-- The runs that the call has in hand. -/
def pending : Phase → List Dirty
  | .dispatch left _ => left
  | .send run => [run]
  | _ => []

theorem pending_of_over {p : Phase} (h : p.isOver = true) : p.pending = [] := by
  cases p <;> first | rfl | cases h

theorem exists_of_over {p : Phase} (h : p.isOver = true) : ∃ reply, p = .done reply := by
  cases p <;> first | exact ⟨_, rfl⟩ | cases h

end Phase

/-- Does the call flush? -/
def Call.flushes : Call → Bool
  | .read .. | .readDirect .. | .writeThrough .. | .setattr _ (some _) | .unlink (some _)
  | .flush _ | .released _ | .flushAll => true
  | .write .. | .setattr _ none | .opened _ | .unlink none | .rename => false

/-- The phases that a call goes through. -/
inductive Fits : Call → Phase → Prop
  | drop {c : Call} (hc : c.start = .drop) : Fits c .drop
  | check {ino offset data} : Fits (.write ino offset data) .check
  | buffer {ino offset data} : Fits (.write ino offset data) .buffer
  | buffered {ino offset data left result} : Fits (.write ino offset data) (.dispatch left result)
  | take {c : Call} (hc : c.flushes = true) : Fits c .take
  | dispatch {c : Call} {left result} (hc : c.flushes = true) : Fits c (.dispatch left result)
  | wait {c : Call} {result} (hc : c.flushes = true) : Fits c (.wait result)
  | cached {ino offset len} : Fits (.read ino offset len) .cached
  | answer {ino offset len end_ bytes} : Fits (.read ino offset len) (.answer end_ bytes)
  | sequential {ino offset len} : Fits (.read ino offset len) .sequential
  | fetch {ino offset len want out} : Fits (.read ino offset len) (.fetch want out)
  | keep {ino offset len want out} : Fits (.read ino offset len) (.keep want out)
  | fetchDirect {ino offset len want out} : Fits (.readDirect ino offset len) (.fetch want out)
  | send {ino offset data run} : Fits (.writeThrough ino offset data) (.send run)
  | cut {ino size} : Fits (.setattr ino (some size)) .cut
  | attr {ino size} : Fits (.setattr ino size) .attr
  | opening {ino} : Fits (.opened ino) .look
  | look {found} : Fits (.unlink found) .look
  | rename : Fits .rename .rename
  | park {found} : Fits (.unlink (some found)) .rename
  | release {ino flushed} : Fits (.released ino) (.release flushed)
  | remove {ino flushed} : Fits (.released ino) (.remove flushed)
  | unlink {found} : Fits (.unlink found) (.remove none)
  | unhide {result} : Fits .flushAll (.unhide result)
  | removeAll {left result} : Fits .flushAll (.removeAll left result)
  | done {c : Call} {reply} : Fits c (.done reply)

theorem Fits.start (c : Call) : Fits c c.start := by
  cases c <;> first | exact .drop rfl | exact .take rfl | constructor

theorem Fits.flushed {c : Call} (hc : c.flushes = true) (result : Option Errno) : Fits c (c.flushed result) := by
  cases c with
  | setattr ino size =>
    cases size with
    | none => cases hc
    | some size =>
      cases result
      · exact .cut
      · exact .done
  | _ => cases result <;> constructor

theorem Mount.advance_take (m : Mount) (id : Nat) {c : Call} (failure : Option Errno)
    (hc : c ≠ .flushAll) : m.advance id c failure .take =
      if m.lock.isSome then (.take, m)
      else (.dispatch (m.dirty.take (c.ino.getD 0)).1.toList none,
        { m with dirty := (m.dirty.take (c.ino.getD 0)).2, lock := some id }) := by
  cases c <;> first | rfl | exact absurd rfl hc

theorem Fits.advance (m : Mount) (id : Nat) {c : Call} {phase : Phase} (failure : Option Errno)
    (h : Fits c phase) : Fits c (m.advance id c failure phase).1 := by
  cases h with
  | drop hc =>
    cases c <;> first | exact .check | exact .take rfl | cases hc
    rename_i ino size
    cases size
    · exact .attr
    · exact .take rfl
  | check =>
    dsimp only [Mount.advance]
    split
    · exact .done
    · exact .buffer
  | buffer =>
    dsimp only [Mount.advance]
    split
    · exact .buffer
    · exact .buffered
  | buffered =>
    rename_i left result
    cases left with
    | nil => exact .done
    | cons run left =>
      dsimp only [Mount.advance]
      split
      · split <;> exact .buffered
      split
      · exact .buffered
      split
      · exact .buffered
      · exact .done
  | take hc =>
    by_cases hall : c = .flushAll
    · subst hall
      dsimp only [Mount.advance]
      split
      · exact .take rfl
      · exact .dispatch rfl
    · rw [Mount.advance_take m id failure hall]
      split
      · exact .take hc
      · exact .dispatch hc
  | dispatch hc =>
    rename_i left result
    cases left with
    | nil =>
      cases c <;> first | exact .wait hc | cases hc
    | cons run left =>
      dsimp only [Mount.advance]
      split
      · split <;> exact .dispatch hc
      split
      · exact .dispatch hc
      split
      · exact .dispatch hc
      split
      · exact .dispatch hc
      · cases c <;> constructor
  | wait hc =>
    dsimp only [Mount.advance]
    split
    · exact .flushed hc _
    split
    · exact .wait hc
    · exact .flushed hc _
  | cached =>
    dsimp only [Mount.advance]
    split
    · exact .answer
    · exact .sequential
  | answer | keep | opening | done => exact .done
  | sequential => exact .fetch
  | fetch =>
    dsimp only [Mount.advance]
    split
    · exact .keep
    split
    · exact .done
    split
    · exact .keep
    · exact .fetch
  | fetchDirect =>
    dsimp only [Mount.advance]
    split
    · exact .done
    split
    · exact .done
    dsimp only
    split
    · exact .done
    · exact .fetchDirect
  | send =>
    dsimp only [Mount.advance]
    split
    · exact .done
    split
    · exact .done
    · exact .send
  | cut =>
    dsimp only [Mount.advance]
    split
    · exact .cut
    · exact .attr
  | attr =>
    rename_i ino size
    cases failure <;> cases size <;> exact .done
  | look =>
    rename_i found
    cases found with
    | none => exact .unlink
    | some found =>
      dsimp only [Mount.advance]
      split
      · exact .park
      · exact .take rfl
  | rename | park | remove | unlink => cases failure <;> exact .done
  | release =>
    dsimp only [Mount.advance]
    split
    · exact .done
    · split
      · exact .remove
      · exact .done
  | unhide => exact .removeAll
  | removeAll =>
    rename_i left result
    cases left with
    | nil => exact .done
    | cons ino left => exact .removeAll

theorem calls_call {m : Mount} {c : Call} {i : Nat} {call : Call × Phase} :
    (m.step (.call c)).calls[i]? = some call ↔ m.calls[i]? = some call ∨ i = m.calls.length ∧ call = (c, c.start) :=
  Program.getElem?_snoc_iff

theorem calls_arrive {m m' : Mount} {c : Call} {next : Phase} {id i : Nat} {call : Call × Phase}
    (hcalls : m'.calls = m.calls) (hlt : id < m.calls.length) :
    (m'.arrive id c next).calls[i]? = some call ↔ i = id ∧ call = (c, next) ∨ i ≠ id ∧ m.calls[i]? = some call := by
  show (m'.calls.set id (c, next))[i]? = some call ↔ _
  rw [hcalls]
  exact Program.getElem?_set_iff hlt

end AtlasNative.Fuse
