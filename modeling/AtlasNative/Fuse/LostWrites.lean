import AtlasNative.Fuse.Mount
import AtlasNative.Fuse.Runs

/-!
# Lost writes are reported

The bytes of a write are in the buffer, with a call that sends them, in the pipeline, or stored,
unless a run of the inode failed. A failure is kept for its inode until a flush takes it. As long as
only writes, `fsync` and `close` take failures, no `fsync` or `close` returns success over lost bytes.
A read, a truncation or the release of a handle flushes too, and what it takes nobody hears of again.
-/

namespace AtlasNative.Fuse

open List Phase

/-! ### What is to be reported -/

namespace Call

/-- The byte that the call writes at offset `o` of `ino`. -/
def byteAt (ino o : Nat) : Call → Option UInt8
  | .write i offset data | .writeThrough i offset data =>
    if i = ino then Dirty.byteAt ⟨i, offset, data⟩ o else none
  | _ => none

/-- An error of the call tells that bytes of `ino` may be lost. -/
def reports (ino : Nat) : Call → Bool
  | .write i .. | .writeThrough i .. | .flush i => i = ino
  | _ => false

/-- Success of the call tells that the bytes of `ino` are stored. -/
def vouches (ino : Nat) : Call → Bool
  | .flush i | .released i => i = ino
  | .flushAll => true
  | _ => false

end Call

def Reply.failed : Reply → Bool
  | .error _ => true
  | _ => false

/-- After entry `j`, the cluster stored byte `b` at offset `o` of `ino`. -/
def PutAfter (log : List Entry) (j ino o : Nat) (b : UInt8) : Prop :=
  ∃ n run, j < n ∧ log[n]? = some (.put run) ∧ run.ino = ino ∧ run.byteAt o = some b

/-- What the write begun at entry `k` has for offset `o` was stored, or what a later write has. -/
def StoredSince (log : List Entry) (ino o k : Nat) : Prop :=
  ∃ j id c b, k ≤ j ∧ log[j]? = some (.begun id c) ∧ c.byteAt ino o = some b ∧
    PutAfter log j ino o b

/-- A write to `ino`, an `fsync` or a `close` of it returned an error. -/
def Reported (log : List Entry) (ino : Nat) : Prop :=
  ∃ id c e, .ended id c (.error e) ∈ log ∧ c.reports ino = true

/-- Every byte of every write to `ino` that returned success was stored. -/
def AllStored (log : List Entry) (ino : Nat) : Prop :=
  ∀ k id w reply, log[k]? = some (.begun id w) → .ended id w reply ∈ log →
    reply.failed = false → ∀ o, (w.byteAt ino o).isSome = true → StoredSince log ino o k

/-- Whenever a call returned success that vouches for `ino`, its bytes were stored, or a failure
had been reported. -/
def Honest (log : List Entry) : Prop :=
  ∀ before id c reply after, log = before ++ .ended id c reply :: after → reply.failed = false →
    ∀ ino, c.vouches ino = true → Reported before ino ∨ AllStored before ino

variable {log : List Entry} {e : Entry}

theorem Honest.snoc (h : Honest log) (he : ∀ id c reply, e = .ended id c reply → reply.failed = false →
      ∀ ino, c.vouches ino = true → Reported log ino ∨ AllStored log ino) :
    Honest (log ++ [e]) := by
  intro before id c reply after heq hok ino hvouch
  rcases eq_nil_or_concat after with rfl | ⟨after', e', rfl⟩
  · obtain ⟨rfl, hlast⟩ := append_inj' heq rfl
    exact he id c reply (singleton_inj.mp hlast) hok ino hvouch
  · have hinit : log ++ [e] = (before ++ .ended id c reply :: after') ++ [e'] := by simpa using heq
    exact h before id c reply after' (append_inj' hinit rfl).1 hok ino hvouch

variable {new : List Entry}

theorem Honest.append (h : Honest log) (hnew : ∀ e ∈ new, ∀ id c reply, e ≠ .ended id c reply) :
    Honest (log ++ new) := by
  induction new using reverseRecOn with
  | nil => rwa [append_nil]
  | append_singleton new e ih =>
    rw [← append_assoc]
    refine (ih fun e' he' => hnew e' (mem_append_left _ he')).snoc fun id c reply heq => ?_
    exact absurd heq (hnew e (by simp) id c reply)

namespace Phase

/-- The call's own bytes have been buffered, or are in its hands. -/
def entered : Call → Phase → Bool
  | .write .., .dispatch .. | .write .., .done _ => true
  | .writeThrough .., .send _ | .writeThrough .., .done _ => true
  | _, _ => false

/-- The call returned an error that tells about `ino`. -/
def dooms (ino : Nat) : Call → Phase → Bool
  | c, .done (.error _) => c.reports ino
  | _, _ => false

/-- The call has taken what was buffered. -/
def emptied : Call → Phase → Bool
  | .write .., _ => false
  | _, .dispatch .. | _, .wait _ | _, .cut | _, .release _ | _, .unhide _ | _, .removeAll .. => true
  | .released _, .remove _ => true
  | _, _ => false

/-- The call has seen all runs sent, none having failed. -/
def drained : Phase → Bool
  | .release none | .remove none | .unhide none | .removeAll _ none => true
  | _ => false

end Phase

namespace Mount

/-- The run is in the buffer or in the pipeline. -/
def Stores (m : Mount) (run : Dirty) : Prop :=
  m.dirty.runs[run.ino]? = some run ∨
    ∃ p, m.pipeline = some p ∧ (run ∈ p.queue ∨ run ∈ p.sending.map Sending.left)

def Holds (m : Mount) (run : Dirty) : Prop :=
  m.Stores run ∨ ∃ call ∈ m.calls, run ∈ call.2.pending

/-- Byte `b` at offset `o` of `ino` is still to be sent. -/
def Held (m : Mount) (ino o : Nat) (b : UInt8) : Prop :=
  ∃ run, m.Holds run ∧ run.ino = ino ∧ run.byteAt o = some b

def Failed (m : Mount) (ino : Nat) : Prop := ∃ p, m.pipeline = some p ∧ ino ∈ p.errors

def Doomed (m : Mount) (ino : Nat) : Prop :=
  ∃ call ∈ m.calls, call.2.dooms ino call.1 = true

/-- No run of `ino` is left, and none has failed. -/
def Drained (m : Mount) (ino : Nat) : Prop :=
  m.dirty.runs[ino]? = none ∧ ∀ p, m.pipeline = some p →
    (∀ run ∈ p.inflight, run.ino ≠ ino) ∧ ino ∉ p.errors

/-- Every byte of a write that was buffered is stored or to be sent, unless there is a failure to
report. -/
def Kept (m : Mount) : Prop :=
  ∀ ino, m.Doomed ino ∨ m.Failed ino ∨
    ∀ k id w phase, m.log[k]? = some (.begun id w) → m.calls[id]? = some (w, phase) →
      phase.entered w = true → ∀ o, (w.byteAt ino o).isSome = true →
      ∃ j id c b, k ≤ j ∧ m.log[j]? = some (.begun id c) ∧ c.byteAt ino o = some b ∧
        (PutAfter m.log j ino o b ∨ m.Held ino o b)

/-! ### Keeping the bytes -/

variable {ino o : Nat}

theorem putAfter_append {j : Nat} {b : UInt8} (h : PutAfter log j ino o b) : PutAfter (log ++ new) j ino o b := by
  obtain ⟨n, run, hn, hput, hrest⟩ := h
  have hlt := Program.lt_of_getElem? hput
  exact ⟨n, run, hn, (getElem?_append_left hlt).trans hput, hrest⟩

variable {run : Dirty}

theorem putAfter_of_mem {j : Nat} {b : UInt8} (hj : j < log.length) (hput : .put run ∈ new)
    (hbyte : run.byteAt o = some b) : PutAfter (log ++ new) j run.ino o b := by
  obtain ⟨n, hn⟩ := mem_iff_getElem?.mp hput
  refine ⟨log.length + n, run, by omega, ?_, rfl, hbyte⟩
  rw [getElem?_append_right (by omega), Nat.add_sub_cancel_left, hn]

theorem getElem?_append_iff {k : Nat} (he : e ∉ new) : (log ++ new)[k]? = some e ↔ log[k]? = some e := by
  refine ⟨fun hk => ?_, fun hk => ?_⟩
  · by_cases hlt : k < log.length
    · rwa [getElem?_append_left hlt] at hk
    · rw [getElem?_append_right (by omega)] at hk
      exact absurd (mem_of_getElem? hk) he
  · have hlt := Program.lt_of_getElem? hk
    exact (getElem?_append_left hlt).trans hk

variable {m m' : Mount}

/-- Entry `k` begins call `id`, the last one to begin. -/
def Latest (m : Mount) (k id : Nat) (c : Call) : Prop :=
  m.log[k]? = some (.begun id c) ∧ ∀ j wid w, m.log[j]? = some (.begun wid w) → j ≤ k

theorem Kept.of_step (h : m.Kept) (hlog : m'.log = m.log ++ new)
    (hlost : ∀ ino, m.Doomed ino ∨ m.Failed ino → m'.Doomed ino ∨ m'.Failed ino)
    (hheld : ∀ ino o b, m.Held ino o b → m'.Doomed ino ∨ m'.Failed ino ∨ m'.Held ino o b ∨
      (∃ run, .put run ∈ new ∧ run.ino = ino ∧ run.byteAt o = some b) ∨
      ∃ k id c b', m.Latest k id c ∧ c.byteAt ino o = some b' ∧ m'.Held ino o b')
    (hentered : ∀ (k id : Nat) (w : Call) (phase : Phase), m'.log[k]? = some (.begun id w) →
      m'.calls[id]? = some (w, phase) → phase.entered w = true →
      (m.log[k]? = some (.begun id w) ∧ ∃ phase', m.calls[id]? = some (w, phase') ∧ phase'.entered w = true) ∨
      ∀ ino o b, w.byteAt ino o = some b → m'.Doomed ino ∨ m'.Held ino o b) : m'.Kept := by
  intro ino
  by_cases hlost' : m'.Doomed ino ∨ m'.Failed ino
  · exact hlost'.imp_right .inl
  refine .inr (.inr fun k id w phase hk hcall hent o ho => ?_)
  have hnot := not_or.mp hlost'
  rcases hentered k id w phase hk hcall hent with ⟨hk', phase', hcall', hent'⟩ | hown
  · have hkept : _ := ((h ino).resolve_left fun hd => hlost' (hlost ino (.inl hd))).resolve_left
      fun hf => hlost' (hlost ino (.inr hf))
    obtain ⟨j, id', c, b, hle, hj, hbyte, hwhere⟩ := hkept k id w phase' hk' hcall' hent' o ho
    have hjlt := Program.lt_of_getElem? hj
    have hlift : ∀ {i : Nat} {e : Entry}, m.log[i]? = some e → m'.log[i]? = some e := by
      intro i e he
      have hlt := Program.lt_of_getElem? he
      rw [hlog]
      exact (getElem?_append_left hlt).trans he
    rcases hwhere with hput | hheldb
    · exact ⟨j, id', c, b, hle, hlift hj, hbyte, .inl (hlog ▸ putAfter_append hput)⟩
    · rcases hheld ino o b hheldb with hd | hf | hh | ⟨run, hput, rfl, hrun⟩ |
        ⟨k', id'', c', b', ⟨hk'', hlast⟩, hbyte', hh⟩
      · exact absurd hd hnot.1
      · exact absurd hf hnot.2
      · exact ⟨j, id', c, b, hle, hlift hj, hbyte, .inr hh⟩
      · exact ⟨j, id', c, b, hle, hlift hj, hbyte, .inl (hlog ▸ putAfter_of_mem hjlt hput hrun)⟩
      · exact ⟨k', id'', c', b', hlast k id w hk', hlift hk'', hbyte', .inr hh⟩
  · obtain ⟨b, hb⟩ := Option.isSome_iff_exists.mp ho
    exact ⟨k, id, w, b, le_rfl, hk, hb, .inr ((hown ino o b hb).resolve_left hnot.1)⟩

/-! ### The invariant -/

structure Inv (m : Mount) : Prop where
  /-- Only the last call is not over. -/
  solo : ∀ (id : Nat) c phase, m.calls[id]? = some (c, phase) →
    phase.isOver = true ∨ id + 1 = m.calls.length
  known : ∀ (k id : Nat) c, m.log[k]? = some (.begun id c) → ∃ phase, m.calls[id]? = some (c, phase)
  begun : ∀ (id : Nat) c phase, m.calls[id]? = some (c, phase) →
    ∃ k : Nat, m.log[k]? = some (.begun id c) ∧ (id + 1 = m.calls.length → m.Latest k id c)
  ended : ∀ (id : Nat) c reply,
    .ended id c reply ∈ m.log ↔ m.calls[id]? = some (c, .done reply)
  fits : ∀ call ∈ m.calls, Fits call.1 call.2
  own : m.dirty.Own
  /-- The runs that a call has in hand are of its inode. -/
  mine : ∀ call ∈ m.calls, ∀ run ∈ call.2.pending,
    call.1.ino = some run.ino ∨ call.1 = .flushAll
  emptied : ∀ call ∈ m.calls, call.2.emptied call.1 = true →
    ∀ ino : Nat, call.1.ino = some ino ∨ call.1 = .flushAll → m.dirty.runs[ino]? = none
  drained : ∀ call ∈ m.calls, call.2.drained = true →
    ∀ ino, call.1.vouches ino = true → m.Drained ino
  kept : m.Kept
  honest : Honest m.log

/-- What a step of call `c` from `phase` to `next` does to the bytes, `new` being what the cluster
did meanwhile. -/
structure Advanced (m : Mount) (c : Call) (phase next : Phase) (new : List Entry) (m' : Mount) :
    Prop where
  calls : m'.calls = m.calls
  log : m'.log = m.log ++ new
  requests : ∀ e ∈ new, (∃ run, e = .put run) ∨ ∃ ino size, e = .resized ino size
  fits : Fits c next
  own : m'.dirty.Own
  mine : ∀ run ∈ next.pending, c.ino = some run.ino ∨ c = .flushAll
  held : ∀ run, m.Stores run ∨ run ∈ phase.pending → ∀ o b, run.byteAt o = some b →
    next.dooms run.ino c = true ∨ m'.Failed run.ino ∨
      (∃ run', .put run' ∈ new ∧ run'.ino = run.ino ∧ run'.byteAt o = some b) ∨
      ∃ b' run', (b' = b ∨ c.byteAt run.ino o = some b') ∧ (m'.Stores run' ∨ run' ∈ next.pending) ∧
        run'.ino = run.ino ∧ run'.byteAt o = some b'
  failed : ∀ ino, m.Failed ino → m'.Failed ino ∨ next.dooms ino c = true
  dooms : ∀ ino, phase.dooms ino c = true → next.dooms ino c = true
  entered : next.entered c = true → phase.entered c = true ∨
    ∀ ino o b, c.byteAt ino o = some b → next.dooms ino c = true ∨
      ∃ run, (m'.Stores run ∨ run ∈ next.pending) ∧ run.ino = ino ∧ run.byteAt o = some b
  emptied : next.emptied c = true →
    ∀ ino : Nat, c.ino = some ino ∨ c = .flushAll → m'.dirty.runs[ino]? = none
  drained : next.drained = true → ∀ ino, c.vouches ino = true → m'.Drained ino
  settled : ∀ reply, next = .done reply → reply.failed = false →
    ∀ ino, c.vouches ino = true → m'.Drained ino

section Arrive

variable {id : Nat} {c : Call} {phase next : Phase} {new : List Entry}

theorem arrive_calls (m : Mount) : (m.arrive id c next).calls = m.calls.set id (c, next) := rfl

/-- What the arrival adds to the log. -/
def closing (id : Nat) (c : Call) : Phase → List Entry
  | .done reply => [.ended id c reply]
  | _ => []

theorem arrive_log (m : Mount) : (m.arrive id c next).log = m.log ++ closing id c next := by
  cases next <;> first | rfl | exact (append_nil _).symm

variable {i : Nat}

theorem over_of_ne (h : m.Inv) (hcall : m.calls[id]? = some (c, phase))
    (hrun : phase.isOver = false) (hi : i ≠ id) {call : Call × Phase}
    (hother : m.calls[i]? = some call) : call.2.isOver = true := by
  have hlast := (h.solo id c phase hcall).resolve_left (by simp [hrun])
  refine (h.solo i call.1 call.2 hother).resolve_right fun hi' => hi (by omega)

theorem dooms_done (reply : Reply) : (done reply).dooms ino c = (reply.failed && c.reports ino) := by
  cases reply <;> rfl

theorem holds_iff (h : m.Inv) (hcall : m.calls[id]? = some (c, phase))
    (hrun : phase.isOver = false) : m.Holds run ↔ m.Stores run ∨ run ∈ phase.pending := by
  refine or_congr_right ⟨fun ⟨call, hmem, hpend⟩ => ?_, fun hpend => ?_⟩
  · obtain ⟨i, hi⟩ := mem_iff_getElem?.mp hmem
    by_cases heq : i = id
    · rw [heq, hcall] at hi
      cases hi
      exact hpend
    · rw [pending_of_over (over_of_ne h hcall hrun heq hi)] at hpend
      cases hpend
  · exact ⟨_, mem_of_getElem? hcall, hpend⟩

theorem holds_arrive (hlt : id < m.calls.length) (hr : m.Stores run ∨ run ∈ next.pending) :
    (m.arrive id c next).Holds run := by
  refine hr.imp_right fun hpend => ⟨(c, next), ?_, hpend⟩
  rw [arrive_calls]
  exact mem_set hlt _

section

variable (hadv : Advanced m c phase next new m')
include hadv

theorem Advanced.not_begun (he : e ∈ new ++ closing id c next) {c' : Call} : e ≠ .begun i c' := by
  rintro rfl
  rcases mem_append.mp he with he | he
  · rcases hadv.requests _ he with ⟨run, heq⟩ | ⟨ino, size, heq⟩ <;> cases heq
  · cases next <;> first | (cases mem_singleton.mp he) | cases he

theorem Advanced.arrive_log_eq : (m'.arrive id c next).log = m.log ++ (new ++ closing id c next) := by
  rw [arrive_log, hadv.log, append_assoc]

theorem Advanced.begun_iff {k : Nat} {c' : Call} :
    (m'.arrive id c next).log[k]? = some (.begun i c') ↔ m.log[k]? = some (.begun i c') := by
  rw [hadv.arrive_log_eq]
  exact getElem?_append_iff fun he => absurd rfl (hadv.not_begun he)

theorem Advanced.calls_arrive (hlt : id < m.calls.length) {call : Call × Phase} :
    (m'.arrive id c next).calls[i]? = some call ↔
      i = id ∧ call = (c, next) ∨ i ≠ id ∧ m.calls[i]? = some call := Fuse.calls_arrive hadv.calls hlt

theorem Advanced.kept (h : m.Inv) (hcall : m.calls[id]? = some (c, phase))
    (hrun : phase.isOver = false) : (m'.arrive id c next).Kept := by
  have hlt := Program.lt_of_getElem? hcall
  have hlt' : id < m'.calls.length := hadv.calls ▸ hlt
  have hself : (c, next) ∈ (m'.arrive id c next).calls := mem_set hlt' _
  refine h.kept.of_step hadv.arrive_log_eq (fun ino hlost => ?_) (fun ino o b hheld => ?_)
    fun k i w phase' hk hw hent => ?_
  · rcases hlost with ⟨call, hmem, hdoom⟩ | hfailed
    · obtain ⟨i, hi⟩ := mem_iff_getElem?.mp hmem
      by_cases heq : i = id
      · rw [heq, hcall] at hi
        cases hi
        exact .inl ⟨_, hself, hadv.dooms ino hdoom⟩
      · exact .inl ⟨call, mem_of_getElem? ((hadv.calls_arrive hlt).mpr (.inr ⟨heq, hi⟩)), hdoom⟩
    · exact (hadv.failed ino hfailed).elim .inr fun hdoom => .inl ⟨_, hself, hdoom⟩
  · obtain ⟨run, hholds, rfl, hbyte⟩ := hheld
    rcases hadv.held run ((holds_iff h hcall hrun).mp hholds) o b hbyte with
      hdoom | hfailed | ⟨run', hput, hino, hbyte'⟩ | ⟨b', run', hsame, hholds', hino, hbyte'⟩
    · exact .inl ⟨_, hself, hdoom⟩
    · exact .inr (.inl hfailed)
    · exact .inr (.inr (.inr (.inl ⟨run', mem_append_left _ hput, hino, hbyte'⟩)))
    · have hheld' : (m'.arrive id c next).Held run.ino o b' := ⟨run', holds_arrive hlt' hholds', hino, hbyte'⟩
      rcases hsame with rfl | hown
      · exact .inr (.inr (.inl hheld'))
      · obtain ⟨k, -, hlatest⟩ := h.begun id c phase hcall
        have hlast := (h.solo id c phase hcall).resolve_left (by simp [hrun])
        exact .inr (.inr (.inr (.inr ⟨k, id, c, b', hlatest hlast, hown, hheld'⟩)))
  · have hold := hadv.begun_iff.mp hk
    rcases (hadv.calls_arrive hlt).mp hw with ⟨rfl, heq⟩ | ⟨hne, hw⟩
    · cases heq
      rcases hadv.entered hent with hent | hown
      · exact .inl ⟨hold, phase, hcall, hent⟩
      · refine .inr fun ino o b hb => ?_
        rcases hown ino o b hb with hdoom | ⟨run, hholds, hino, hbyte⟩
        · exact .inl ⟨_, hself, hdoom⟩
        · exact .inr ⟨run, holds_arrive hlt' hholds, hino, hbyte⟩
    · exact .inl ⟨hold, phase', hw, hent⟩

omit hadv in
theorem not_held_of_drained (hdrained : m.Drained ino)
    (hidle : ∀ call ∈ m.calls, call.2.pending = []) (o : Nat) (b : UInt8) : ¬ m.Held ino o b := by
  rintro ⟨run, (hstores | ⟨call, hmem, hpend⟩), rfl, -⟩
  · rcases hstores with hbuf | ⟨p, hp, hrun⟩
    · rw [hdrained.1] at hbuf
      cases hbuf
    · have hflight := (hdrained.2 p hp).1
      rcases hrun with hrun | hrun
      · exact hflight run (mem_append_left _ hrun) rfl
      · obtain ⟨sending, hmem, rfl⟩ := mem_map.mp hrun
        exact hflight sending.run (mem_append_right _ (mem_map_of_mem hmem)) rfl
  · rw [hidle call hmem] at hpend
    cases hpend

omit hadv in
theorem entered_of_byteAt {w : Call} (h : (w.byteAt ino o).isSome = true) (reply : Reply) :
    (done reply).entered w = true := by
  cases w <;> first | rfl | cases h

/-- When a call returns success, having seen all runs sent. -/
theorem Advanced.honest (h : m.Inv) (hcall : m.calls[id]? = some (c, phase))
    (hrun : phase.isOver = false) : Honest (m'.arrive id c next).log := by
  have hlt := Program.lt_of_getElem? hcall
  have hlog : Honest m'.log := by
    rw [hadv.log]
    refine h.honest.append fun e he i c' reply heq => ?_
    rcases hadv.requests e he with ⟨run, rfl⟩ | ⟨ino, size, rfl⟩ <;> cases heq
  have hkept := hadv.kept h hcall hrun
  rw [arrive_log]
  cases next with
  | done reply =>
    refine hlog.snoc fun i c' reply' heq hok ino hvouch => ?_
    cases heq
    have hdrained := hadv.settled reply rfl hok ino hvouch
    have hidle : ∀ call ∈ (m'.arrive id c (.done reply)).calls, call.2.isOver = true := by
      intro call hmem
      obtain ⟨i, hi⟩ := mem_iff_getElem?.mp hmem
      rcases (hadv.calls_arrive hlt).mp hi with ⟨-, rfl⟩ | ⟨hne, hi⟩
      · rfl
      · exact over_of_ne h hcall hrun hne hi
    have hold : ∀ {e : Entry}, e ∈ m.log → e ∈ m'.log := fun he =>
      hadv.log ▸ mem_append_left _ he
    rcases hkept ino with ⟨call, hmem, hdoom⟩ | ⟨p, hp, hin⟩ | hall
    · obtain ⟨i, hi⟩ := mem_iff_getElem?.mp hmem
      obtain ⟨c', phase'⟩ := call
      obtain ⟨reply', rfl⟩ := exists_of_over (hidle _ hmem)
      rw [dooms_done, Bool.and_eq_true] at hdoom
      rcases (hadv.calls_arrive hlt).mp hi with ⟨-, heq⟩ | ⟨hne, hi⟩
      · cases heq
        rw [hok] at hdoom
        cases hdoom.1
      · cases reply' with
        | error e => exact .inl ⟨i, c', e, hold ((h.ended i c' _).mpr hi), hdoom.2⟩
        | _ => cases hdoom.1
    · exact absurd hin (hdrained.2 p hp).2
    · refine .inr fun k wid w reply' hk hended hok' o ho => ?_
      have hdone : m.calls[wid]? = some (w, .done reply') := by
        rw [hadv.log] at hended
        rcases mem_append.mp hended with hended | hended
        · exact (h.ended wid w reply').mp hended
        · rcases hadv.requests _ hended with ⟨run, heq⟩ | ⟨ino', size, heq⟩ <;> cases heq
      have hne : wid ≠ id := by
        rintro rfl
        rw [hcall] at hdone
        cases hdone
        cases hrun
      have hlift : ∀ {i : Nat} {e : Entry}, e ∉ closing id c (.done reply) →
          ((m'.arrive id c (.done reply)).log[i]? = some e ↔ m'.log[i]? = some e) := by
        intro i e he
        rw [arrive_log]
        exact getElem?_append_iff he
      obtain ⟨j, id', c', b, hle, hj, hbyte, hput | hheld⟩ := hall k wid w (.done reply')
        ((hlift (by simp [closing])).mpr hk) ((hadv.calls_arrive hlt).mpr (.inr ⟨hne, hdone⟩))
        (entered_of_byteAt ho reply') o ho
      · obtain ⟨n, run, hn, hput, hrest⟩ := hput
        exact ⟨j, id', c', b, hle, (hlift (by simp [closing])).mp hj, hbyte, n, run, hn, (hlift (by simp [closing])).mp hput, hrest⟩
      · have hdrained' : (m'.arrive id c (.done reply)).Drained ino := hdrained
        exact absurd hheld (not_held_of_drained hdrained' (fun call hmem => pending_of_over (hidle call hmem)) o b)
  | _ =>
    rw [show closing id c _ = [] from rfl, append_nil]
    exact hlog

end

theorem not_emptied_of_over {p : Phase} (h : p.isOver = true) : p.emptied c = false ∧ p.drained = false := by
  obtain ⟨reply, rfl⟩ := exists_of_over h
  exact ⟨by cases c <;> rfl, rfl⟩

theorem Inv.arrive (h : m.Inv) (hcall : m.calls[id]? = some (c, phase)) (hrun : phase.isOver = false)
    (hadv : Advanced m c phase next new m') : (m'.arrive id c next).Inv := by
  have hlt := Program.lt_of_getElem? hcall
  have hlast : id + 1 = m.calls.length := (h.solo id c phase hcall).resolve_left (by simp [hrun])
  have hlen : (m'.arrive id c next).calls.length = m.calls.length := by
    rw [arrive_calls, length_set, hadv.calls]
  have hcases : ∀ call ∈ (m'.arrive id c next).calls, call = (c, next) ∨ call.2.isOver = true := by
    intro call hmem
    obtain ⟨i, hi⟩ := mem_iff_getElem?.mp hmem
    exact ((hadv.calls_arrive hlt).mp hi).imp (·.2) fun ⟨hne, hi⟩ => over_of_ne h hcall hrun hne hi
  refine ⟨fun i c' phase' hi => ?_, fun k i c' hk => ?_, fun i c' phase' hi => ?_,
    fun i c' reply => ?_, fun call hmem => ?_, hadv.own, fun call hmem run hpend => ?_,
    fun call hmem hempt => ?_, fun call hmem hdr => ?_, hadv.kept h hcall hrun, hadv.honest h hcall hrun⟩
  · rw [hlen]
    rcases (hadv.calls_arrive hlt).mp hi with ⟨rfl, -⟩ | ⟨hne, hi⟩
    · exact .inr hlast
    · exact h.solo i c' phase' hi
  · obtain ⟨phase', hi⟩ := h.known k i c' (hadv.begun_iff.mp hk)
    by_cases heq : i = id
    · subst heq
      rw [hcall] at hi
      cases hi
      exact ⟨next, (hadv.calls_arrive hlt).mpr (.inl ⟨rfl, rfl⟩)⟩
    · exact ⟨phase', (hadv.calls_arrive hlt).mpr (.inr ⟨heq, hi⟩)⟩
  · have hbegun : ∃ phase'', m.calls[i]? = some (c', phase'') := by
      rcases (hadv.calls_arrive hlt).mp hi with ⟨rfl, heq⟩ | ⟨hne, hi⟩
      · cases heq
        exact ⟨phase, hcall⟩
      · exact ⟨phase', hi⟩
    obtain ⟨phase'', hi'⟩ := hbegun
    obtain ⟨k, hk, hlatest⟩ := h.begun i c' phase'' hi'
    rw [hlen]
    refine ⟨k, hadv.begun_iff.mpr hk, fun hi => ⟨hadv.begun_iff.mpr hk, fun j wid w hj => ?_⟩⟩
    exact (hlatest hi).2 j wid w (hadv.begun_iff.mp hj)
  · rw [hadv.arrive_log_eq, hadv.calls_arrive hlt, mem_append, mem_append]
    refine ⟨?_, ?_⟩
    · rintro (hmem | hmem | hmem)
      · have hi := (h.ended i c' reply).mp hmem
        refine .inr ⟨?_, hi⟩
        rintro rfl
        rw [hcall] at hi
        cases hi
        cases hrun
      · rcases hadv.requests _ hmem with ⟨run, heq⟩ | ⟨ino, size, heq⟩ <;> cases heq
      · cases next with
        | done reply' =>
          cases mem_singleton.mp hmem
          exact .inl ⟨rfl, rfl⟩
        | _ => cases hmem
    · rintro (⟨rfl, heq⟩ | ⟨hne, hi⟩)
      · cases heq
        exact .inr (.inr (mem_singleton.mpr rfl))
      · exact .inl ((h.ended i c' reply).mpr hi)
  · rcases hcases call hmem with rfl | hover
    · exact hadv.fits
    · obtain ⟨reply, heq⟩ := exists_of_over hover
      exact heq ▸ .done
  · rcases hcases call hmem with rfl | hover
    · exact hadv.mine run hpend
    · rw [pending_of_over hover] at hpend
      cases hpend
  · rcases hcases call hmem with rfl | hover
    · exact hadv.emptied hempt
    · rw [(not_emptied_of_over hover).1] at hempt
      cases hempt
  · rcases hcases call hmem with rfl | hover
    · exact hadv.drained hdr
    · rw [(not_emptied_of_over (c := call.1) hover).2] at hdr
      cases hdr

end Arrive

end Mount

end AtlasNative.Fuse
