import AtlasNative.Fuse.Mount
import AtlasNative.Fuse.Runs

/-!
# Calls on one file

Several calls on one file of a mount, no request failing. Writes may overlap writes, reads may
overlap reads, and a flush may overlap anything. Then a read, a truncation or a write around the
buffer finds, once its own flush has returned, nothing buffered and nothing in flight, and that stays
so until it returns.
-/

namespace AtlasNative.Fuse

open List Pipeline Option Std.ExtTreeMap Bool List.Sublist Call WriteBack

namespace Call

/-- One of the calls on the bytes of file `ino`. -/
def on (ino : Nat) : Call → Bool
  | .read i _ _ | .write i _ _ | .writeThrough i _ _ | .setattr i (some _) | .flush i => i = ino
  | _ => false

/-- Calls that may overlap. -/
def compatible : Call → Call → Bool
  | .flush _, _ | _, .flush _ => true
  | .read .., .read .. | .write .., .write .. => true
  | _, _ => false

/-- Calls that rely on what their flush has left. -/
def guards : Call → Bool
  | .read .. | .writeThrough .. | .setattr .. => true
  | _ => false

/-- Calls that change the file, which first drop the window. -/
def changes : Call → Bool
  | .write .. | .writeThrough .. | .setattr .. => true
  | _ => false

theorem compatible_comm (a b : Call) : a.compatible b = b.compatible a := by
  cases a <;> cases b <;> rfl

theorem compatible_eq_false {a b : Call} (ha : a.guards = true) (hb : b.changes = true) : a.compatible b = false := by
  revert ha hb
  cases a <;> cases b <;> simp [guards, changes, compatible]

end Call

namespace Phase

/-- The call has taken what was buffered. -/
def taken : Phase → Bool
  | .drop | .check | .buffer | .take => false
  | _ => true

/-- The call has seen all runs sent. -/
def waited : Phase → Bool
  | .drop | .check | .buffer | .take | .dispatch .. | .wait _ => false
  | _ => true

theorem taken_of_waited {p : Phase} (h : p.waited = true) : p.taken = true := by
  cases p <;> first | rfl | cases h

end Phase

namespace Mount

/-- The call changes the file and has dropped the window. -/
def Changing (call : Call × Phase) : Prop :=
  call.1.changes = true ∧ call.2 ≠ .drop ∧ call.2.isOver = false

/-- The call relies on what its flush leaves. -/
def Guarding (call : Call × Phase) : Prop := call.1.guards = true ∧ call.2.isOver = false

structure Shape (ino : Nat) (m : Mount) : Prop where
  own : ∀ (i : Nat) run, m.dirty.runs[i]? = some run → i = ino ∧ run.ino = ino
  kinds : ∀ call ∈ m.calls, call.1.on ino = true ∧ Fits call.1 call.2
  apart : ∀ (i j : Nat) a b, i ≠ j → m.calls[i]? = some a → m.calls[j]? = some b →
    a.2.isOver = false → b.2.isOver = false → a.1.compatible b.1 = true
  lock : ∀ (id : Nat) c left result,
    m.calls[id]? = some (c, .dispatch left result) → m.lock = some id
  clean : ∀ call ∈ m.calls, (∀ left r, call.2 = .dispatch left r → r = none) ∧
    ∀ r, call.2 = .wait r → r = none
  hands : ∀ call ∈ m.calls, ∀ run ∈ call.2.pending, run.ino = ino
  flight : ∀ p, m.pipeline = some p → p.errors = ∅ ∧
    p.inflight.Pairwise (fun a b => Pipeline.overlaps a b = false) ∧ ∀ run ∈ p.inflight, run.ino = ino
  dropped : ∀ call ∈ m.calls, Changing call → m.readahead[ino]? = none
  taken : ∀ (id : Nat) call, m.calls[id]? = some call → Guarding call → call.2.taken = true →
    m.dirty.runs[ino]? = none ∧
      ∀ (j : Nat) other, j ≠ id → m.calls[j]? = some other → other.2.pending = []
  waited : ∀ call ∈ m.calls, Guarding call → call.2.waited = true →
    ∀ p, m.pipeline = some p → p.inflight = []

/-- What a step of call `id` from `phase` to `next` leaves. -/
structure Shifted (ino : Nat) (m : Mount) (id : Nat) (c : Call) (next : Phase) (m' : Mount) :
    Prop where
  calls : m'.calls = m.calls
  own : ∀ (i : Nat) run, m'.dirty.runs[i]? = some run → i = ino ∧ run.ino = ino
  fits : Fits c next
  lock : ∀ left r, next = .dispatch left r → m'.lock = some id
  others : ∀ (j : Nat) c' left r, j ≠ id → m.calls[j]? = some (c', .dispatch left r) →
    m'.lock = some j
  clean : (∀ left r, next = .dispatch left r → r = none) ∧ ∀ r, next = .wait r → r = none
  hands : ∀ run ∈ next.pending, run.ino = ino
  flight : ∀ p, m'.pipeline = some p → p.errors = ∅ ∧
    p.inflight.Pairwise (fun a b => Pipeline.overlaps a b = false) ∧ ∀ run ∈ p.inflight, run.ino = ino
  dropped : Changing (c, next) → m'.readahead[ino]? = none
  kept : ∀ (j : Nat) other, j ≠ id → m.calls[j]? = some other → Changing other →
    m'.readahead[ino]? = none
  taken : Guarding (c, next) → next.taken = true → m'.dirty.runs[ino]? = none ∧
    ∀ (j : Nat) other, j ≠ id → m.calls[j]? = some other → other.2.pending = []
  waited : Guarding (c, next) → next.waited = true → ∀ p, m'.pipeline = some p → p.inflight = []
  takenBy : ∀ (j : Nat) other, j ≠ id → m.calls[j]? = some other → Guarding other →
    other.2.taken = true → m'.dirty.runs[ino]? = none ∧ next.pending = []
  waitedBy : ∀ (j : Nat) other, j ≠ id → m.calls[j]? = some other → Guarding other →
    other.2.waited = true → ∀ p, m'.pipeline = some p → p.inflight = []

variable {ino : Nat} {m m' : Mount} {id : Nat} {c : Call} {phase next : Phase}

section

variable (h : m.Shape ino) (hcall : m.calls[id]? = some (c, phase))
include h hcall

theorem Shape.arrive (hrun : phase.isOver = false) (hs : Shifted ino m id c next m') :
    (m'.arrive id c next).Shape ino := by
  have hlt := Program.lt_of_getElem? hcall
  have hget : ∀ {i : Nat} {call}, (m'.arrive id c next).calls[i]? = some call ↔
      i = id ∧ call = (c, next) ∨ i ≠ id ∧ m.calls[i]? = some call := calls_arrive hs.calls hlt
  have hmem : ∀ {call}, call ∈ (m'.arrive id c next).calls →
      call = (c, next) ∨ ∃ i : Nat, i ≠ id ∧ m.calls[i]? = some call := by
    intro call hc
    obtain ⟨i, hi⟩ := mem_iff_getElem?.mp hc
    exact (hget.mp hi).imp (·.2) fun hold => ⟨i, hold⟩
  refine ⟨hs.own, fun call hc => ?_, fun i j a b hne hi hj ha hb => ?_, fun i c' left r hi => ?_,
    fun call hc => ?_, fun call hc => ?_, hs.flight, fun call hc hch => ?_, fun i call hi hg ht => ?_,
    fun call hc hg hw => ?_⟩
  · rcases hmem hc with rfl | ⟨i, -, hi⟩
    · exact ⟨(h.kinds _ (mem_of_getElem? hcall)).1, hs.fits⟩
    · exact h.kinds call (mem_of_getElem? hi)
  · rcases hget.mp hi with ⟨rfl, rfl⟩ | ⟨-, hold⟩ <;>
      rcases hget.mp hj with ⟨rfl, rfl⟩ | ⟨-, hold'⟩
    · exact absurd rfl hne
    · exact h.apart i j (c, phase) b hne hcall hold' hrun hb
    · exact h.apart i j a (c, phase) hne hold hcall ha hrun
    · exact h.apart i j a b hne hold hold' ha hb
  · rcases hget.mp hi with ⟨rfl, heq⟩ | ⟨hi', hi⟩
    · cases heq
      exact hs.lock left r rfl
    · exact hs.others i c' left r hi' hi
  · rcases hmem hc with rfl | ⟨i, -, hi⟩
    · exact hs.clean
    · exact h.clean call (mem_of_getElem? hi)
  · rcases hmem hc with rfl | ⟨i, -, hi⟩
    · exact hs.hands
    · exact h.hands call (mem_of_getElem? hi)
  · rcases hmem hc with rfl | ⟨i, hne, hi⟩
    · exact hs.dropped hch
    · exact hs.kept i call hne hi hch
  · rcases hget.mp hi with ⟨rfl, rfl⟩ | ⟨hi', hi⟩
    · refine (hs.taken hg ht).imp id fun hall j other hj hother => ?_
      rcases hget.mp hother with ⟨rfl, -⟩ | ⟨-, hother⟩
      · exact absurd rfl hj
      · exact hall j other hj hother
    · obtain ⟨hruns, hpend⟩ := hs.takenBy i call hi' hi hg ht
      refine ⟨hruns, fun j other hj hother => ?_⟩
      rcases hget.mp hother with ⟨rfl, rfl⟩ | ⟨-, hother⟩
      · exact hpend
      · exact (h.taken i call hi hg ht).2 j other hj hother
  · rcases hmem hc with rfl | ⟨i, hne, hi⟩
    · exact hs.waited hg hw
    · exact hs.waitedBy i call hne hi hg hw

/-- A step that leaves buffer, lock and pipeline alone, by a call with nothing in hand. -/
theorem Shifted.idle (hrun : phase.isOver = false) (hcalls : m'.calls = m.calls)
    (hdirty : m'.dirty = m.dirty) (hlock : m'.lock = m.lock) (hpipe : m'.pipeline = m.pipeline)
    (hfits : Fits c next)
    (hplain : next.pending = [] ∧ (∀ left r, next ≠ .dispatch left r) ∧ ∀ r, next ≠ .wait r)
    (hdropped : Changing (c, next) → m'.readahead[ino]? = none)
    (hkept : m'.readahead[ino]? = none ∨ m'.readahead[ino]? = m.readahead[ino]? ∨ c.guards = true)
    (htaken : next.isOver = false → next.taken = true → phase.taken = true)
    (hwaited : next.isOver = false → next.waited = true → phase.waited = true) :
    Shifted ino m id c next m' := by
  have hmem := mem_of_getElem? hcall
  have hguard : Guarding (c, next) → Guarding (c, phase) := fun hg => ⟨hg.1, hrun⟩
  refine ⟨hcalls, hdirty ▸ h.own, hfits, fun left r heq => absurd heq (hplain.2.1 left r),
    fun j c' left r hne hj => hlock ▸ h.lock j c' left r hj,
    ⟨fun left r heq => absurd heq (hplain.2.1 left r), fun r heq => absurd heq (hplain.2.2 r)⟩,
    by simp [hplain.1], hpipe ▸ h.flight, hdropped, fun j other hne hj hch => ?_,
    fun hg ht => ?_, fun hg hw => ?_, fun j other hne hj hg ht => ?_, fun j other hne hj hg hw => ?_⟩
  · rcases hkept with hnone | hsame | hguards
    · exact hnone
    · rw [hsame]
      exact h.dropped other (mem_of_getElem? hj) hch
    · -- a read overlaps no change
      have hcomp := h.apart id j (c, phase) other hne.symm hcall hj hrun hch.2.2
      rw [compatible_eq_false hguards hch.1] at hcomp
      cases hcomp
  · rw [hdirty]
    exact h.taken id _ hcall (hguard hg) (htaken hg.2 ht)
  · rw [hpipe]
    exact h.waited _ hmem (hguard hg) (hwaited hg.2 hw)
  · rw [hdirty]
    exact ⟨(h.taken j other hj hg ht).1, hplain.1⟩
  · rw [hpipe]
    exact h.waited other (mem_of_getElem? hj) hg hw

theorem Shifted.blocked : Shifted ino m id c phase m := by
  have hmem := mem_of_getElem? hcall
  exact ⟨rfl, h.own, (h.kinds _ hmem).2, fun left r heq => h.lock id c left r (heq ▸ hcall),
    fun j c' left r _ hj => h.lock j c' left r hj, h.clean _ hmem, h.hands _ hmem, h.flight,
    h.dropped _ hmem, fun j other _ hj => h.dropped other (mem_of_getElem? hj),
    h.taken id _ hcall, h.waited _ hmem,
    fun j other hne hj hg ht => ⟨(h.taken j other hj hg ht).1, (h.taken j other hj hg ht).2 id _ hne.symm hcall⟩,
    fun j other _ hj => h.waited other (mem_of_getElem? hj)⟩

end

/-- While one call guards, no other changes the file. -/
theorem Shape.not_changes (h : m.Shape ino) {i j : Nat} {a b : Call × Phase} (hne : i ≠ j)
    (hi : m.calls[i]? = some a) (hj : m.calls[j]? = some b) (ha : Guarding a)
    (hb : b.2.isOver = false) : b.1.changes = false := by
  by_contra hch
  have hcomp := h.apart i j a b hne hi hj ha.2 hb
  rw [compatible_eq_false ha.1 (eq_true_of_not_eq_false hch)] at hcomp
  cases hcomp

/-- Nobody else has runs in hand while the lock is free, except for a write around the buffer. -/
theorem Shape.pending_of_free (h : m.Shape ino) (hfree : m.lock = none) {j : Nat}
    {call : Call × Phase} (hj : m.calls[j]? = some call) :
    call.2.pending = [] ∨ call.1.guards = true ∧ call.1.changes = true ∧ call.2.isOver = false ∧
      call.2.taken = true := by
  obtain ⟨c, p⟩ := call
  cases p with
  | dispatch left r =>
    rw [h.lock j c left r hj] at hfree
    cases hfree
  | send run =>
    have hfits := (h.kinds _ (mem_of_getElem? hj)).2
    cases hfits
    exact .inr ⟨rfl, rfl, rfl, rfl⟩
  | _ => exact .inl rfl

/-- What the step that the call is at leaves. -/
abbrev Shifts (ino : Nat) (m : Mount) (id : Nat) (c : Call) (failure : Option Errno) (phase : Phase) :
    Prop :=
  Shifted ino m id c (m.advance id c failure phase).1 (m.advance id c failure phase).2

theorem shifted_buffer {ino' offset : Nat} {data : Bytes} (h : m.Shape ino)
    (hcall : m.calls[id]? = some (.write ino' offset data, .buffer)) (failure : Option Errno) :
    Shifts ino m id (.write ino' offset data) failure .buffer := by
  have hmem := mem_of_getElem? hcall
  have hino : ino' = ino := by simpa [on] using (h.kinds _ hmem).1
  subst hino
  have hown : m.dirty.Own := fun i run hrun => (h.own i run hrun).2.trans (h.own i run hrun).1.symm
  dsimp only [Shifts, advance]
  split
  · exact .blocked h hcall
  rename_i hfree
  have hfree : m.lock = none := by simpa using hfree
  obtain ⟨hout, hown'⟩ : (∀ run ∈ (m.dirty.write ino' offset data).1, run.ino = ino') ∧
      (m.dirty.write ino' offset data).2.Own := hown.write
  have hnone : ∀ (j : Nat) other, j ≠ id → m.calls[j]? = some other → ¬ Guarding other := by
    intro j other hne hj hg
    have := h.not_changes hne hj hcall hg rfl
    cases this
  refine ⟨rfl, fun i run hrun => ?_, .buffered, fun _ _ _ => rfl, fun j c' left r hne hj => ?_,
    ⟨fun left r heq => ?_, nofun⟩, hout, h.flight, fun _ => h.dropped _ hmem ⟨rfl, nofun, rfl⟩,
    fun j other hne hj hch => h.dropped other (mem_of_getElem? hj) hch, fun hg => ?_,
    fun hg => ?_, fun j other hne hj hg => absurd hg (hnone j other hne hj),
    fun j other hne hj hg => absurd hg (hnone j other hne hj)⟩
  · by_cases hi : i = ino'
    · exact ⟨hi, (hown' i run hrun).trans hi⟩
    · rw [write_other hi] at hrun
      exact h.own i run hrun
  · rw [h.lock j c' left r hj] at hfree
    cases hfree
  · cases heq
    rfl
  · cases hg.1
  · cases hg.1

theorem ino_of_on (h : c.on ino = true) : c ≠ .flushAll ∧ c.ino = some ino := by
  cases c with
  | setattr i size => cases size <;> simp_all [Call.on, Call.ino]
  | unlink found => cases h
  | _ => first | cases h | (simp_all [Call.on, Call.ino])

theorem shifted_take (h : m.Shape ino) (hcall : m.calls[id]? = some (c, .take)) (failure : Option Errno) :
    Shifts ino m id c failure .take := by
  have hmem := mem_of_getElem? hcall
  obtain ⟨hon, hfits⟩ := h.kinds _ hmem
  obtain ⟨hall, hino⟩ := ino_of_on hon
  have hc : c.flushes = true := by
    cases hfits with
    | take hc => exact hc
  rw [Shifts, advance_take m id failure hall, hino]
  split
  · exact .blocked h hcall
  rename_i hfree
  have hfree : m.lock = none := by simpa using hfree
  refine ⟨rfl, fun i run hrun => ?_, .dispatch hc, fun _ _ _ => rfl, fun j c' left r hne hj => ?_,
    ⟨fun left r heq => ?_, nofun⟩, fun run hrun => (h.own ino run (mem_toList.mp hrun)).2,
    h.flight, fun hch => h.dropped _ hmem ⟨hch.1, nofun, rfl⟩,
    fun j other hne hj hch => h.dropped other (mem_of_getElem? hj) hch,
    fun hg _ => ⟨getElem?_erase_self, fun j other hne hj => ?_⟩, nofun,
    fun j other hne hj hg ht => ⟨getElem?_erase_self, ?_⟩,
    fun j other hne hj => h.waited other (mem_of_getElem? hj)⟩
  · dsimp only [WriteBack.take] at hrun
    exact h.own i run (Program.getElem?_of_erase hrun)
  · rw [h.lock j c' left r hj] at hfree
    cases hfree
  · cases heq
    rfl
  · refine (h.pending_of_free hfree hj).resolve_right fun ⟨_, hch, hover, _⟩ => ?_
    have hno := h.not_changes hne.symm hcall hj ⟨hg.1, rfl⟩ hover
    rw [hno] at hch
    cases hch
  · show (m.dirty.runs[ino]?).toList = []
    rw [(h.taken j other hj hg ht).1]
    rfl

/-- No other call guards while this one has a run in hand. -/
theorem Shape.not_taken (h : m.Shape ino) (hcall : m.calls[id]? = some (c, phase))
    (hpend : phase.pending ≠ []) {j : Nat} {other : Call × Phase} (hne : j ≠ id)
    (hj : m.calls[j]? = some other) (hg : Guarding other) : other.2.taken = false := by
  by_contra ht
  exact hpend ((h.taken j other hj hg (eq_true_of_not_eq_false ht)).2 id _ hne.symm hcall)

theorem shifted_dispatch {run : Dirty} {left : List Dirty} {r : Option Errno} (runs : List Dirty)
    (h : m.Shape ino) (hcall : m.calls[id]? = some (c, .dispatch (run :: left) r))
    (hcalls : m'.calls = m.calls) (hdirty : m'.dirty = m.dirty) (hlock : m'.lock = m.lock)
    (hahead : m'.readahead = m.readahead) (hruns : ∀ r ∈ runs, r.ino = run.ino)
    (hflight : ∀ p, m'.pipeline = some p → p.errors = ∅ ∧
      p.inflight.Pairwise (fun a b => overlaps a b = false) ∧ ∀ run ∈ p.inflight, run.ino = ino) :
    Shifted ino m id c (.dispatch (runs ++ left) r) m' := by
  have hmem := mem_of_getElem? hcall
  have hfits : Fits c (.dispatch (runs ++ left) r) := by
    have := (h.kinds _ hmem).2
    cases this with
    | buffered => exact .buffered
    | dispatch hc => exact .dispatch hc
  have hnot : ∀ {j : Nat} {other : Call × Phase}, j ≠ id → m.calls[j]? = some other →
      Guarding other → other.2.taken = false := h.not_taken hcall (cons_ne_nil run left)
  refine ⟨hcalls, hdirty ▸ h.own, hfits, fun _ _ _ => hlock ▸ h.lock id c _ r hcall,
    fun j c' left' r' _ hj => hlock ▸ h.lock j c' left' r' hj,
    ⟨fun left' r' heq => ?_, nofun⟩, fun r' hr => ?_, hflight,
    fun hch => hahead ▸ h.dropped _ hmem ⟨hch.1, nofun, rfl⟩,
    fun j other _ hj hch => hahead ▸ h.dropped other (mem_of_getElem? hj) hch,
    fun hg _ => hdirty ▸ h.taken id _ hcall ⟨hg.1, rfl⟩ rfl, nofun,
    fun j other hne hj hg ht => ?_, fun j other hne hj hg hw => ?_⟩
  · cases heq
    exact (h.clean _ hmem).1 _ _ rfl
  · rcases mem_append.mp hr with hr | hr
    · rw [hruns r' hr]
      exact h.hands _ hmem run mem_cons_self
    · exact h.hands _ hmem r' (mem_cons_of_mem _ hr)
  · rw [hnot hne hj hg] at ht
    cases ht
  · have := Phase.taken_of_waited hw
    rw [hnot hne hj hg] at this
    cases this

theorem overlaps_comm (a b : Dirty) : overlaps a b = overlaps b a := by
  unfold overlaps
  rw [Bool.eq_iff_iff]
  simp only [and_eq_true, decide_eq_true_eq]
  omega

theorem submit_apart {p p' : Pipeline} {run : Dirty} (h : p.submit run = some p')
    (hflight : p.errors = ∅ ∧ p.inflight.Pairwise (fun a b => overlaps a b = false) ∧
      ∀ run ∈ p.inflight, run.ino = ino) (hino : run.ino = ino) :
    p'.errors = ∅ ∧ p'.inflight.Pairwise (fun a b => overlaps a b = false) ∧ ∀ run ∈ p'.inflight, run.ino = ino := by
  unfold submit at h
  split at h
  · cases h
  rename_i hok
  obtain rfl := some.inj h
  obtain ⟨herr, hpair, hall⟩ := hflight
  have hperm : (inflight { p with queue := p.queue ++ [run] }).Perm (run :: p.inflight) := by
    unfold inflight
    rw [append_assoc]
    exact perm_middle
  refine ⟨herr, ?_, fun r hr => ?_⟩
  · refine (hperm.pairwise_iff fun {a b} hab => ?_).mpr (pairwise_cons.mpr ⟨fun r hr => ?_, hpair⟩)
    · rw [overlaps_comm, hab]
    · have hany : p.inflight.any (overlaps run) = false := by simpa using (not_or.mp hok).2
      simpa using any_eq_false.mp hany r hr
  · rcases mem_cons.mp (hperm.mem_iff.mp hr) with rfl | hr
    · exact hino
    · exact hall r hr

theorem shifted_handOn {left : List Dirty} {r : Option Errno} (h : m.Shape ino)
    (hcall : m.calls[id]? = some (c, .dispatch left r)) :
    Shifts ino m id c none (.dispatch left r) := by
  have hmem := mem_of_getElem? hcall
  have hlock := h.lock id c left r hcall
  cases left with
  | nil =>
    have hfits := (h.kinds _ hmem).2.advance m id none
    have hres : r = none := (h.clean _ hmem).1 _ _ rfl
    subst hres
    refine ⟨rfl, h.own, hfits, fun left r heq => ?_, fun j c' left r hne hj => ?_,
      ⟨fun left r heq => ?_, fun r heq => ?_⟩, ?_, h.flight, fun hch => h.dropped _ hmem ⟨hch.1, nofun, rfl⟩,
      fun j other _ hj hch => h.dropped other (mem_of_getElem? hj) hch,
      fun hg _ => h.taken id _ hcall ⟨hg.1, rfl⟩ rfl, fun hg hw => ?_,
      fun j other hne hj hg ht => ⟨(h.taken j other hj hg ht).1, ?_⟩,
      fun j other _ hj => h.waited other (mem_of_getElem? hj)⟩
    · cases c <;> cases heq
    · have := h.lock j c' left r hj
      rw [hlock] at this
      exact absurd (some.inj this).symm hne
    · cases c <;> cases heq
    · cases c <;> cases heq <;> rfl
    · cases c <;> exact nofun
    · obtain ⟨hgu, hover⟩ := hg
      cases c <;> first | (cases hgu; done) | cases hw
    · cases c <;> rfl
  | cons run left =>
    dsimp only [Shifts, advance]
    split
    · rename_i p hp
      split
      · exact .blocked h hcall
      · rename_i p' hsubmit
        refine shifted_dispatch [] h hcall rfl rfl rfl rfl nofun fun q hq => ?_
        obtain rfl := some.inj hq
        exact submit_apart hsubmit (h.flight p hp) (h.hands _ hmem run mem_cons_self)
    split
    · exact shifted_dispatch [] h hcall rfl rfl rfl rfl nofun h.flight
    · exact shifted_dispatch [m.rest run] h hcall rfl rfl rfl rfl (fun r' hr => mem_singleton.mp hr ▸ rfl) h.flight

theorem shifted_wait {r : Option Errno} (h : m.Shape ino) (hcall : m.calls[id]? = some (c, .wait r)) :
    Shifts ino m id c none (.wait r) := by
  have hmem := mem_of_getElem? hcall
  obtain ⟨hon, hfits⟩ := h.kinds _ hmem
  obtain ⟨hall, hino⟩ := ino_of_on hon
  have hres : r = none := (h.clean _ hmem).2 r rfl
  subst hres
  have hc : c.flushes = true := by
    cases hfits with
    | wait hc => exact hc
  -- the flush found nothing in flight and no failure
  have hdone : ∀ {m' : Mount}, m'.calls = m.calls → m'.dirty = m.dirty → m'.lock = m.lock →
      m'.readahead = m.readahead → (∀ p, m'.pipeline = some p → p.errors = ∅ ∧ p.inflight = []) →
      Shifted ino m id c (c.flushed none) m' := by
    intro m' hcalls hdirty hlock hahead hpipe
    have hplain : (∀ left r, c.flushed none ≠ .dispatch left r) ∧ ∀ r, c.flushed none ≠ .wait r := by
      cases c <;> exact ⟨nofun, nofun⟩
    have hhands : ∀ run ∈ (c.flushed none).pending, run.ino = ino := by
      intro run hrun
      cases c with
      | writeThrough i offset data =>
        rw [mem_singleton.mp hrun]
        exact some.inj hino
      | _ => cases hrun
    refine ⟨hcalls, hdirty ▸ h.own, .flushed hc none, fun left r heq => absurd heq (hplain.1 left r),
      fun j c' left r _ hj => hlock ▸ h.lock j c' left r hj,
      ⟨fun left r heq => absurd heq (hplain.1 left r), fun r heq => absurd heq (hplain.2 r)⟩, hhands,
      fun p hp => ?_, fun hch => hahead ▸ h.dropped _ hmem ⟨hch.1, nofun, rfl⟩,
      fun j other _ hj hch => hahead ▸ h.dropped other (mem_of_getElem? hj) hch,
      fun hg _ => hdirty ▸ h.taken id _ hcall ⟨hg.1, rfl⟩ rfl, fun _ _ p hp => (hpipe p hp).2,
      fun j other hne hj hg ht => ⟨hdirty ▸ (h.taken j other hj hg ht).1, ?_⟩,
      fun j other _ hj _ _ p hp => (hpipe p hp).2⟩
    · rw [(hpipe p hp).1, (hpipe p hp).2]
      exact ⟨rfl, List.Pairwise.nil, nofun⟩
    · have hno := h.not_changes hne hj hcall hg rfl
      cases c <;> first | rfl | cases hno
  dsimp only [Shifts, advance]
  split
  · rename_i hp
    refine hdone rfl rfl rfl rfl fun p hp' => ?_
    rw [hp] at hp'
    cases hp'
  · rename_i p hp
    rw [if_neg hall, hino]
    obtain ⟨herr, -, hmine⟩ := h.flight p hp
    split
    · exact .blocked h hcall
    rename_i e p' hwait
    obtain ⟨hnone, rfl, rfl⟩ := wait_eq_some hwait
    have hfound : (p.errors[(some ino).getD 0]?).or none = none := by rw [herr]; simp
    rw [hfound]
    refine hdone rfl rfl rfl rfl fun q hq => ?_
    obtain rfl := some.inj hq
    refine ⟨by rw [herr]; simp, eq_nil_iff_forall_not_mem.mpr fun run hrun => ?_⟩
    exact hnone run hrun (hmine run hrun)

theorem shifted_send {ino' offset : Nat} {data : Bytes} {run : Dirty} (h : m.Shape ino)
    (hcall : m.calls[id]? = some (.writeThrough ino' offset data, .send run)) :
    Shifts ino m id (.writeThrough ino' offset data) none (.send run) := by
  have hmem := mem_of_getElem? hcall
  have hnot : ∀ {j : Nat} {other : Call × Phase}, j ≠ id → m.calls[j]? = some other → ¬ Guarding other := by
    intro j other hne hj hg
    have := h.not_changes hne hj hcall hg rfl
    cases this
  have hdone : ∀ {m' : Mount} {next : Phase}, m'.calls = m.calls → m'.dirty = m.dirty →
      m'.lock = m.lock → m'.readahead = m.readahead → m'.pipeline = m.pipeline →
      next = .done (.written data.length) ∨ next = .send (m.rest run) →
      Shifted ino m id (.writeThrough ino' offset data) next m' := by
    intro m' next hcalls hdirty hlock hahead hpipe hnext
    refine ⟨hcalls, hdirty ▸ h.own, ?_, ?_, fun j c' left r _ hj => hlock ▸ h.lock j c' left r hj, ?_, ?_,
      hpipe ▸ h.flight, fun _ => hahead ▸ h.dropped _ hmem ⟨rfl, nofun, rfl⟩,
      fun j other _ hj hch => hahead ▸ h.dropped other (mem_of_getElem? hj) hch,
      fun _ _ => hdirty ▸ h.taken id _ hcall ⟨rfl, rfl⟩ rfl,
      fun _ _ => hpipe ▸ h.waited _ hmem ⟨rfl, rfl⟩ rfl,
      fun j other hne hj hg => absurd hg (hnot hne hj), fun j other hne hj hg => absurd hg (hnot hne hj)⟩ <;>
      rcases hnext with rfl | rfl
    · exact .done
    · exact .send
    · exact nofun
    · exact nofun
    · exact ⟨nofun, nofun⟩
    · exact ⟨nofun, nofun⟩
    · exact nofun
    · intro r hr
      rw [mem_singleton.mp hr]
      exact h.hands _ hmem run (mem_singleton.mpr rfl)
  dsimp only [Shifts, advance]
  split
  · exact hdone rfl rfl rfl rfl rfl (.inl rfl)
  · exact hdone rfl rfl rfl rfl rfl (.inr rfl)

theorem dropped_of_on (hon : c.on ino = true) : c.dropped = .check ∨ c.dropped = .take := by
  cases c with
  | write i offset data => exact .inl rfl
  | setattr i size =>
    cases size with
    | none => cases hon
    | some size => exact .inr rfl
  | _ => exact .inr rfl

theorem shifted (h : m.Shape ino) (hcall : m.calls[id]? = some (c, phase)) (hrun : phase.isOver = false) :
    Shifts ino m id c none phase := by
  have hmem := mem_of_getElem? hcall
  obtain ⟨hon, hfits⟩ := h.kinds _ hmem
  have hnext := hfits.advance m id none
  obtain ⟨hall, hino⟩ := ino_of_on hon
  cases hfits with
  | drop hc =>
    have hgone : (m.readahead.erase (c.ino.getD 0))[ino]? = none := by
      rw [hino]
      exact getElem?_erase_self
    have hdrop := dropped_of_on hon
    refine .idle h hcall hrun rfl rfl rfl rfl hnext ?_ (fun _ => hgone) (.inl hgone) ?_ ?_ <;>
      (dsimp only [advance]; rcases hdrop with heq | heq <;> rw [heq])
    · exact ⟨rfl, nofun, nofun⟩
    · exact ⟨rfl, nofun, nofun⟩
    all_goals exact nofun
  | check =>
    have hok : (m.pipeline.bind fun p => p.failed ino) = none := by
      cases hp : m.pipeline with
      | none => rfl
      | some p =>
        show p.errors[ino]? = none
        rw [(h.flight p hp).1]
        rfl
    dsimp only [Shifts, advance]
    rw [hino, getD_some, hok]
    exact .idle h hcall hrun rfl rfl rfl rfl .buffer ⟨rfl, nofun, nofun⟩
      (fun _ => h.dropped _ hmem ⟨rfl, nofun, rfl⟩) (.inr (.inl rfl)) nofun nofun
  | buffer => exact shifted_buffer h hcall none
  | buffered | dispatch => exact shifted_handOn h hcall
  | take hc => exact shifted_take h hcall none
  | wait hc => exact shifted_wait h hcall
  | cached =>
    dsimp only [Shifts, advance]
    split
    · exact .idle h hcall hrun rfl rfl rfl rfl .answer ⟨rfl, nofun, nofun⟩ (nofun ∘ And.left)
        (.inr (.inl rfl)) (fun _ _ => rfl) fun _ _ => rfl
    · exact .idle h hcall hrun rfl rfl rfl rfl .sequential ⟨rfl, nofun, nofun⟩ (nofun ∘ And.left)
        (.inr (.inl rfl)) (fun _ _ => rfl) fun _ _ => rfl
  | answer =>
    exact .idle h hcall hrun rfl rfl rfl rfl hnext ⟨rfl, nofun, nofun⟩ (nofun ∘ And.left) (.inr (.inl rfl)) nofun nofun
  | sequential =>
    exact .idle h hcall hrun rfl rfl rfl rfl hnext ⟨rfl, nofun, nofun⟩ (nofun ∘ And.left)
      (.inr (.inl rfl)) (fun _ _ => rfl) fun _ _ => rfl
  | fetch =>
    dsimp only [Shifts, advance]
    split
    · exact .idle h hcall hrun rfl rfl rfl rfl .keep ⟨rfl, nofun, nofun⟩ (nofun ∘ And.left)
        (.inr (.inl rfl)) (fun _ _ => rfl) fun _ _ => rfl
    split
    · exact .idle h hcall hrun rfl rfl rfl rfl .keep ⟨rfl, nofun, nofun⟩ (nofun ∘ And.left)
        (.inr (.inl rfl)) (fun _ _ => rfl) fun _ _ => rfl
    · exact .idle h hcall hrun rfl rfl rfl rfl .fetch ⟨rfl, nofun, nofun⟩ (nofun ∘ And.left)
        (.inr (.inl rfl)) (fun _ _ => rfl) fun _ _ => rfl
  | keep =>
    dsimp only [Shifts, advance]
    split
    · exact .idle h hcall hrun rfl rfl rfl rfl .done ⟨rfl, nofun, nofun⟩ (nofun ∘ And.left)
        (.inr (.inr rfl)) nofun nofun
    · exact .idle h hcall hrun rfl rfl rfl rfl .done ⟨rfl, nofun, nofun⟩ (nofun ∘ And.left)
        (.inr (.inl rfl)) nofun nofun
  | fetchDirect => cases hon
  | send => exact shifted_send h hcall
  | cut =>
    rename_i i size
    dsimp only [Shifts, advance]
    split
    · exact .blocked h hcall
    · -- the flush before took what was buffered
      have hnone : m.dirty.runs[i]? = none := by
        rw [some.inj hino]
        exact (h.taken id _ hcall ⟨rfl, rfl⟩ rfl).1
      have hsame : m.dirty.truncate i size = m.dirty := by rw [truncate, hnone]
      exact .idle h hcall hrun rfl hsame rfl rfl .attr ⟨rfl, nofun, nofun⟩
        (fun _ => h.dropped _ hmem ⟨rfl, nofun, rfl⟩) (.inr (.inl rfl)) (fun _ _ => rfl) fun _ _ => rfl
  | attr =>
    rename_i i size
    cases size <;> exact .idle h hcall hrun rfl rfl rfl rfl .done ⟨rfl, nofun, nofun⟩ (nofun ∘ And.right ∘ And.right)
      (.inr (.inl rfl)) nofun nofun
  | done => cases hrun
  | _ => cases hon

/-! ### Background and new calls -/

/-- What is in flight is still in flight, or gone. -/
def Fewer (p p' : Pipeline) : Prop :=
  p'.errors = p.errors ∧ ∃ runs, p'.inflight.Perm runs ∧ runs.Sublist p.inflight

theorem Shape.background (h : m.Shape ino) (hcalls : m'.calls = m.calls) (hdirty : m'.dirty = m.dirty)
    (hlock : m'.lock = m.lock)
    (hahead : m'.readahead[ino]? = none ∨ m'.readahead[ino]? = m.readahead[ino]?)
    (hpipe : ∀ p', m'.pipeline = some p' → ∃ p, m.pipeline = some p ∧ Fewer p p') :
    m'.Shape ino := by
  refine ⟨hdirty ▸ h.own, hcalls ▸ h.kinds, hcalls ▸ h.apart, hcalls ▸ hlock ▸ h.lock,
    hcalls ▸ h.clean, hcalls ▸ h.hands, fun p' hp' => ?_, fun call hc hch => ?_,
    hcalls ▸ hdirty ▸ h.taken, fun call hc hg hw p' hp' => ?_⟩
  · obtain ⟨p, hp, herr, runs, hperm, hsub⟩ := hpipe p' hp'
    obtain ⟨herr', hpair, hmine⟩ := h.flight p hp
    refine ⟨herr.trans herr', (hperm.pairwise_iff fun {a b} hab => ?_).mpr (hpair.sublist hsub),
      fun run hrun => hmine run (hsub.subset (hperm.mem_iff.mp hrun))⟩
    rw [overlaps_comm, hab]
  · rcases hahead with hnone | hsame
    · exact hnone
    · rw [hsame]
      exact h.dropped call (hcalls ▸ hc) hch
  · obtain ⟨p, hp, -, runs, hperm, hsub⟩ := hpipe p' hp'
    have hnil := h.waited call (hcalls ▸ hc) hg hw p hp
    rw [hnil] at hsub
    rw [sublist_nil.mp hsub] at hperm
    exact hperm.eq_nil

theorem fewer_pop (p : Pipeline) : Fewer p p.pop := by
  unfold pop
  split
  · rename_i run queue hqueue
    split
    · refine ⟨rfl, p.inflight, ?_, refl _⟩
      unfold inflight
      rw [hqueue]
      simp only [map_append, map_cons, map_nil]
      rw [← append_assoc]
      exact perm_append_comm
    · exact ⟨rfl, _, List.Perm.refl _, refl _⟩
  · exact ⟨rfl, _, List.Perm.refl _, refl _⟩

theorem fewer_work {p : Pipeline} (hp : m.pipeline = some p) (worker : Nat) :
    ∃ p', (m.work worker none).pipeline = some p' ∧ Fewer p p' := by
  unfold work
  rw [hp]
  dsimp only
  split
  · exact ⟨p, hp, rfl, _, List.Perm.refl _, refl _⟩
  rename_i s hs
  split
  · refine ⟨_, rfl, rfl, _, List.Perm.refl _, ?_⟩
    exact (refl _).append ((eraseIdx_sublist _ _).map _)
  · refine ⟨_, rfl, rfl, p.inflight, ?_, refl _⟩
    have hsame : (p.sending.set worker ⟨s.run, s.sent + (m.chunk s.left).data.length⟩).map Sending.run =
        p.sending.map Sending.run := by
      obtain ⟨hlt, rfl⟩ := List.getElem?_eq_some_iff.mp hs
      have hlt' : worker < (p.sending.map Sending.run).length := by simpa using hlt
      have hget : p.sending[worker].run = (p.sending.map Sending.run)[worker] := by simp
      rw [map_set, hget, set_getElem_self]
    rw [inflight, inflight, hsame]

theorem start_plain (hon : c.on ino = true) : c.start.isOver = false ∧ c.start.pending = [] ∧
    c.start.taken = false ∧ (∀ left r, c.start ≠ .dispatch left r) ∧ (∀ r, c.start ≠ .wait r) ∧
      ¬ Changing (c, c.start) := by
  have hdrop : c.changes = true → c.start = .drop := by
    cases c <;> first | exact fun _ => rfl | exact nofun
  have hstart : c.start = .drop ∨ c.start = .take := by
    cases c <;> first | exact .inl rfl | exact .inr rfl | cases hon
  refine ⟨?_, ?_, ?_, ?_, ?_, fun hch => hch.2.1 (hdrop hch.1)⟩ <;>
    rcases hstart with heq | heq <;> rw [heq] <;> first | rfl | exact nofun

theorem Shape.call (h : m.Shape ino) (hon : c.on ino = true)
    (hcomp : ∀ call ∈ m.calls, call.2.isOver = true ∨ c.compatible call.1 = true) :
    (m.step (.call c)).Shape ino := by
  obtain ⟨hover, hpend, htaken, hdisp, hwait, hch⟩ := start_plain hon
  have hmem : ∀ {call}, call ∈ (m.step (.call c)).calls → call ∈ m.calls ∨ call = (c, c.start) :=
    fun hc => (mem_append.mp hc).imp_right mem_singleton.mp
  have hnew : ∀ {call}, call ∈ m.calls → call.2.isOver = false → c.compatible call.1 = true := by
    intro call hc hover'
    exact (hcomp call hc).resolve_left (by rw [hover']; exact nofun)
  refine ⟨h.own, fun call hc => ?_, fun i j a b hne hi hj ha hb => ?_, fun i c' left r hi => ?_,
    fun call hc => ?_, fun call hc => ?_, h.flight, fun call hc hch' => ?_, fun i call hi hg ht => ?_,
    fun call hc hg hw => ?_⟩
  · rcases hmem hc with hc | rfl
    · exact h.kinds call hc
    · exact ⟨hon, .start c⟩
  · rcases calls_call.mp hi with hi | ⟨rfl, rfl⟩ <;> rcases calls_call.mp hj with hj | ⟨rfl, rfl⟩
    · exact h.apart i j a b hne hi hj ha hb
    · rw [compatible_comm]
      exact hnew (mem_of_getElem? hi) ha
    · exact hnew (mem_of_getElem? hj) hb
    · exact absurd rfl hne
  · rcases calls_call.mp hi with hi | ⟨-, heq⟩
    · exact h.lock i c' left r hi
    · exact absurd (congrArg Prod.snd heq).symm (hdisp left r)
  · rcases hmem hc with hc | rfl
    · exact h.clean call hc
    · exact ⟨fun left r heq => absurd heq (hdisp left r), fun r heq => absurd heq (hwait r)⟩
  · rcases hmem hc with hc | rfl
    · exact h.hands call hc
    · simp [hpend]
  · rcases hmem hc with hc | rfl
    · exact h.dropped call hc hch'
    · exact absurd hch' hch
  · rcases calls_call.mp hi with hi | ⟨rfl, rfl⟩
    · refine (h.taken i call hi hg ht).imp id fun hall j other hj hother => ?_
      rcases calls_call.mp hother with hother | ⟨-, rfl⟩
      · exact hall j other hj hother
      · exact hpend
    · rw [htaken] at ht
      cases ht
  · rcases hmem hc with hc | rfl
    · exact h.waited call hc hg hw
    · have := Phase.taken_of_waited hw
      rw [htaken] at this
      cases this

end Mount

end AtlasNative.Fuse
