import AtlasNative.Catalog.Basic
import AtlasNative.Wal.Text

/-!
# Transfers of snapshots

Exports and imports are numbered as they are submitted and run by a worker. A submission forgets the
finished transfers that come first in the map, whose keys are texts, if there are too many.
-/

namespace AtlasNative.Node

open List Std ExtTreeMap

def keepFinished : Nat := 100

inductive Transfer.State where
  | queued | running | done | failed
deriving DecidableEq

inductive Transfer.Kind where
  | exporting | importing

structure Transfer where
  id : Text
  kind : Transfer.Kind
  exported : Text
  /-- The exported snapshot, or the volume imported into. -/
  source : Text
  state : Transfer.State := .queued
  done : Nat := 0
  total : Nat := 0
  error : Option Text := none
  /-- The JSON of the result. -/
  result : Option Text := none

def Transfer.isFinished (t : Transfer) : Bool := t.state = .done ∨ t.state = .failed

structure Transfer.Job where
  id : Text
  group : Nat

structure Transfers where
  next : Nat := 0
  all : BTreeMap Text Transfer := ∅
  queue : List Transfer.Job := []

namespace Transfers

/-- The id of the `n`-th transfer. -/
def idOf (n : Nat) : Text := 't' :: Nat.toDigits 10 n

/-- The ids of the finished transfers, in the order of the map. -/
def finished (all : BTreeMap Text Transfer) : List Text :=
  (all.toList.filter (·.2.isFinished)).map (·.2.id)

/-- The finished transfers to forget. -/
def old (all : BTreeMap Text Transfer) : List Text :=
  (finished all).take ((finished all).length - keepFinished)

def forget (all : BTreeMap Text Transfer) : BTreeMap Text Transfer := (old all).foldl (·.erase ·) all

variable (s : Transfers)

/-- Queues a transfer and returns its id. -/
def push (kind : Transfer.Kind) (group : Nat) (exported source : Text) : Text × Transfers :=
  let id := idOf (s.next + 1)
  let all := s.all.insert id { id, kind, exported, source }
  (id, ⟨s.next + 1, forget all, s.queue ++ [⟨id, group⟩]⟩)

def update (id : Text) (f : Transfer → Transfer) : Transfers :=
  match s.all[id]? with
  | none => s
  | some t => { s with all := s.all.insert id (f t) }

inductive Event where
  | push (kind : Transfer.Kind) (group : Nat) (exported source : Text)
  /-- The worker takes the next job. -/
  | start
  | progress (id : Text) (done total : Nat)
  | finish (id : Text) (result : Except Text Text)

def step : Transfers → Event → Transfers
  | s, .push kind group exported source => (s.push kind group exported source).2
  | s, .start =>
    match s.queue with
    | [] => s
    | job :: queue => { s with queue }.update job.id ({ · with state := .running })
  | s, .progress id done total => s.update id ({ · with done, total })
  | s, .finish id (.ok v) => s.update id ({ · with state := .done, result := some v })
  | s, .finish id (.error e) => s.update id ({ · with state := .failed, error := some e })

/-- The transfers after any submissions, progress and endings. -/
def run (events : List Event) : Transfers := events.foldl step {}

/-- The number of a transfer, by which `list` sorts. -/
def number (id : Text) : Nat := Nat.ofDigitChars 10 id.tail 0

/-- `x` was submitted before `y`. -/
abbrev Before (x y : Text) : Prop := number x < number y

/-- Finished transfers are in the map in the order of their submission. -/
abbrev KeyOrdered (all : BTreeMap Text Transfer) : Prop := (finished all).Pairwise Before

/-- The transfer of a job has not ended. -/
def Fresh (job : Transfer.Job) : Prop := ∀ t ∈ s.all[job.id]?, t.isFinished = false

/-- A submission meets the finished transfers in the order of their submission, and the worker takes up
no transfer that has ended. -/
def Orderly : Event → Prop
  | .push .. => KeyOrdered s.all
  | .start => ∀ job ∈ s.queue.head?, s.Fresh job
  | _ => True

def OrderlyRun (s : Transfers) : List Event → Prop
  | [] => True
  | e :: events => s.Orderly e ∧ (step s e).OrderlyRun events

instance : (e : Event) → Decidable (s.Orderly e)
  | .push .. => inferInstanceAs (Decidable (KeyOrdered s.all))
  | .start => inferInstanceAs (Decidable (∀ job ∈ s.queue.head?, ∀ t ∈ s.all[job.id]?, t.isFinished = false))
  | .finish .. | .progress .. => inferInstanceAs (Decidable True)

instance decidableOrderlyRun (s : Transfers) : (events : List Event) → Decidable (s.OrderlyRun events)
  | [] => inferInstanceAs (Decidable True)
  | e :: events =>
    have := decidableOrderlyRun (step s e) events
    inferInstanceAs (Decidable (_ ∧ _))

theorem number_idOf (n : Nat) : number (idOf n) = n := Nat.ofDigitChars_ten_toDigits

variable {s} {all : BTreeMap Text Transfer}

/-- Transfers are kept under their ids. -/
def Keyed (all : BTreeMap Text Transfer) : Prop := ∀ (k : Text) t, all[k]? = some t → t.id = k

section

variable (h : Keyed all)
include h

theorem mem_finished {k : Text} : k ∈ finished all ↔ ∃ t, all[k]? = some t ∧ t.isFinished = true := by
  simp only [finished, mem_map, mem_filter]
  constructor
  · rintro ⟨⟨k', t⟩, ⟨hin, hfin⟩, rfl⟩
    have hk := mem_toList_iff_getElem?_eq_some.mp hin
    exact ⟨t, h k' t hk ▸ hk, hfin⟩
  · rintro ⟨t, hk, hfin⟩
    exact ⟨(k, t), ⟨mem_toList_iff_getElem?_eq_some.mpr hk, hfin⟩, h k t hk⟩

theorem finished_sorted : (finished all).Pairwise fun x y => compare x y = .lt := by
  have hids : finished all = (all.toList.filter (·.2.isFinished)).map (·.1) :=
    map_congr_left fun x hx => h x.1 x.2 (mem_toList_iff_getElem?_eq_some.mp (mem_filter.mp hx).1)
  rw [hids, pairwise_map]
  exact ordered_keys_toList.sublist filter_sublist

theorem finished_nodup : (finished all).Nodup := by
  refine (finished_sorted h).imp ?_
  rintro x y hlt rfl
  rw [compare_self] at hlt
  cases hlt

theorem Keyed.insert {t : Transfer} {id : Text} (hid : t.id = id) : Keyed (all.insert id t) := by
  intro k t' hk
  rcases Program.getElem?_of_insert hk with ⟨rfl, rfl⟩ | hk
  · exact hid
  · exact h k t' hk

omit h in
theorem getElem?_foldl_erase (old : List Text) (k : Text) :
    (old.foldl (·.erase ·) all)[k]? = if k ∈ old then none else all[k]? := by
  induction old generalizing all with
  | nil => rfl
  | cons x old ih =>
    rw [foldl_cons, ih, getElem?_erase]
    by_cases hk : x = k
    · simp [hk]
    · simp [hk, Ne.symm hk]

omit h in
theorem getElem?_forget {k : Text} {t : Transfer} :
    (forget all)[k]? = some t ↔ k ∉ old all ∧ all[k]? = some t := by
  rw [forget, getElem?_foldl_erase]
  split <;> simp [*]

theorem Keyed.forget : Keyed (forget all) := fun k t hk => h k t (getElem?_forget.mp hk).2

/-- What is finished and not forgotten comes later in the map. -/
theorem mem_finished_forget {y : Text} : y ∈ finished (Transfers.forget all) ↔
    y ∈ (finished all).drop ((finished all).length - keepFinished) := by
  have hall := take_append_drop ((finished all).length - keepFinished) (finished all)
  constructor
  · intro hy
    obtain ⟨t, hy, hfin⟩ := (mem_finished h.forget).mp hy
    obtain ⟨hno, hy⟩ := getElem?_forget.mp hy
    have hmem := (mem_finished h).mpr ⟨t, hy, hfin⟩
    rw [← hall] at hmem
    exact (mem_append.mp hmem).resolve_left hno
  · intro hy
    obtain ⟨t, hyt, hfin⟩ := (mem_finished h).mp (mem_of_mem_drop hy)
    have hnodup := finished_nodup h
    rw [← hall] at hnodup
    have hno : y ∉ old all := fun hold => (nodup_append.mp hnodup).2.2 y hold y hy rfl
    exact (mem_finished h.forget).mpr ⟨t, getElem?_forget.mpr ⟨hno, hyt⟩, hfin⟩

theorem length_finished_forget :
    (finished (forget all)).length = min keepFinished (finished all).length := by
  have hperm : (finished (forget all)).Perm ((finished all).drop ((finished all).length - keepFinished)) :=
    (perm_ext_iff_of_nodup (finished_nodup h.forget) ((finished_nodup h).sublist (drop_sublist ..))).mpr
      fun _ => mem_finished_forget h
  rw [hperm.length_eq, length_drop]
  omega

theorem forget_unfinished {k : Text} {t : Transfer} (hk : all[k]? = some t) (hfin : t.isFinished = false) :
    (forget all)[k]? = some t := by
  refine getElem?_forget.mpr ⟨fun hmem => ?_, hk⟩
  obtain ⟨t', hk', hfin'⟩ := (mem_finished h).mp (mem_of_mem_take hmem)
  obtain rfl := Option.mem_unique hk hk'
  rw [hfin] at hfin'
  cases hfin'

omit h in
theorem mem_old {x : Text} {t : Transfer} (hx : all[x]? = some t) (hno : x ∉ forget all) : x ∈ old all := by
  by_contra hnot
  exact hno (mem_iff_isSome_getElem?.mpr (getElem?_forget.mpr ⟨hnot, hx⟩ ▸ rfl))

end

/-- Transfers are kept under their ids, which are those of earlier submissions. -/
structure Numbered (s : Transfers) : Prop where
  keyed : Keyed s.all
  ids : ∀ (k : Text) t, s.all[k]? = some t → ∃ n ≤ s.next, k = idOf n

theorem Numbered.added (h : Numbered s) (new : Transfer) {k : Text} {t : Transfer} (hk : s.all[k]? = some t) :
    (s.all.insert (idOf (s.next + 1)) new)[k]? = some t := by
  rw [ExtTreeMap.getElem?_insert, if_neg, hk]
  intro heq
  obtain ⟨n, hn, rfl⟩ := h.ids k t hk
  have := congrArg number (LawfulEqCmp.eq_of_compare heq)
  rw [number_idOf, number_idOf] at this
  omega

theorem numbered_update (h : Numbered s) (id : Text) {f : Transfer → Transfer} (hf : ∀ t, (f t).id = t.id) :
    Numbered (s.update id f) := by
  unfold update
  split
  · exact h
  · rename_i t ht
    refine ⟨h.keyed.insert ((hf t).trans (h.keyed id t ht)), fun k t' hk => ?_⟩
    rcases Program.getElem?_of_insert hk with ⟨rfl, -⟩ | hk
    · exact h.ids k t ht
    · exact h.ids k t' hk

theorem numbered_step (h : Numbered s) (e : Event) : Numbered (step s e) := by
  cases e with
  | push kind group exported source =>
    refine ⟨(h.keyed.insert (by rfl)).forget, fun k t hk => ?_⟩
    rcases Program.getElem?_of_insert (getElem?_forget.mp hk).2 with ⟨rfl, -⟩ | hk
    · exact ⟨_, le_rfl, rfl⟩
    · obtain ⟨n, hn, heq⟩ := h.ids k t hk
      exact ⟨n, Nat.le_succ_of_le hn, heq⟩
  | start =>
    dsimp only [step]
    split
    · exact h
    · refine numbered_update ?_ _ fun _ => rfl
      exact ⟨h.keyed, h.ids⟩
  | progress id done total => exact numbered_update h _ fun _ => rfl
  | finish id result => cases result <;> exact numbered_update h _ fun _ => rfl

theorem numbered_new : Numbered {} := ⟨by simp [Keyed], by simp⟩

theorem numbered_run (events : List Event) : Numbered (run events) :=
  foldlRecOn events step numbered_new fun _ h e _ => numbered_step h e

/-! ### What has been forgotten -/

/-- So many finished transfers were submitted after `x` that it can be forgotten. -/
def Outlived (all : BTreeMap Text Transfer) (x : Text) : Prop :=
  ∃ later : List Text, later.Nodup ∧ keepFinished ≤ later.length ∧ ∀ y ∈ later, y ∈ finished all ∧ Before x y

/-- What was forgotten is outlived. -/
structure Tidy (s : Transfers) : Prop extends Numbered s where
  forgotten : ∀ n, 0 < n → n ≤ s.next → idOf n ∉ s.all → Outlived s.all (idOf n)

/-- Only the last `keepFinished` of the finished transfers are kept, and they come after whatever is
outlived. -/
theorem Outlived.before {x y : Text} (hkeyed : Keyed all) (hord : KeyOrdered all) (hx : Outlived all x)
    (hy : y ∈ finished (forget all)) : Before x y := by
  obtain ⟨later, hnodup, hlen, hlater⟩ := hx
  by_contra hnot
  obtain ⟨pre, post, hdrop⟩ := append_of_mem ((mem_finished_forget hkeyed).mp hy)
  have hsplit := take_append_drop ((finished all).length - keepFinished) (finished all)
  rw [hdrop, ← append_assoc] at hsplit
  rw [KeyOrdered, ← hsplit] at hord
  -- nothing that outlives `x` is before `y` in the map, so all of it comes after `y`
  have hpost : later ⊆ post := by
    intro z hz
    obtain ⟨hzfin, hbefore⟩ := hlater z hz
    have hzmem := hzfin
    rw [← hsplit] at hzmem
    rcases mem_append.mp hzmem with hpre | htail
    · have hlt := (pairwise_append.mp hord).2.2 z hpre y (mem_cons_self ..)
      exact absurd (hbefore.trans hlt) hnot
    · rcases mem_cons.mp htail with rfl | hz
      · exact absurd hbefore hnot
      · exact hz
  have hshort := hnodup.length_le_of_subset hpost
  have hlast := congrArg length hdrop
  simp only [length_drop, length_append, length_cons] at hlast
  omega

theorem update_cases (s : Transfers) (id : Text) (f : Transfer → Transfer) : s.update id f = s ∨
    ∃ t, s.all[id]? = some t ∧ s.update id f = { s with all := s.all.insert id (f t) } := by
  unfold update
  cases ht : s.all[id]? with
  | none => exact .inl rfl
  | some t => exact .inr ⟨t, rfl, rfl⟩

section

variable (h : Tidy s)
include h

/-- A change of one transfer that undoes no ending. -/
theorem Tidy.update (id : Text) {f : Transfer → Transfer} (hid : ∀ t, (f t).id = t.id)
    (hfin : ∀ t, s.all[id]? = some t → t.isFinished = true → (f t).isFinished = true) :
    Tidy (s.update id f) := by
  have hnum := numbered_update h.toNumbered id hid
  rcases update_cases s id f with heq | ⟨t, ht, heq⟩
  · rwa [heq]
  rw [heq] at hnum ⊢
  refine ⟨hnum, fun n hpos hn hno => ?_⟩
  obtain ⟨later, hnodup, hlen, hlater⟩ := h.forgotten n hpos hn fun hmem => hno (by simp [hmem])
  refine ⟨later, hnodup, hlen, fun y hy => ⟨?_, (hlater y hy).2⟩⟩
  obtain ⟨t', hyt, hdone⟩ := (mem_finished h.keyed).mp (hlater y hy).1
  refine (mem_finished hnum.keyed).mpr ?_
  by_cases hsame : id = y
  · subst hsame
    obtain rfl := Option.mem_unique ht hyt
    exact ⟨f t, by simp, hfin t ht hdone⟩
  · exact ⟨t', by simp [ExtTreeMap.getElem?_insert, hsame, hyt], hdone⟩

omit h in
/-- A submission adds nothing to the finished transfers. -/
theorem Numbered.finished_added (h : Numbered s) {new : Transfer} (hid : new.id = idOf (s.next + 1))
    (hnew : new.isFinished = false) : finished (s.all.insert (idOf (s.next + 1)) new) = finished s.all := by
  have hkeyed := h.keyed.insert hid
  have hmem : ∀ k, k ∈ finished (s.all.insert (idOf (s.next + 1)) new) ↔ k ∈ finished s.all := by
    intro k
    rw [mem_finished hkeyed, mem_finished h.keyed]
    constructor
    · rintro ⟨t, hk, hfin⟩
      rcases Program.getElem?_of_insert hk with ⟨-, rfl⟩ | hk
      · rw [hnew] at hfin
        cases hfin
      · exact ⟨t, hk, hfin⟩
    · rintro ⟨t, hk, hfin⟩
      exact ⟨t, h.added new hk, hfin⟩
  have hperm := (perm_ext_iff_of_nodup (finished_nodup hkeyed) (finished_nodup h.keyed)).mpr hmem
  refine hperm.eq_of_pairwise (fun a b _ _ hab hba => ?_) (finished_sorted hkeyed) (finished_sorted h.keyed)
  cases (OrientedCmp.gt_of_lt hab).symm.trans hba

/-- What a submission leaves, if it meets the finished transfers in order: whatever has been forgotten
was submitted before every finished transfer that is kept. -/
theorem Tidy.push (hord : KeyOrdered s.all) (kind : Transfer.Kind) (group : Nat) (exported source : Text) :
    let s' := (s.push kind group exported source).2
    Tidy s' ∧ ∀ n, 0 < n → n ≤ s'.next → idOf n ∉ s'.all → ∀ y ∈ finished s'.all, Before (idOf n) y := by
  set new : Transfer := { id := idOf (s.next + 1), kind, exported, source }
  set all := s.all.insert (idOf (s.next + 1)) new with hall
  have hkeyed : Keyed all := h.keyed.insert rfl
  have hfin : finished all = finished s.all := h.toNumbered.finished_added rfl rfl
  have hord' : KeyOrdered all := by rwa [KeyOrdered, hfin]
  -- what is not in the map any more was forgotten now, or earlier
  have hgone : ∀ n, 0 < n → n ≤ s.next + 1 → idOf n ∉ forget all →
      idOf n ∈ old all ∨ Outlived all (idOf n) := by
    intro n hpos hn hno
    cases hk : all[idOf n]? with
    | some t => exact .inl (mem_old hk hno)
    | none =>
      have hne : n ≠ s.next + 1 := by
        rintro rfl
        simp [hall] at hk
      obtain ⟨later, hnodup, hlen, hlater⟩ := h.forgotten n hpos (by omega) fun hmem => by
        obtain ⟨t, ht⟩ := Option.isSome_iff_exists.mp (mem_iff_isSome_getElem?.mp hmem)
        rw [h.added new ht] at hk
        cases hk
      exact .inr ⟨later, hnodup, hlen, hfin ▸ hlater⟩
  have hbefore : ∀ n, 0 < n → n ≤ s.next + 1 → idOf n ∉ forget all →
      ∀ y ∈ finished (forget all), Before (idOf n) y := by
    intro n hpos hn hno y hy
    rcases hgone n hpos hn hno with hold | hout
    · rw [KeyOrdered, ← take_append_drop ((finished all).length - keepFinished) (finished all)] at hord'
      exact (pairwise_append.mp hord').2.2 _ hold y ((mem_finished_forget hkeyed).mp hy)
    · exact hout.before hkeyed hord' hy
  have hmany : ∀ n, 0 < n → n ≤ s.next + 1 → idOf n ∉ forget all → keepFinished ≤ (finished all).length := by
    intro n hpos hn hno
    rcases hgone n hpos hn hno with hold | ⟨later, hnodup, hlen, hlater⟩
    · have := length_pos_of_mem hold
      rw [old, length_take] at this
      omega
    · exact hlen.trans (hnodup.length_le_of_subset fun y hy => (hlater y hy).1)
  refine ⟨⟨numbered_step h.toNumbered (.push kind group exported source), fun n hpos hn hno => ?_⟩, hbefore⟩
  refine ⟨finished (forget all), finished_nodup hkeyed.forget, ?_, fun y hy => ⟨hy, hbefore n hpos hn hno y hy⟩⟩
  rw [length_finished_forget hkeyed]
  exact le_min le_rfl (hmany n hpos hn hno)

theorem Tidy.step {e : Event} (ho : s.Orderly e) : Tidy (step s e) := by
  cases e with
  | push kind group exported source => exact (h.push ho kind group exported source).1
  | start =>
    dsimp only [Transfers.step]
    split
    · exact h
    · rename_i job queue hqueue
      have hjob : s.Fresh job := ho job (by rw [hqueue]; rfl)
      have hrest : Tidy { s with queue } := ⟨⟨h.keyed, h.ids⟩, h.forgotten⟩
      refine hrest.update job.id (fun _ => rfl) fun t ht hdone => ?_
      rw [hjob t ht] at hdone
      cases hdone
  | progress id done total => exact h.update id (fun _ => rfl) fun _ _ hdone => hdone
  | finish id result => cases result <;> exact h.update id (fun _ => rfl) fun _ _ _ => rfl

end

theorem tidy_new : Tidy {} := ⟨numbered_new, fun n hpos hn => absurd hn (by simpa using hpos.ne')⟩

theorem orderlyRun_append {events more : List Event} : s.OrderlyRun (events ++ more) ↔
    s.OrderlyRun events ∧ (events.foldl step s).OrderlyRun more := by
  induction events generalizing s with
  | nil => simp [OrderlyRun]
  | cons e events ih => simp [OrderlyRun, ih, and_assoc]

theorem tidy_run {events : List Event} (h : Tidy s) (ho : s.OrderlyRun events) : Tidy (events.foldl step s) := by
  induction events generalizing s with
  | nil => exact h
  | cons e events ih => exact ih (h.step ho.1) ho.2

/-- A submission leaves at most `keepFinished` finished transfers and forgets no other. Where every
submission so far met the finished transfers in the order of their submission, whatever has been
forgotten by now was submitted before every finished transfer that is still kept. -/
theorem push_forgets_oldest (events : List Event) (kind : Transfer.Kind) (group : Nat) (exported source : Text) :
    let s := run events
    let (id, s') := s.push kind group exported source
    (finished s'.all).length ≤ keepFinished ∧ id ∈ s'.all ∧
    (∀ (k : Text) t, s.all[k]? = some t → t.isFinished = false → s'.all[k]? = some t) ∧
    (OrderlyRun {} (events ++ [.push kind group exported source]) →
      ∀ n, 0 < n → n ≤ s'.next → idOf n ∉ s'.all → ∀ y ∈ finished s'.all, Before (idOf n) y) := by
  intro s
  have hnum : Numbered s := numbered_run events
  have hkeyed : Keyed (s.all.insert (idOf (s.next + 1)) { id := _, kind, exported, source }) :=
    hnum.keyed.insert rfl
  refine ⟨?_, ?_, fun k t hk => forget_unfinished hkeyed (hnum.added _ hk), fun ho => ?_⟩
  · exact (length_finished_forget hkeyed).trans_le (Nat.min_le_left ..)
  · exact mem_iff_isSome_getElem?.mpr (forget_unfinished hkeyed getElem?_insert_self rfl ▸ rfl)
  · obtain ⟨hrun, hpush⟩ := orderlyRun_append.mp ho
    exact ((tidy_run tidy_new hrun).push hpush.1 kind group exported source).2

/-- Transfers `1` to `n`, run one after another. -/
def allDone (n : Nat) : List Event :=
  replicate n (.push .exporting 0 [] []) ++
    (range n).flatMap fun i => [.start, .finish (idOf (i + 1)) (.ok [])]

/-- One more is submitted. -/
def oneMore (events : List Event) : Transfers := ((run events).push .exporting 0 [] []).2

/-- Of two hundred transfers the last hundred and one end, in the reverse order. -/
def lastDone : List Event :=
  replicate 200 (.push .exporting 0 [] []) ++
    (range 101).map fun i => .finish (idOf (200 - i)) (.ok [])

theorem push_forgets_oldest_hundredth : idOf 100 ∉ (oneMore lastDone).all ∧
    (finished (oneMore lastDone).all).length ≤ keepFinished ∧
    ∀ y ∈ finished (oneMore lastDone).all, Before (idOf 100) y := by
  obtain ⟨hlen, -, -, hold⟩ := push_forgets_oldest lastDone .exporting 0 [] []
  have hgone : idOf 100 ∉ (oneMore lastDone).all := by decide +kernel
  exact ⟨hgone, hlen, hold (by decide +kernel) 100 (by decide) (by decide +kernel) hgone⟩

/-- The tenth transfer is forgotten before the second. -/
theorem push_forgets_tenth : idOf 10 ∈ finished (run (allDone 102)).all ∧
    idOf 10 ∉ (oneMore (allDone 102)).all ∧ idOf 2 ∈ finished (oneMore (allDone 102)).all ∧
    ¬ Before (idOf 10) (idOf 2) := by
  decide +kernel

end Transfers

end AtlasNative.Node
