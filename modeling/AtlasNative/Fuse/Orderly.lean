import AtlasNative.Fuse.Linearized

/-!
# Orderly runs

A run in which calls overlap only as far as they may is linearizable, and a flush after all other
calls leaves the array at the cluster. A read that overlaps a write is different: it may leave a
window behind that is older than the write.
-/

namespace AtlasNative.Fuse

open List Option Std.ExtTreeMap List.Sublist File

open Program (Act Object)

namespace Mount

variable {ino : Nat} {init : Bytes} {m m' : Mount} {id : Nat} {c : Call} {phase next : Phase}
  {order : List (Nat × Call)}

theorem Linear.call (h : m.Linear ino init order) (hon : c.on ino = true) :
    (m.step (.call c)).Linear ino init order := by
  obtain ⟨hover, hpend, -⟩ := start_plain hon
  have hhist : history (m.step (.call c)).log = history m.log ++ [.invoke m.calls.length c] := history_append _ _
  have hnot : c.start.effected c = false := by cases c <;> rfl
  refine ⟨?_, fun i c' => ?_, fun i c' p hi => ?_, ?_, h.window, fun call hc => ?_⟩
  · rw [hhist]
    refine h.orders.invoke c fun hin => ?_
    obtain ⟨⟨i, c'⟩, hin', hi⟩ := mem_map.mp hin
    obtain ⟨p, hp, -⟩ := (h.effected i c').mp hin'
    have := Program.lt_of_getElem? hp
    omega
  · rw [h.effected]
    refine exists_congr fun p => ⟨fun ⟨hp, heff⟩ => ⟨calls_call.mpr (.inl hp), heff⟩, fun ⟨hp, heff⟩ => ?_⟩
    rcases calls_call.mp hp with hp | ⟨-, heq⟩
    · exact ⟨hp, heff⟩
    · cases heq
      rw [hnot] at heff
      cases heff
  · rw [hhist]
    rcases calls_call.mp hi with hi | ⟨rfl, heq⟩
    · exact mem_append_left _ (h.invoked i c' p hi)
    · cases heq
      simp
  · have hhand : hand (m.step (.call c)).calls = hand m.calls := by
      show hand (m.calls ++ [(c, c.start)]) = hand m.calls
      simp [hand, hpend]
    rw [pending, hhand]
    exact h.array
  · rcases mem_append.mp hc with hc | hc
    · exact h.reading call hc
    · rw [mem_singleton.mp hc]
      cases c <;> trivial

/-- A run over a cluster that has `files`. -/
def runOn (cfg : Config) (files : BTreeMap Nat Bytes) (events : List Event) : Mount :=
  events.foldl step { new cfg with files := files }

theorem runOn_snoc (cfg : Config) (files : BTreeMap Nat Bytes) (events : List Event) (e : Event) :
    runOn cfg files (events ++ [e]) = (runOn cfg files events).step e := foldl_concat _ _ _ _

/-- A call on file `ino`, or a step in which no request fails. -/
def Event.plain (ino : Nat) : Event → Bool
  | .call c => c.on ino
  | .step _ failure | .work _ failure => failure.isNone
  | .pop | .expire _ | .forget _ => true

/-- A call begins only while the calls that are not over may overlap it. -/
def Orderly (cfg : Config) (files : BTreeMap Nat Bytes) (events : List Event) : Prop :=
  ∀ before c after, events = before ++ .call c :: after →
    ∀ call ∈ (runOn cfg files before).calls, call.2.isOver = true ∨ c.compatible call.1 = true

theorem Shape.of_fresh (hcalls : m.calls = []) (hruns : m.dirty.runs = ∅)
    (hpipe : ∀ p, m.pipeline = some p → p.errors = ∅ ∧ p.inflight = []) : m.Shape ino := by
  have hnone : ∀ call, call ∉ m.calls := by simp [hcalls]
  have hget : ∀ (i : Nat) call, m.calls[i]? ≠ some call := fun i call hi =>
    hnone call (mem_of_getElem? hi)
  refine ⟨fun i run hrun => ?_, fun call hc => absurd hc (hnone call),
    fun i j a b _ hi => absurd hi (hget i a), fun i c left r hi => absurd hi (hget i _),
    fun call hc => absurd hc (hnone call), fun call hc => absurd hc (hnone call), fun p hp => ?_,
    fun call hc => absurd hc (hnone call), fun i call hi => absurd hi (hget i call),
    fun call hc => absurd hc (hnone call)⟩
  · rw [hruns, getElem?_empty] at hrun
    cases hrun
  · obtain ⟨herr, hnil⟩ := hpipe p hp
    rw [hnil]
    exact ⟨herr, List.Pairwise.nil, nofun⟩

theorem Linear.of_fresh (hcalls : m.calls = []) (hlog : m.log = []) (hruns : m.dirty.runs = ∅)
    (hahead : m.readahead = ∅) (hpipe : ∀ p, m.pipeline = some p → p.errors = ∅ ∧ p.inflight = []) :
    m.Linear ino (m.file ino) [] := by
  have hpending : m.pending ino = [] := by
    rw [pending, unsent_of_flight fun p hp => (hpipe p hp).2, hcalls, hruns, getElem?_empty]
    rfl
  refine ⟨hlog ▸ .nil _, by simp [hcalls], by simp [hcalls], ?_, by simp [hahead], by simp [hcalls]⟩
  rw [hpending]
  rfl

theorem work_same (m : Mount) (worker : Nat) :
    (m.work worker none).calls = m.calls ∧ (m.work worker none).dirty = m.dirty ∧
      (m.work worker none).lock = m.lock ∧ (m.work worker none).readahead = m.readahead ∧
      (m.work worker none).cfg = m.cfg ∧ history (m.work worker none).log = history m.log := by
  unfold work
  split
  · exact ⟨rfl, rfl, rfl, rfl, rfl, rfl⟩
  split
  · exact ⟨rfl, rfl, rfl, rfl, rfl, rfl⟩
  split
  · exact ⟨rfl, rfl, rfl, rfl, rfl, rfl⟩
  · refine ⟨rfl, rfl, rfl, rfl, rfl, ?_⟩
    exact (history_append _ _).trans (append_nil _)

theorem erase_window (ahead : BTreeMap Nat (Nat × Bytes)) (i ino : Nat) :
    (ahead.erase i)[ino]? = none ∨ (ahead.erase i)[ino]? = ahead[ino]? := by
  rw [getElem?_erase]
  split
  · exact .inl rfl
  · exact .inr rfl

theorem Linear.step (hs : m.Shape ino) (h : m.Linear ino init order) (e : Event) (hplain : e.plain ino = true)
    (hcomp : ∀ c, e = .call c → ∀ call ∈ m.calls, call.2.isOver = true ∨ c.compatible call.1 = true) :
    (m.step e).Shape ino ∧ ∃ order', (m.step e).Linear ino init order' := by
  cases e with
  | call c => exact ⟨hs.call hplain (hcomp c rfl), order, h.call hplain⟩
  | step id failure =>
    have hnone : failure = none := isNone_iff_eq_none.mp hplain
    subst hnone
    dsimp only [Mount.step]
    split
    · exact ⟨hs, order, h⟩
    · exact ⟨hs, order, h⟩
    · rename_i c phase hnot hcall
      have hrun : phase.isOver = false := by
        cases phase <;> first | rfl | exact (hnot _ rfl).elim
      obtain ⟨order', hshown⟩ := shown hs h hcall hrun
      exact ⟨hs.arrive hcall hrun (shifted hs hcall hrun), order', h.arrive hcall hshown⟩
  | pop =>
    refine ⟨hs.background rfl rfl rfl (.inr rfl) fun p' hp' => ?_, order, h.background rfl rfl rfl (.inr rfl) ?_⟩
    · obtain ⟨p, hp, rfl⟩ := map_eq_some_iff.mp hp'
      exact ⟨p, hp, fewer_pop p⟩
    · show putAll (m.file ino) (unsent { m with pipeline := m.pipeline.map Pipeline.pop } ++
        hand m.calls ++ m.dirty.runs[ino]?.toList) = _
      rw [unsent_pop, pending]
  | work worker failure =>
    have hnone : failure = none := isNone_iff_eq_none.mp hplain
    subst hnone
    obtain ⟨hcalls, hdirty, hlock, hahead, hcfg, hhist⟩ := work_same m worker
    have hahead : (m.work worker none).readahead[ino]? = m.readahead[ino]? := by rw [hahead]
    refine ⟨hs.background hcalls hdirty hlock (.inr hahead) fun p' hp' => ?_, order,
      h.background hcalls hhist hcfg (.inr hahead) (putAll_work hs worker)⟩
    cases hp : m.pipeline with
    | none =>
      rw [show m.step (.work worker none) = m.work worker none from rfl, work, hp] at hp'
      rw [hp] at hp'
      cases hp'
    | some p =>
      obtain ⟨q, hq, hfewer⟩ := fewer_work hp worker
      obtain rfl := mem_unique hq hp'
      exact ⟨p, rfl, hfewer⟩
  | expire i =>
    exact ⟨hs.background rfl rfl rfl (erase_window _ i ino) fun p hp =>
        ⟨p, hp, rfl, _, List.Perm.refl _, refl _⟩,
      order, h.background rfl rfl rfl (erase_window _ i ino) rfl⟩
  | forget i =>
    exact ⟨hs.background rfl rfl rfl (.inr rfl) fun p hp =>
        ⟨p, hp, rfl, _, List.Perm.refl _, refl _⟩,
      order, h.background rfl rfl rfl (.inr rfl) rfl⟩

/-! ### The last flush -/

/-- Call `n` is the last one, a flush, and the only one that may be running. -/
structure Closing (ino n : Nat) (m : Mount) : Prop where
  others : ∀ (j : Nat) call, j ≠ n → m.calls[j]? = some call → call.2.isOver = true
  flush : ∃ phase, m.calls[n]? = some (.flush ino, phase) ∧
    (phase.taken = true → m.dirty.runs[ino]? = none) ∧ (phase.isOver = true → m.pending ino = [])

theorem Closing.arrive {n : Nat} (h : Closing ino n m) (hcalls : m'.calls = m.calls)
    (htaken : next.taken = true → m'.dirty.runs[ino]? = none)
    (hover : next.isOver = true → m'.unsent = []) :
    Closing ino n (m'.arrive n (.flush ino) next) := by
  obtain ⟨phase, hcall, -⟩ := h.flush
  have hlt := Program.lt_of_getElem? hcall
  have hset : (m'.arrive n (.flush ino) next).calls = m.calls.set n (.flush ino, next) := by
    rw [← hcalls]
    rfl
  have hothers : ∀ (j : Nat) call, j ≠ n →
      (m'.arrive n (.flush ino) next).calls[j]? = some call → call.2.isOver = true := by
    intro j call hne hj
    rw [hset, getElem?_set_ne hne.symm] at hj
    exact h.others j call hne hj
  refine ⟨hothers, next, by rw [hset, getElem?_set_self hlt], htaken, fun hend => ?_⟩
  have hall : Mount.hand m.calls = phase.pending ∧ Mount.hand (m.calls.set n (.flush ino, next)) = next.pending :=
    hand_of_others hcall fun j other hne hj => Phase.pending_of_over (h.others j other hne hj)
  have hnext : next.taken = true := by
    cases next <;> first | rfl | cases hend
  rw [pending, hset, hall.2, Phase.pending_of_over hend]
  show m'.unsent ++ [] ++ m'.dirty.runs[ino]?.toList = []
  rw [hover hend, htaken hnext]
  rfl

theorem Closing.advance {n : Nat} (hs : m.Shape ino) (h : Closing ino n m)
    (hcall : m.calls[n]? = some (.flush ino, phase)) (hrun : phase.isOver = false) :
    Closing ino n ((m.advance n (.flush ino) none phase).2.arrive n (.flush ino)
      (m.advance n (.flush ino) none phase).1) := by
  have hno {P : Prop} (h : false = true) : P := by cases h
  have htaken : phase.taken = true → m.dirty.runs[ino]? = none := by
    obtain ⟨p, hp, hp', -⟩ := h.flush
    rw [hcall] at hp
    cases hp
    exact hp'
  have hfits := (hs.kinds _ (mem_of_getElem? hcall)).2
  cases hfits with
  | drop hc => cases hc
  | take _ =>
    rw [advance_take m n none (show Call.flush ino ≠ .flushAll by simp)]
    split
    · exact h.arrive rfl hno hno
    · exact h.arrive rfl (fun _ => getElem?_erase_self) hno
  | dispatch _ =>
    rename_i left r _
    have hruns := htaken rfl
    cases left with
    | nil => exact h.arrive rfl (fun _ => hruns) hno
    | cons run left =>
      dsimp only [Mount.advance]
      split
      · split
        · exact h.arrive rfl (fun _ => hruns) hno
        · exact h.arrive rfl (fun _ => hruns) hno
      split
      · exact h.arrive rfl (fun _ => hruns) hno
      · exact h.arrive rfl (fun _ => hruns) hno
  | wait _ =>
    have hruns := htaken rfl
    dsimp only [Mount.advance]
    split
    · rename_i hp
      exact h.arrive rfl (fun _ => hruns) fun _ => by rw [unsent, hp]
    rename_i p hp
    rw [if_neg (by simp)]
    split
    · exact h.arrive rfl (fun _ => hruns) hno
    rename_i e p' hwait
    obtain ⟨hnone, rfl, rfl⟩ := Pipeline.wait_eq_some hwait
    refine h.arrive rfl (fun _ => hruns) fun _ => unsent_of_flight fun q hq => ?_
    obtain rfl := some.inj hq
    exact eq_nil_iff_forall_not_mem.mpr fun run hin => hnone run hin ((hs.flight p hp).2.2 run hin)
  | done => cases hrun

theorem Closing.background {n : Nat} (h : Closing ino n m) (hcalls : m'.calls = m.calls)
    (hdirty : m'.dirty = m.dirty) (hunsent : m.unsent = [] → m'.unsent = []) : Closing ino n m' := by
  obtain ⟨phase, hcall, htaken, hover⟩ := h.flush
  refine ⟨hcalls ▸ h.others, phase, hcalls ▸ hcall, hdirty ▸ htaken, fun hend => ?_⟩
  have hold := hover hend
  rw [pending, append_eq_nil_iff, append_eq_nil_iff] at hold
  rw [pending, hcalls, hdirty, hunsent hold.1.1, hold.1.2, hold.2]
  rfl

theorem Closing.step {n : Nat} (hs : m.Shape ino) (h : Closing ino n m) (e : Event)
    (hplain : e.plain ino = true) (hcall : ∀ c, e ≠ .call c) : Closing ino n (m.step e) := by
  cases e with
  | call c => exact absurd rfl (hcall c)
  | step id failure =>
    have hnone : failure = none := isNone_iff_eq_none.mp hplain
    subst hnone
    dsimp only [Mount.step]
    split
    · exact h
    · exact h
    · rename_i c phase hnot hcall
      have hrun : phase.isOver = false := by
        cases phase <;> first | rfl | exact (hnot _ rfl).elim
      have hid : id = n := by
        by_contra hne
        have hover : phase.isOver = true := h.others id _ hne hcall
        rw [hrun] at hover
        cases hover
      subst hid
      obtain ⟨p, hp, -⟩ := h.flush
      rw [hcall] at hp
      cases hp
      exact h.advance hs hcall hrun
  | pop =>
    refine h.background rfl rfl fun hnil => ?_
    exact (unsent_pop m).trans hnil
  | work worker failure =>
    have hnone : failure = none := isNone_iff_eq_none.mp hplain
    subst hnone
    obtain ⟨hcalls, hdirty, -⟩ := work_same m worker
    refine h.background hcalls hdirty fun hnil => ?_
    -- no run is being sent
    have hidle : m.work worker none = m := by
      unfold work
      split
      · rfl
      rename_i p hp
      rw [unsent, hp] at hnil
      rw [map_eq_nil_iff.mp (append_eq_nil_iff.mp hnil).1]
      rfl
    show (m.work worker none).unsent = []
    rw [hidle, hnil]
  | expire | forget => exact h.background rfl rfl fun hnil => hnil

/-! ### Whole runs -/

section

variable {cfg : Config} {files : BTreeMap Nat Bytes}

theorem Orderly.dropLast {events : List Event} {e : Event} (h : Orderly cfg files (events ++ [e])) :
    Orderly cfg files events := fun before c after heq =>
  h before c (after ++ [e]) (by rw [heq, append_assoc, cons_append])

theorem runOn_linear {events : List Event} (hplain : ∀ e ∈ events, e.plain ino = true)
    (horderly : Orderly cfg files events) : (runOn cfg files events).Shape ino ∧
      ∃ order, (runOn cfg files events).Linear ino (files.getD ino []) order := by
  induction events using reverseRecOn with
  | nil =>
    have hpipe : ∀ p, (runOn cfg files []).pipeline = some p → p.errors = ∅ ∧ p.inflight = [] := by
      intro p hp
      dsimp only [runOn, foldl_nil, new] at hp
      split at hp
      · obtain rfl := some.inj hp
        exact ⟨rfl, rfl⟩
      · cases hp
    exact ⟨.of_fresh rfl rfl hpipe, [], .of_fresh rfl rfl rfl rfl hpipe⟩
  | append_singleton events e ih =>
    obtain ⟨hs, order, h⟩ := ih (fun e he => hplain e (mem_append_left _ he)) horderly.dropLast
    rw [runOn_snoc]
    refine h.step hs e (hplain e (by simp)) fun c heq => ?_
    exact horderly events c [] (by rw [heq])

theorem runOn_closing {before after : List Event}
    (hover : ∀ call ∈ (runOn cfg files before).calls, call.2.isOver = true)
    (hafter : ∀ c, .call c ∉ after)
    (hplain : ∀ e ∈ before ++ .call (.flush ino) :: after, e.plain ino = true)
    (horderly : Orderly cfg files (before ++ .call (.flush ino) :: after)) :
    Closing ino (runOn cfg files before).calls.length (runOn cfg files (before ++ .call (.flush ino) :: after)) := by
  induction after using reverseRecOn with
  | nil =>
    rw [runOn_snoc]
    refine ⟨fun j call hne hj => ?_, .take, getElem?_concat_length, nofun, nofun⟩
    rcases calls_call.mp hj with hj | ⟨hj, -⟩
    · exact hover call (mem_of_getElem? hj)
    · exact absurd hj hne
  | append_singleton after e ih =>
    rw [← cons_append, ← append_assoc] at hplain horderly ⊢
    have hbefore : ∀ e ∈ before ++ .call (.flush ino) :: after, e.plain ino = true :=
      fun e he => hplain e (mem_append_left _ he)
    have hclosing := ih (fun c hc => hafter c (mem_append_left _ hc)) hbefore horderly.dropLast
    rw [runOn_snoc]
    refine hclosing.step (runOn_linear hbefore horderly.dropLast).1 e (hplain e (by simp)) fun c heq => ?_
    exact hafter c (by simp [heq])

/-- Calls on one file that overlap only as they may are linearizable, and a flush after all other
calls leaves the array at the cluster. -/
theorem one_file_linearizable (cfg : Config) (files : BTreeMap Nat Bytes) (ino : Nat)
    (events : List Event) (hplain : ∀ e ∈ events, e.plain ino = true)
    (horderly : Orderly cfg files events) :
    ∃ order, (byteArray (files.getD ino [])).Orders (history (runOn cfg files events).log) order ∧
      ∀ before after, events = before ++ .call (.flush ino) :: after →
        (∀ call ∈ (runOn cfg files before).calls, call.2.isOver = true) → (∀ c, .call c ∉ after) →
        (∀ call ∈ (runOn cfg files events).calls, call.2.isOver = true) →
        (runOn cfg files events).file ino = (byteArray (files.getD ino [])).after order := by
  obtain ⟨-, order, h⟩ := runOn_linear hplain horderly
  refine ⟨order, h.orders, fun before after heq hbefore hafter hend => ?_⟩
  subst heq
  have hclosing := runOn_closing hbefore hafter hplain horderly
  obtain ⟨phase, hcall, -, hpending⟩ := hclosing.flush
  rw [h.array, hpending (hend _ (mem_of_getElem? hcall)), putAll_nil]

theorem orderly_of_take {events : List Event}
    (h : ∀ i < events.length, ∀ event ∈ events[i]?, ∀ call ∈ (runOn cfg files (events.take i)).calls,
      call.2.isOver = true ∨ (match event with
        | .call c => c.compatible call.1
        | _ => true) = true) : Orderly cfg files events := by
  intro before c after heq
  obtain ⟨htake, hlt, hget⟩ := Program.eq_take_of_split heq
  rw [htake]
  exact h _ hlt (.call c) hget

end

/-- Two writes and a flush overlap; then a read keeps a window, and a last flush returns. -/
def overlappingRun : List Event :=
  [.call (.write 1 0 [1, 2]), .step 0 none, .step 0 none, .step 0 none, .call (.write 1 1 [3]),
    .call (.flush 1), .step 1 none, .step 1 none, .step 0 none, .step 0 none, .step 1 none,
    .step 1 none, .step 2 none, .pop, .work 0 none, .work 0 none, .step 2 none, .step 2 none, .pop,
    .work 0 none, .work 0 none, .step 2 none] ++ calling 3 (.read 1 0 2) 7 ++ calling 4 (.flush 1) 3

def windowed : Config := ⟨2, 1, 8, 4⟩

theorem overlappingRun_linearizable : ∃ order,
    (byteArray []).Orders (history (runOn windowed ∅ overlappingRun).log) order ∧
      (runOn windowed ∅ overlappingRun).file 1 = (byteArray []).after order := by
  obtain ⟨order, horders, hfile⟩ := one_file_linearizable windowed ∅ 1 overlappingRun (by decide)
    (orderly_of_take (by decide +kernel))
  refine ⟨order, horders, hfile (overlappingRun.take 30) (overlappingRun.drop 31) rfl ?_ ?_ ?_⟩
  · decide +kernel
  · simp [overlappingRun, calling]
  · decide +kernel

/-- A read fetches, a write begins and returns, and only then the read keeps its window. -/
def staleRun : List Event :=
  calling 0 (.read 1 0 1) 6 ++ calling 1 (.write 1 0 [9]) 6 ++ [.step 0 none] ++
    calling 2 (.read 1 0 1) 5

def unbuffered : Config := ⟨0, 0, 4, 4⟩

def oneByte : BTreeMap Nat Bytes := (∅ : BTreeMap Nat Bytes).insert 1 [7]

theorem staleRun_history : history (runOn unbuffered oneByte staleRun).log =
    [.invoke 0 (.read 1 0 1), .invoke 1 (.write 1 0 [9]), .respond 1 (.write 1 0 [9]) (.written 1),
      .respond 0 (.read 1 0 1) (.data [7]), .invoke 2 (.read 1 0 1),
      .respond 2 (.read 1 0 1) (.data [7])] := by
  decide +kernel

/-- A later read answers from the window: it misses the write. -/
theorem stale_window_read : (∀ e ∈ staleRun, e.plain 1 = true) ∧
    ¬ (byteArray [7]).Linearizable (history (runOn unbuffered oneByte staleRun).log) := by
  refine ⟨by decide, fun ⟨order, h⟩ => ?_⟩
  rw [staleRun_history] at h
  have hread : (2, Call.read 1 0 1) ∈ order := h.complete 2 _ (.data [7]) (by simp)
  obtain ⟨earlier, later, horder, hlater⟩ := h.realTime
    [.invoke 0 (.read 1 0 1), .invoke 1 (.write 1 0 [9]), .respond 1 (.write 1 0 [9]) (.written 1),
      .respond 0 (.read 1 0 1) (.data [7])] [.respond 2 (.read 1 0 1) (.data [7])] 1
    (.write 1 0 [9]) (.written 1) 2 (.read 1 0 1) rfl (by simp) hread
  obtain ⟨between, rest, hsplit⟩ := append_of_mem hlater
  -- once the byte is written, all calls of the run leave it there
  have hkeep : ∀ calls : List (Nat × Call), (∀ call ∈ calls, call ∈ order) → ∀ a : Bytes,
      get a 0 1 = [9] → get (calls.foldl (fun a call =>
        ((byteArray [7]).apply a call.2).1) a) 0 1 = [9] := by
    intro calls
    induction calls with
    | nil => exact fun _ a ha => ha
    | cons call calls ih =>
      intro hin a ha
      refine ih (fun call' hc => hin call' (mem_cons_of_mem _ hc)) _ ?_
      have hinvoked := h.invoked call.1 call.2 (hin call mem_cons_self)
      simp only [mem_cons, not_mem_nil, or_false, reduceCtorEq, false_or, Act.invoke.injEq] at hinvoked
      show get ((byteArray [7]).apply a call.2).1 0 1 = [9]
      rcases hinvoked with ⟨-, hc⟩ | ⟨-, hc⟩ | ⟨-, hc⟩ <;> rw [hc]
      · exact ha
      · rfl
      · exact ha
  have hlegal := h.legal (earlier ++ (1, .write 1 0 [9]) :: between) rest 2 (.read 1 0 1) (.data [7])
    (by rw [horder, hsplit]; simp) (by simp)
  have hnine := hkeep between (fun call hc => by rw [horder, hsplit]; simp [hc])
    (File.put ((byteArray [7]).after earlier) 0 [9]) rfl
  rw [Object.after, foldl_append, foldl_cons] at hlegal
  have hseven : [7] = ([9] : Bytes) := by
    rw [← hnine]
    exact Reply.data.inj hlegal
  cases hseven

end Mount

end AtlasNative.Fuse
