import AtlasNative.Databridge.Pipeline
import AtlasNative.Program.Runs

/-!
# Plans move forward

Only the entry into a stage is a guarded transition; every other statement writes a state without
looking at the one it replaces. As long as the jobs and the reconciler keep out of each other's way,
at most one cutover is open, a final cutover is changed by a rollback only, and a plan past its
cutover is only rolled back.
-/

namespace AtlasNative.Databridge

open List Function

open Program (Meets)

/-- The states a plan takes from the start of a cutover on. -/
def PlanState.past : PlanState → Bool
  | .cutoverInProgress | .cutoverComplete | .rolledBack => true
  | _ => false

/-- The statements by which a stage before the cutover sets the state of the plan, and the calls
that lead to them. -/
def Op.stages : Op → Bool
  | .setPlan st => !st.past
  | .insertEdge _ | .applyEdge _ | .pollEdge _ | .pollLoad | .insertValidation _
  | .pollValidation _ => true
  | _ => false

/-- The statements of a cutover past its guard and of a rollback, and those by which the reconciler
ends a cutover that drains. -/
def Op.moves : Op → Bool
  | .setPlan st => st.past
  | .insertCutover .. | .setCutover .. | .reopen | .rollback | .judge _ | .judgeStream ..
  | .teardown .. => true
  | _ => false

/-- What a thread has left to do to a cutover. -/
def World.script (s : World) (t : Task) : List Op := (s.threads t).filter Op.moves

/-- No stage before the cutover is under way: no thread has a statement of one left, no edge cluster
is being provisioned and no validation is running. -/
structure Settled (s : World) : Prop where
  threads : ∀ t, ∀ op ∈ s.threads t, op.stages = false
  edges : true ∉ s.db.edges
  validations : true ∉ s.db.validations

/-- Jobs keep out of each other's way. No stage before the cutover starts once a cutover has; a
cutover passes its guard, and a rollback ends, only when no such stage is under way; and a cutover, a
rollback and the reconciler's end of a cutover begin only while none of them goes on. -/
def Orderly (s : World) : Event → Prop
  | .enqueue _ .assess _ | .enqueue _ .fullLoad _ | .enqueue _ .validate _ => s.db.plan.past = false
  | .enqueue i .rollback _ => ∀ t ≠ .job i, s.script t = []
  | .enqueue .. | .tick _ => True
  | .run t x => x.ok → ∀ op rest, s.threads t = op :: rest → match op with
    | .beginCutover .. => s.db.plan = .validated → (∀ t, s.script t = []) ∧ Settled s
    | .listDraining => .draining ∈ s.db.cutovers → ∀ t, s.script t = []
    | .setPlan .rolledBack => Settled s
    | _ => True

/-! ### What is left to do to a cutover -/

def Live (db : Db) (k : Nat) : Prop := ∃ st, db.cutovers[k]? = some st ∧ st.live

/-- A cutover is in progress, and none is open. -/
def Free (db : Db) : Prop := db.plan = .cutoverInProgress ∧ ∀ k, ¬ Live db k

/-- What is left to do to an open cutover. -/
inductive Handles (k : Nat) : List Op → Prop
  | drain : Handles k [.setCutover k .draining]
  | judge : Handles k [.judge k]
  | judgeStream {cdc : Option Nat} : Handles k [.judgeStream k cdc]
  | teardown {cdc : Option Nat} : Handles k [.teardown k cdc]
  | switch : Handles k [.setCutover k .switching, .setCutover k .complete, .setPlan .cutoverComplete]
  | complete : Handles k [.setCutover k .complete, .setPlan .cutoverComplete]
  | fail : Handles k [.setCutover k .failed, .reopen]

/-- What a thread may have left to do to a cutover, as the rows are. -/
inductive Script (db : Db) : List Op → Prop
  | nil : Script db []
  | insert {k8s : Bool} {cdc : Option Nat} (h : Free db) : Script db [.insertCutover k8s cdc]
  | handle {k : Nat} {ops : List Op} (hk : Live db k) (h : Handles k ops) : Script db ops
  | complete (h : Free db) : Script db [.setPlan .cutoverComplete]
  | reopen (h : Free db) : Script db [.reopen]
  | rollback : Script db [.rollback]
  | last {k : Nat} (hk : k + 1 = db.cutovers.length) :
      Script db [.setCutover k .rolledBack, .setPlan .rolledBack]
  | rolledBack (h : ∀ k, ¬ Live db k) : Script db [.setPlan .rolledBack]

/-- Only the latest cutover is open, and the plan says so. -/
def Latest (db : Db) : Prop :=
  ∀ k, Live db k → k + 1 = db.cutovers.length ∧ db.plan = .cutoverInProgress

/-- What later rows owe to earlier ones. -/
structure Forward (db db' : Db) : Prop where
  final : ∀ (k : Nat) (st : CutoverState), db.cutovers[k]? = some st → st.live = false →
    db'.cutovers[k]? = some st ∨ db'.cutovers[k]? = some .rolledBack
  past : db.plan = .rolledBack ∨ db.plan = .cutoverComplete →
    db'.plan = db.plan ∨ db'.plan = .rolledBack

variable {src : Source} {db db' : Db} {s : World} {op : Op} {ops : List Op} {x : Input} {t : Task}
  {rest : List Op} {e : Event} {k : Nat} {st : CutoverState}

theorem Forward.refl (db : Db) : Forward db db := ⟨fun _ _ h _ => .inl h, fun _ => .inl rfl⟩

theorem Forward.trans {db'' : Db} (h : Forward db db') (h' : Forward db' db'') : Forward db db'' where
  final k st hst hfinal := by
    rcases h.final k st hst hfinal with hst' | hst'
    · exact h'.final k st hst' hfinal
    · exact .inr ((h'.final k _ hst' rfl).elim id id)
  past hplan := by
    rcases h.past hplan with heq | heq
    · rcases h'.past (heq ▸ hplan) with heq' | heq'
      · exact .inl (heq'.trans heq)
      · exact .inr heq'
    · exact .inr ((h'.past (.inl heq)).elim (·.trans heq) id)

theorem forward_of_plan {plan : PlanState} (h : db.plan = .cutoverInProgress ∨ plan = .rolledBack) :
    Forward db { db with plan := plan } := by
  refine ⟨fun _ _ hst _ => .inl hst, fun hplan => ?_⟩
  rcases h with h | rfl
  · rcases hplan with heq | heq <;> rw [h] at heq <;> cases heq
  · exact .inr rfl

theorem live_set {j : Nat} (h : Live { db with cutovers := db.cutovers.set k st } j) :
    j = k ∧ st.live ∨ j ≠ k ∧ Live db j := by
  obtain ⟨st', hst', hlive⟩ := h
  by_cases hj : k = j
  · subst hj
    have hlt : k < db.cutovers.length := by simpa using Program.lt_of_getElem? hst'
    have hst'' : (db.cutovers.set k st)[k]? = some st' := hst'
    rw [getElem?_set_self hlt] at hst''
    exact .inl ⟨rfl, Option.some.inj hst'' ▸ hlive⟩
  · exact .inr ⟨Ne.symm hj, st', (getElem?_set_ne hj).symm.trans hst', hlive⟩

theorem forward_set (h : Live db k ∨ st = .rolledBack) :
    Forward db { db with cutovers := db.cutovers.set k st } := by
  refine ⟨fun j st' hst' hfinal => ?_, fun _ => .inl rfl⟩
  show (db.cutovers.set k st)[j]? = _ ∨ (db.cutovers.set k st)[j]? = _
  by_cases hj : k = j
  · subst hj
    rcases h with ⟨st'', hst'', hlive⟩ | rfl
    · rw [hst'] at hst''
      cases hst''
      rw [hfinal] at hlive
      cases hlive
    · exact .inr (getElem?_set_self (Program.lt_of_getElem? hst'))
  · rw [getElem?_set_ne hj]
    exact .inl hst'

/-- What a statement on a cutover leaves. -/
structure Moved (db db' : Db) (ops : List Op) : Prop where
  latest : Latest db'
  script : Script db' ops
  forward : Forward db db'

section

variable (hlatest : Latest db)
include hlatest

theorem Moved.same (h : Script db ops) : Moved db db ops := ⟨hlatest, h, .refl db⟩

theorem Moved.set (hk : Live db k) (h : Script { db with cutovers := db.cutovers.set k st } ops) :
    Moved db { db with cutovers := db.cutovers.set k st } ops := by
  refine ⟨fun j hj => ?_, h, forward_set (.inl hk)⟩
  rw [show (db.cutovers.set k st).length = db.cutovers.length from length_set]
  rcases live_set hj with ⟨rfl, -⟩ | ⟨-, hj⟩
  · exact hlatest _ hk
  · exact hlatest j hj

/-- The only open cutover is closed. -/
theorem free_set (hk : Live db k) (hst : st.live = false) :
    Free { db with cutovers := db.cutovers.set k st } := by
  refine ⟨(hlatest k hk).2, fun j hj => ?_⟩
  rcases live_set hj with ⟨-, hlive⟩ | ⟨hne, hj⟩
  · rw [hst] at hlive
    cases hlive
  · have := (hlatest k hk).1
    have := (hlatest j hj).1
    omega

end

theorem live_set_self (hk : Live db k) (hst : st.live) : Live { db with cutovers := db.cutovers.set k st } k := by
  obtain ⟨st', hst', -⟩ := hk
  exact ⟨st, getElem?_set_self (Program.lt_of_getElem? hst'), hst⟩

theorem Free.latest (h : Free db) (plan : PlanState) : Latest { db with plan := plan } :=
  fun k hk => absurd hk (h.2 k)

theorem eq_of_mem_stopped {cdc : Option Nat} (h : op ∈ stopped cdc) : ∃ i, op = .setStream i .stopped := by
  cases cdc with
  | none => cases h
  | some i => exact ⟨i, mem_singleton.mp h⟩

theorem filter_stopped (cdc : Option Nat) : (stopped cdc).filter Op.moves = [] := by
  cases cdc <;> rfl

/-- What a thread that has `ops` left to do to a cutover has left after a statement. -/
def left (ops : List Op) (more : Option (List Op)) : List Op := more.elim [] (·.filter Op.moves ++ ops)

theorem moved_handle (hlatest : Latest s.db) (hk : Live s.db k) (h : Handles k (op :: ops)) :
    Moved s.db (s.outcome src op x).1 (left ops (s.outcome src op x).2) := by
  unfold World.outcome
  split
  case isFalse => cases h <;> exact .same hlatest .nil
  case isTrue =>
    cases h with
    | drain => exact .set hlatest hk .nil
    | judge => exact .same hlatest (.handle hk .judgeStream)
    | judgeStream =>
      simp only [exec]
      split
      · exact .same hlatest (.handle hk .teardown)
      split
      · exact .same hlatest (.handle hk .fail)
      · exact .same hlatest .nil
    | @teardown cdc =>
      refine .same hlatest (.handle hk ?_)
      simp only [exec, left, Option.elim_some, filter_append, filter_stopped, append_nil]
      exact .switch
    | switch => exact .set hlatest hk (.handle (live_set_self hk rfl) .complete)
    | complete => exact .set hlatest hk (.complete (free_set hlatest hk rfl))
    | fail => exact .set hlatest hk (.reopen (free_set hlatest hk rfl))

/-- The cutover that is inserted is the only one open. -/
theorem moved_insert {k8s : Bool} {cdc : Option Nat} (h : Free s.db) (hok : x.ok) :
    Moved s.db (s.outcome src (.insertCutover k8s cdc) x).1
      (left [] (s.outcome src (.insertCutover k8s cdc) x).2) := by
  have hnew : Live { s.db with cutovers := s.db.cutovers ++ [.freezing] } s.db.cutovers.length :=
    ⟨.freezing, by simp, rfl⟩
  rw [World.outcome, if_pos hok]
  refine ⟨fun k ⟨st, hst, hlive⟩ => ?_, .handle hnew ?_, fun k st hst _ => ?_, fun _ => .inl rfl⟩
  · rcases Program.getElem?_snoc_iff.mp hst with hst | ⟨rfl, -⟩
    · exact absurd ⟨st, hst, hlive⟩ (h.2 k)
    · exact ⟨by simp [exec], h.1⟩
  · simp only [exec, left, Option.elim_some, append_nil]
    split
    · exact .drain
    · rw [filter_append, filter_stopped, append_nil]
      exact .switch
  · exact .inl ((getElem?_append_left (Program.lt_of_getElem? hst)).trans hst)

theorem moved_rollback (hlatest : Latest s.db) (hok : x.ok) :
    Moved s.db (s.outcome src .rollback x).1 (left [] (s.outcome src .rollback x).2) := by
  rw [World.outcome, if_pos hok]
  simp only [exec]
  split
  case isTrue hnil =>
    refine .same hlatest (.rolledBack fun k ⟨st, hst, _⟩ => ?_)
    rw [hnil] at hst
    cases hst
  case isFalse hne =>
    refine .same hlatest (.last ?_)
    have := length_pos_iff.mpr hne
    omega

theorem moved_last (hlatest : Latest s.db) (hk : k + 1 = s.db.cutovers.length) (hok : x.ok) :
    Moved s.db (s.outcome src (.setCutover k .rolledBack) x).1
      (left [.setPlan .rolledBack] (s.outcome src (.setCutover k .rolledBack) x).2) := by
  have hnone : ∀ j, ¬ Live { s.db with cutovers := s.db.cutovers.set k .rolledBack } j := by
    intro j hj
    rcases live_set hj with ⟨-, hlive⟩ | ⟨hne, hj⟩
    · cases hlive
    · have := (hlatest j hj).1
      omega
  rw [World.outcome, if_pos hok]
  exact ⟨fun j hj => absurd hj (hnone j), .rolledBack hnone, forward_set (.inr rfl)⟩

/-- A statement on a cutover, by the only thread that has one left. -/
theorem moved_outcome (src : Source) (x : Input) (hlatest : Latest s.db) (h : Script s.db (op :: ops)) :
    Moved s.db (s.outcome src op x).1 (left ops (s.outcome src op x).2) := by
  by_cases hok : x.ok
  · cases h with
    | insert h => exact moved_insert h hok
    | handle hk h => exact moved_handle hlatest hk h
    | complete h | reopen h =>
      rw [World.outcome, if_pos hok]
      exact ⟨h.latest _, .nil, forward_of_plan (.inl h.1)⟩
    | rollback => exact moved_rollback hlatest hok
    | last hk => exact moved_last hlatest hk hok
    | rolledBack h =>
      rw [World.outcome, if_pos hok]
      exact ⟨fun k hk => absurd hk (h k), .nil, forward_of_plan (.inr rfl)⟩
  · rw [World.outcome, if_neg hok]
    refine .same hlatest ?_
    cases h with
    | handle _ h => cases h <;> exact .nil
    | _ => exact .nil

/-! ### Other statements -/

/-- The guard of a cutover passes, or the reconciler lists what drains. -/
def Begins (s : World) (x : Input) : Op → Prop
  | .beginCutover .. => x.ok ∧ s.db.plan = .validated
  | .listDraining => x.ok ∧ .draining ∈ s.db.cutovers
  | _ => False

theorem mem_of_mem_places {α : Type} {p : α → Bool} {rows : List α} {i : Nat} (h : i ∈ places p rows) :
    ∃ a, rows[i]? = some a ∧ p a = true := by
  have hany := (mem_filter.mp h).2
  cases hrow : rows[i]? with
  | none => simp [hrow] at hany
  | some a => exact ⟨a, rfl, by simpa [hrow] using hany⟩

theorem left_eq_nil {more : Option (List Op)} (h : ∀ op ∈ more.getD [], op.moves = false) : left [] more = [] := by
  cases more with
  | none => rfl
  | some more => simpa [left] using h

theorem moves_of_mem_exec (hop : op.moves = false) (hbegin : ¬ Begins s x op) (hok : x.ok) :
    ∀ op' ∈ (exec src s.db x op).2.getD [], op'.moves = false := by
  intro op' h
  cases op with
  | drainFakeCdc =>
    obtain ⟨i, -, rfl⟩ := mem_map.mp h
    unfold drainedBy
    split <;> rfl
  | listEdges | listRunning | listStreaming =>
    obtain ⟨i, -, rfl⟩ := mem_map.mp h
    rfl
  | listDraining =>
    obtain ⟨i, hi, rfl⟩ := mem_map.mp h
    obtain ⟨st, hst, hdraining⟩ := mem_of_mem_places hi
    exact absurd ⟨hok, of_decide_eq_true hdraining ▸ mem_of_getElem? hst⟩ hbegin
  | _ => grind [exec, Op.moves, PlanState.past, Begins, eq_of_mem_stopped]

/-- What a statement does that neither moves a cutover nor begins to. -/
theorem plain_outcome (src : Source) (hop : op.moves = false) (hbegin : ¬ Begins s x op) :
    (s.outcome src op x).1.cutovers = s.db.cutovers ∧ left [] (s.outcome src op x).2 = [] ∧
      ((s.outcome src op x).1.plan = s.db.plan ∨ (s.outcome src op x).1.plan.past = false ∧
        (s.db.plan.past = false ∨ op.stages = true)) := by
  unfold World.outcome
  split
  case isFalse =>
    refine ⟨rfl, left_eq_nil ?_, .inl rfl⟩
    cases op <;> grind [Op.onError, Op.moves, PlanState.past]
  case isTrue hok =>
    refine ⟨?_, left_eq_nil (moves_of_mem_exec hop hbegin hok), ?_⟩
    · cases op <;> grind [exec, Db.setStream, Op.moves]
    · cases op with
      | setPlan st => exact .inr ⟨hop, .inr (by rw [Op.stages]; simp only [Op.moves] at hop; simp [hop])⟩
      | _ => grind [exec, Db.setStream, Op.moves, PlanState.past, Begins]

/-- No statement brings a stage before the cutover under way again. -/
theorem settled_outcome (src : Source) (x : Input) (h : Settled s) (hop : op.stages = false)
    (hplan : s.db.plan = .validated ∨ s.db.plan.past ∨ op.moves) :
    (∀ op' ∈ (s.outcome src op x).2.getD [], op'.stages = false) ∧
      true ∉ (s.outcome src op x).1.edges ∧ true ∉ (s.outcome src op x).1.validations := by
  obtain ⟨-, hedges, hvalidations⟩ := h
  unfold World.outcome
  split
  case isFalse =>
    refine ⟨?_, hedges, hvalidations⟩
    cases op <;> grind [Op.onError, Op.stages]
  case isTrue =>
    refine ⟨fun op' hmem => ?_, ?_⟩
    · cases op with
      | drainFakeCdc =>
        obtain ⟨i, -, rfl⟩ := mem_map.mp hmem
        unfold drainedBy
        split <;> rfl
      | listStreaming | listDraining =>
        obtain ⟨i, -, rfl⟩ := mem_map.mp hmem
        rfl
      | listEdges | listRunning =>
        obtain ⟨i, hi, rfl⟩ := mem_map.mp hmem
        obtain ⟨b, hb, rfl⟩ := mem_of_mem_places hi
        have := mem_of_getElem? hb
        contradiction
      | _ => grind [exec, Op.stages, Op.moves, PlanState.past, eq_of_mem_stopped]
    · have hset : ∀ {l : List Bool} {i : Nat}, true ∉ l → true ∉ l.set i false :=
        fun hl hmem => (mem_or_eq_of_mem_set hmem).elim hl nofun
      cases op <;> grind [exec, Db.setStream, Op.stages]

/-! ### Runs -/

/-- At most one thread has something left to do to a cutover, and what it has fits the rows; past the
start of a cutover no earlier stage is under way. -/
structure Inv (s : World) : Prop where
  latest : Latest s.db
  one : ∀ t t', s.script t ≠ [] → s.script t' ≠ [] → t = t'
  fits : ∀ t, Script s.db (s.script t)
  settled : s.db.plan.past → Settled s

theorem script_of_ne {t' : Task} (h : t' ≠ t) : (s.exec src t x op rest).script t' = s.script t' := by
  simp only [World.script, World.exec, update_of_ne h]

theorem script_exec : (s.exec src t x op rest).script t =
    left (rest.filter Op.moves) (s.outcome src op x).2 := by
  simp only [World.script, World.exec, update_self, left]
  cases (s.outcome src op x).2 with
  | none => rfl
  | some more => exact filter_append ..

theorem Script.congr (hcut : db'.cutovers = db.cutovers)
    (hplan : db.plan = .cutoverInProgress → db'.plan = .cutoverInProgress) (h : Script db ops) : Script db' ops := by
  have hlive : ∀ {k}, Live db' k ↔ Live db k := by simp only [Live, hcut, implies_true]
  have hfree : Free db → Free db' := fun hf => ⟨hplan hf.1, fun k hk => hf.2 k (hlive.mp hk)⟩
  cases h with
  | nil => exact .nil
  | insert h => exact .insert (hfree h)
  | handle hk h => exact .handle (hlive.mpr hk) h
  | complete h => exact .complete (hfree h)
  | reopen h => exact .reopen (hfree h)
  | rollback => exact .rollback
  | last hk => exact .last (hcut ▸ hk)
  | rolledBack h => exact .rolledBack fun k hk => h k (hlive.mp hk)

theorem left_of_nil {more : Option (List Op)} (h : left [] more = []) (ops : List Op) :
    left ops more = ops ∨ left ops more = [] := by
  cases more with
  | none => exact .inr rfl
  | some more =>
    refine .inl ?_
    rw [left, Option.elim_some, append_nil] at h
    rw [left, Option.elim_some, h, nil_append]

/-- The reconciler finds at most one cutover that drains. -/
theorem judging (hlatest : Latest db) {ks : List Nat} (hlive : ∀ k ∈ ks, Live db k) (hnodup : ks.Nodup) :
    Script db (ks.map .judge) := by
  rcases ks with _ | ⟨k, _ | ⟨k', ks⟩⟩
  · exact .nil
  · exact .handle (hlive k mem_cons_self) .judge
  · have hk := (hlatest k (hlive k (by simp))).1
    have hk' := (hlatest k' (hlive k' (by simp))).1
    have hne : k ≠ k' := by
      rintro rfl
      simp at hnodup
    omega

section

variable (hthread : s.threads t = op :: rest)
include hthread

theorem Settled.exec (hs : Settled s) (hplan : s.db.plan = .validated ∨ s.db.plan.past ∨ op.moves) :
    Settled (s.exec src t x op rest) := by
  have hmine := hs.threads t
  rw [hthread] at hmine
  obtain ⟨hmore, hedges, hvalidations⟩ := settled_outcome src x hs (hmine op mem_cons_self) hplan
  refine ⟨fun t' op' hmem => ?_, hedges, hvalidations⟩
  by_cases ht : t' = t
  · subst ht
    simp only [World.exec, update_self] at hmem
    cases hout : (s.outcome src op x).2 with
    | none => simp [hout] at hmem
    | some more =>
      rw [hout] at hmem hmore
      rcases mem_append.mp hmem with hmem | hmem
      · exact hmore op' hmem
      · exact hmine op' (mem_cons_of_mem _ hmem)
  · simp only [World.exec, update_of_ne ht] at hmem
    exact hs.threads t' op' hmem

theorem Inv.next (h : Inv s) (hlatest : Latest (s.outcome src op x).1)
    (hscript : Script (s.outcome src op x).1 (left (rest.filter Op.moves) (s.outcome src op x).2))
    (hothers : ∀ t' ≠ t, Script (s.outcome src op x).1 (s.script t'))
    (hone : left (rest.filter Op.moves) (s.outcome src op x).2 ≠ [] → ∀ t' ≠ t, s.script t' = [])
    (hsettled : (s.outcome src op x).1.plan.past → Settled s ∧
      (s.db.plan = .validated ∨ s.db.plan.past ∨ op.moves)) : Inv (s.exec src t x op rest) where
  latest := hlatest
  one t1 t2 h1 h2 := by
    by_cases ht1 : t1 = t
    · subst ht1
      by_contra hne
      rw [script_of_ne (Ne.symm hne)] at h2
      rw [script_exec] at h1
      exact h2 (hone h1 t2 (Ne.symm hne))
    · rw [script_of_ne ht1] at h1
      by_cases ht2 : t2 = t
      · subst ht2
        rw [script_exec] at h2
        exact absurd (hone h2 t1 ht1) h1
      · rw [script_of_ne ht2] at h2
        exact h.one t1 t2 h1 h2
  fits t' := by
    by_cases ht : t' = t
    · subst ht
      rw [script_exec]
      exact hscript
    · rw [script_of_ne ht]
      exact hothers t' ht
  settled hpast := (hsettled hpast).1.exec hthread (hsettled hpast).2

variable (h : Inv s)
include h

/-- The next statement is one on a cutover. -/
theorem Inv.moved (hop : op.moves = true) (he : Orderly s (.run t x)) :
    Inv (s.exec src t x op rest) ∧ Forward s.db (s.outcome src op x).1 := by
  have hmine : s.script t = op :: rest.filter Op.moves := by rw [World.script, hthread, filter_cons_of_pos hop]
  have hscript := h.fits t
  rw [hmine] at hscript
  have hothers : ∀ t' ≠ t, s.script t' = [] := fun t' ht => by
    by_contra hne
    exact ht (h.one t' t hne (by rw [hmine]; exact cons_ne_nil _ _))
  have hmoved := moved_outcome src x h.latest hscript
  refine ⟨h.next hthread hmoved.latest hmoved.script (fun t' ht => ?_) (fun _ => hothers) fun hpast => ⟨?_, .inr (.inr hop)⟩,
    hmoved.forward⟩
  · rw [hothers t' ht]
    exact .nil
  · by_cases hbefore : s.db.plan.past = true
    · exact h.settled hbefore
    -- only the end of a rollback takes a plan past its cutover that was not
    have hfree : ¬ Free s.db := fun hfree => hbefore (by rw [hfree.1]; rfl)
    have hlive : ∀ k, ¬ Live s.db k := fun k hk => hbefore (by rw [(h.latest k hk).2]; rfl)
    generalize rest.filter Op.moves = ops at hscript
    unfold World.outcome at hpast
    cases hscript with
    | insert hf | complete hf | reopen hf => exact absurd hf hfree
    | handle hk => exact absurd hk (hlive _)
    | rollback | last => split at hpast <;> exact absurd hpast hbefore
    | rolledBack =>
      split at hpast
      case isTrue hok => exact he hok _ _ hthread
      case isFalse => exact absurd hpast hbefore

/-- A cutover passes its guard, or the reconciler takes up one that drains. -/
theorem Inv.begun (hbegin : Begins s x op) (he : Orderly s (.run t x)) :
    Inv (s.exec src t x op rest) ∧ Forward s.db (s.outcome src op x).1 := by
  -- no thread, this one included, has anything left to do to a cutover
  have hrest : (∀ t, s.script t = []) → rest.filter Op.moves = [] := fun hall => by
    have hmine := hall t
    rw [World.script, hthread] at hmine
    exact filter_eq_nil_iff.mpr fun op' hmem => filter_eq_nil_iff.mp hmine op' (mem_cons_of_mem _ hmem)
  cases op with
  | beginCutover k8s cdc =>
    obtain ⟨hok, hplan⟩ := hbegin
    obtain ⟨hidle, hsettled⟩ := he hok _ _ hthread hplan
    have hout : s.outcome src (.beginCutover k8s cdc) x =
        ({ s.db with plan := .cutoverInProgress }, some [.insertCutover k8s cdc]) := by
      simp [World.outcome, exec, hok, hplan]
    have hnone : ∀ k, ¬ Live s.db k := fun k hk => by
      have := (h.latest k hk).2
      rw [hplan] at this
      cases this
    refine ⟨h.next hthread ?_ ?_ (fun t' _ => ?_) (fun _ t' _ => hidle t') fun _ => ⟨hsettled, .inl hplan⟩, ?_⟩
    · rw [hout]
      exact fun k hk => absurd hk (hnone k)
    · rw [hout, hrest hidle]
      exact .insert ⟨rfl, hnone⟩
    · rw [hidle t']
      exact .nil
    · rw [hout]
      refine ⟨fun _ _ hst _ => .inl hst, fun hpast => ?_⟩
      rcases hpast with heq | heq <;> rw [hplan] at heq <;> cases heq
  | listDraining =>
    obtain ⟨hok, hdraining⟩ := hbegin
    have hidle := he hok _ _ hthread hdraining
    have hout : s.outcome src .listDraining x =
        (s.db, some ((places (· = .draining) s.db.cutovers).map .judge)) := by
      simp [World.outcome, exec, hok]
    have hlive : ∀ k ∈ places (· = .draining) s.db.cutovers, Live s.db k := fun k hk => by
      obtain ⟨st, hst, hdraining⟩ := mem_of_mem_places hk
      exact ⟨st, hst, by rw [of_decide_eq_true hdraining]; rfl⟩
    refine ⟨h.next hthread ?_ ?_ (fun t' _ => ?_) (fun _ t' _ => hidle t') fun hpast => ?_, ?_⟩
    · rw [hout]
      exact h.latest
    · rw [hout, hrest hidle]
      show Script s.db ((map Op.judge _).filter Op.moves ++ [])
      rw [append_nil, filter_eq_self.mpr fun op' hmem => ?_]
      · exact judging h.latest hlive ((nodup_range).filter _)
      · obtain ⟨k, -, rfl⟩ := mem_map.mp hmem
        rfl
    · rw [hidle t']
      exact .nil
    · rw [hout] at hpast
      exact ⟨h.settled hpast, .inr (.inl hpast)⟩
    · rw [hout]
      exact .refl _
  | _ => exact hbegin.elim

/-- Any other statement. -/
theorem Inv.plain (hop : op.moves = false) (hbegin : ¬ Begins s x op) :
    Inv (s.exec src t x op rest) ∧ Forward s.db (s.outcome src op x).1 := by
  have hmine : s.script t = rest.filter Op.moves := by
    rw [World.script, hthread, filter_cons_of_neg (by simp [hop])]
  obtain ⟨hcut, hleft, hplan⟩ := plain_outcome src hop hbegin
  -- past the start of a cutover the plan stays as it is
  have hsame : s.db.plan.past → (s.outcome src op x).1.plan = s.db.plan := fun hpast => by
    rcases hplan with heq | ⟨-, hnot | hstages⟩
    · exact heq
    · rw [hpast] at hnot
      cases hnot
    · have := (h.settled hpast).threads t op (by rw [hthread]; exact mem_cons_self)
      rw [hstages] at this
      cases this
  have hprogress : s.db.plan = .cutoverInProgress → (s.outcome src op x).1.plan = .cutoverInProgress :=
    fun heq => (hsame (by rw [heq]; rfl)).trans heq
  have hlive : ∀ {k}, Live (s.outcome src op x).1 k → Live s.db k := fun ⟨st, hst, hl⟩ => ⟨st, hcut ▸ hst, hl⟩
  refine ⟨h.next hthread (fun k hk => ?_) ?_ (fun t' _ => (h.fits t').congr hcut hprogress) ?_ fun hpast => ?_, ?_, ?_⟩
  · obtain ⟨hlast, heq⟩ := h.latest k (hlive hk)
    exact ⟨hcut ▸ hlast, hprogress heq⟩
  · rcases left_of_nil hleft (rest.filter Op.moves) with heq | heq <;> rw [heq]
    · exact hmine ▸ (h.fits t).congr hcut hprogress
    · exact .nil
  · intro hne t' ht
    by_contra hne'
    refine ht (h.one t' t hne' fun hnil => hne ?_)
    rcases left_of_nil hleft (rest.filter Op.moves) with heq | heq
    · rw [heq, ← hmine, hnil]
    · exact heq
  · have hpast' : s.db.plan.past = true := by
      rcases hplan with heq | ⟨hnot, -⟩
      · rwa [← heq]
      · rw [hpast] at hnot
        cases hnot
    exact ⟨h.settled hpast', .inr (.inl hpast')⟩
  · exact fun k st hst _ => .inl (hcut ▸ hst)
  · exact fun hpast => .inl (hsame (by rcases hpast with heq | heq <;> rw [heq] <;> rfl))

theorem Inv.exec (he : Orderly s (.run t x)) :
    Inv (s.exec src t x op rest) ∧ Forward s.db (s.outcome src op x).1 := by
  by_cases hop : op.moves = true
  · exact h.moved hthread hop he
  by_cases hbegin : Begins s x op
  · exact h.begun hthread hbegin he
  · exact h.plain hthread (by simpa using hop) hbegin

end

/-- A job or a tick starts. -/
theorem Inv.start (h : Inv s) {ops : List Op} (hscript : Script s.db (ops.filter Op.moves))
    (halone : ops.filter Op.moves ≠ [] → ∀ t' ≠ t, s.script t' = [])
    (hstages : s.db.plan.past → ∀ op ∈ ops, op.stages = false) :
    Inv { s with threads := update s.threads t ops } := by
  have hself : World.script { s with threads := update s.threads t ops } t = ops.filter Op.moves := by
    simp only [World.script, update_self]
  have hother : ∀ t' ≠ t, World.script { s with threads := update s.threads t ops } t' = s.script t' := by
    intro t' ht
    simp only [World.script, update_of_ne ht]
  refine ⟨h.latest, fun t1 t2 h1 h2 => ?_, fun t' => ?_, fun hpast => ⟨fun t' op hmem => ?_,
    (h.settled hpast).edges, (h.settled hpast).validations⟩⟩
  · by_cases ht1 : t1 = t <;> by_cases ht2 : t2 = t
    · exact ht1.trans ht2.symm
    · rw [ht1, hself] at h1
      exact absurd (halone h1 t2 ht2) (hother t2 ht2 ▸ h2)
    · rw [ht2, hself] at h2
      exact absurd (halone h2 t1 ht1) (hother t1 ht1 ▸ h1)
    · exact h.one t1 t2 (hother t1 ht1 ▸ h1) (hother t2 ht2 ▸ h2)
  · by_cases ht : t' = t
    · rw [ht, hself]
      exact hscript
    · rw [hother t' ht]
      exact h.fits t'
  · by_cases ht : t' = t
    · subst ht
      exact hstages hpast op (by simpa using hmem)
    · exact (h.settled hpast).threads t' op (by simpa [ht] using hmem)

theorem filter_program {j : Job} (hj : j ≠ .rollback) (src : Source) (k8s : Bool) :
    (j.program src k8s).filter Op.moves = [] := by
  refine filter_eq_nil_iff.mpr fun op hmem => ?_
  cases j <;> grind [Job.program, Op.moves, PlanState.past]

theorem Inv.enqueue (h : Inv s) {i : Nat} {j : Job} {k8s : Bool} (he : Orderly s (.enqueue i j k8s)) :
    Inv (step src s (.enqueue i j k8s)) := by
  have hstages : s.db.plan.past → ∀ op ∈ j.program src k8s, op.stages = false := by
    intro hpast
    cases j with
    | assess | fullLoad | validate =>
      rw [show s.db.plan.past = false from he] at hpast
      cases hpast
    | _ => simp [Job.program, Op.stages]
  by_cases hj : j = .rollback
  · subst hj
    exact h.start .rollback (fun _ => he) hstages
  · have hnone := filter_program hj src k8s
    refine h.start ?_ (fun hne => absurd hnone hne) hstages
    rw [hnone]
    exact .nil

theorem Inv.tick (h : Inv s) (k8s : Bool) : Inv (step src s (.tick k8s)) := by
  refine h.start ?_ (fun hne => absurd ?_ hne) fun _ => ?_
  · cases k8s <;> exact .nil
  · cases k8s <;> rfl
  · cases k8s <;> simp [reconcileOnce, Op.stages]

theorem Inv.step (h : Inv s) (he : Orderly s e) : Inv (step src s e) ∧ Forward s.db (step src s e).db := by
  cases e with
  | enqueue i j k8s => exact ⟨h.enqueue he, .refl _⟩
  | tick k8s => exact ⟨h.tick k8s, .refl _⟩
  | run t x =>
    cases hthread : s.threads t with
    | nil =>
      simp only [Databridge.step, hthread]
      exact ⟨h, .refl _⟩
    | cons op rest =>
      simp only [Databridge.step, hthread]
      exact h.exec hthread he

theorem inv_start (hcut : db.cutovers = []) (hplan : db.plan.past = false) : Inv { db := db } where
  latest k := by
    rintro ⟨st, hst, -⟩
    simp [hcut] at hst
  one _ _ h := absurd rfl h
  fits _ := .nil
  settled hpast := by
    rw [show db.plan.past = false from hplan] at hpast
    cases hpast

/-- While jobs keep out of each other's way, a plan never has two open cutovers, a final cutover is at
most rolled back, and so is a plan past its cutover. -/
theorem plans_move_forward {events later : List Event} (hcut : db.cutovers = [])
    (hplan : db.plan.past = false) (h : Meets (step src) { db := db } Orderly (events ++ later)) :
    let s := events.foldl (step src) { db := db }
    let s' := later.foldl (step src) s
    (∀ (k k' : Nat) (st st' : CutoverState), s.db.cutovers[k]? = some st → st.live →
      s.db.cutovers[k']? = some st' → st'.live → k = k') ∧
    (∀ (k : Nat) (st : CutoverState), s.db.cutovers[k]? = some st → st.live = false →
      s'.db.cutovers[k]? = some st ∨ s'.db.cutovers[k]? = some .rolledBack) ∧
    (s.db.plan = .rolledBack ∨ s.db.plan = .cutoverComplete →
      s'.db.plan = s.db.plan ∨ s'.db.plan = .rolledBack) := by
  intro s s'
  have hinv : Inv s := h.first.invariant (inv_start hcut hplan) fun s1 e h1 he => (h1.step he).1
  have hforward : Inv s' ∧ Forward s.db s'.db :=
    h.rest.invariant (I := fun s1 => Inv s1 ∧ Forward s.db s1.db) ⟨hinv, .refl _⟩ fun s1 e h1 he =>
      ⟨(h1.1.step he).1, h1.2.trans (h1.1.step he).2⟩
  refine ⟨fun k k' st st' hst hlive hst' hlive' => ?_, hforward.2.final, hforward.2.past⟩
  have hk := (hinv.latest k ⟨st, hst, hlive⟩).1
  have hk' := (hinv.latest k' ⟨st', hst', hlive'⟩).1
  omega

/-- A job of a plan whose source is on the cluster, without an error, for `n` statements. -/
def Job.whole (j : Job) (i n : Nat) : List Event :=
  .enqueue i j true :: List.replicate n (.run (.job i) {})

/-- A cutover drains, completes and is rolled back. -/
theorem plans_move_forward_rollback :
    let switch := Job.cutover.whole 0 4 ++ .tick true :: replicate 13 (.run .reconciler {})
    let s := switch.foldl (step ⟨false, true⟩) { db := { plan := .validated } }
    let s' := (Job.rollback.whole 0 3).foldl (step ⟨false, true⟩) s
    s.db.cutovers = [.complete] ∧ s'.db.cutovers = [.rolledBack] ∧
    (∀ (k k' : Nat) (st st' : CutoverState), s.db.cutovers[k]? = some st → st.live →
      s.db.cutovers[k']? = some st' → st'.live → k = k') ∧
    (∀ (k : Nat) (st : CutoverState), s.db.cutovers[k]? = some st → st.live = false →
      s'.db.cutovers[k]? = some st ∨ s'.db.cutovers[k]? = some .rolledBack) ∧
    (s.db.plan = .rolledBack ∨ s.db.plan = .cutoverComplete →
      s'.db.plan = s.db.plan ∨ s'.db.plan = .rolledBack) := by
  refine ⟨by decide +kernel, by decide +kernel, plans_move_forward rfl rfl ?_⟩
  repeat' refine Program.meets_cons ?_ ?_
  all_goals first
    | exact Program.meets_nil
    | trivial
    | (intro _ op rest h; cases h; trivial)
    | skip
  -- the guard of the cutover, the list of those that drain, the start and the end of the rollback
  · rintro - op rest ⟨⟩ -
    refine ⟨?_, ?_, by decide, by decide⟩
    · rintro (_ | _ | i) <;> rfl
    · rintro (_ | _ | i)
      · decide
      · decide
      · exact fun _ h => absurd h not_mem_nil
  · rintro - op rest ⟨⟩ - (_ | _ | i) <;> rfl
  · rintro (_ | _ | i) - <;> rfl
  · rintro - op rest ⟨⟩
    refine ⟨?_, by decide +kernel, by decide +kernel⟩
    rintro (_ | _ | i)
    · decide +kernel
    · decide +kernel
    · exact fun _ h => absurd h not_mem_nil

/-- A validation of a plan whose cutover drains lets a second cutover start, a rollback changes a
cutover that has completed, and a validation takes a plan that was rolled back to an earlier
stage. -/
theorem plan_moves_back :
    let run (events : List Event) : Db :=
      (events.foldl (step ⟨false, false⟩) { db := { plan := .validated } }).db
    let again := Job.cutover.whole 0 4 ++ Job.validate.whole 1 5 ++ Job.cutover.whole 2 4
    let switch := Job.cutover.whole 0 4 ++ [.tick true] ++ replicate 14 (.run .reconciler {})
    let back := switch ++ Job.rollback.whole 1 3
    (run again).cutovers = [.draining, .draining] ∧
    (run switch).cutovers = [.complete] ∧ (run switch).plan = .cutoverComplete ∧
    (run back).cutovers = [.rolledBack] ∧ (run back).plan = .rolledBack ∧
    (run (back ++ Job.validate.whole 2 5)).plan = .validated := by
  decide +kernel

end AtlasNative.Databridge
