import AtlasNative.Node.Shards
import AtlasNative.Program.Runs

/-!
# One group per id

Two requests that create objects of one id in different groups may both find the id free before
either commits. Where no creation elsewhere falls between the start of a request and its commit, and
where a look-up does not find an object that its group has deleted since, at most one group holds an
id.
-/

namespace AtlasNative.Node

open List Bool

/-! ### What a log adds -/

theorem catalogOf_snoc (log : Log) (e : Nat × MetaCommand) : catalogOf (log ++ [e]) =
      ((catalogOf log).applyCommitted e.1 (log.length + 1) e.2).2 := by
  rw [catalogOf, zipIdx_append, foldl_append]
  simp [catalogOf]

/-- What a log has and a first part of it has not is created in the rest. -/
theorem holds_of_append {kind : ObjectKind} {id : String} (log later : Log)
    (h : (catalogOf (log ++ later)).holds kind id = true) :
    (catalogOf log).holds kind id = true ∨ ∃ e ∈ later, e.2.creates = some (kind, id) := by
  induction later using reverseRecOn with
  | nil => exact .inl (by rwa [append_nil] at h)
  | append_singleton later e ih =>
    rw [← append_assoc, catalogOf_snoc] at h
    rcases Catalog.holds_of_applyCommittedWith h with hold | hnew
    · exact (ih hold).imp_right fun ⟨e', he', hc⟩ => ⟨e', mem_append_left _ he', hc⟩
    · exact .inr ⟨e, by simp, hnew⟩

theorem holds_of_take {kind : ObjectKind} {id : String} {log : Log} {n m : Nat} (hnm : n ≤ m)
    (hclean : ∀ e ∈ log.drop n, e.2.creates ≠ some (kind, id))
    (h : (catalogOf log).holds kind id = true) :
    (catalogOf (log.take m)).holds kind id = true := by
  rw [← take_append_drop m log] at h
  refine (holds_of_append _ _ h).resolve_right fun ⟨e, he, hc⟩ => hclean e ?_ hc
  exact (drop_sublist_drop_left log hnm).subset he

namespace Cluster

variable {s s' : Cluster} {p : Served} {kind : ObjectKind} {id : String} {r group : Nat}

theorem held_of_ge (h : s.logs.length ≤ group) : s.held group kind id = false := by
  rw [held, log, getD_eq_getElem?_getD, getElem?_eq_none h]
  cases kind <;> rfl

theorem log_append (s : Cluster) (group term : Nat) (cmd : MetaCommand) (g : Nat) : (s.append group term cmd).log g =
      if g = group ∧ g < s.logs.length then s.log g ++ [(term, cmd)] else s.log g := by
  unfold log append
  rw [getD_eq_getElem?_getD, getD_eq_getElem?_getD, getElem?_modify]
  by_cases hlt : g < s.logs.length
  · rw [getElem?_eq_getElem hlt]
    by_cases hg : group = g
    · simp [hg, hlt]
    · simp [hg, Ne.symm hg]
  · rw [getElem?_eq_none (by omega)]
    simp [hlt]

theorem held_of_append {term : Nat} {cmd : MetaCommand} {g : Nat}
    (h : (s.append group term cmd).held g kind id = true) :
    s.held g kind id = true ∨ g = group ∧ cmd.creates = some (kind, id) := by
  rw [held, log_append] at h
  split at h
  · rename_i hg
    refine (holds_of_append _ _ h).imp_right fun ⟨e, he, hc⟩ => ⟨hg.1, ?_⟩
    rw [mem_singleton.mp he] at hc
    exact hc
  · exact .inl h

/-! ### The condition -/

/-- The object that a request looks for, and where the look-up stands. -/
def looking (p : Served) : Option ((ObjectKind × String) × Look) :=
  match p.phase with
  | .route look => some (p.request.routed, look)
  | .claim _ look => p.request.claimed.map fun o => (o, look)
  | _ => none

/-- Since the request began, the group has committed no creation of its object. -/
def clean (s : Cluster) (p : Served) (group : Nat) : Bool :=
  ((s.log group).drop (p.since.getD group 0)).all fun e => e.2.creates ≠ p.request.creates

/-- A look-up for the object to create finds it only in a group that still holds it. A group commits
a creation only if no other group has, since the request began, committed one of the same object. -/
def careful (s : Cluster) : Event → Bool
  | .step r =>
    match s.requests[r]?.bind fun p => (looking p).map fun l => (p, l) with
    | none => true
    | some (p, (kind, id), look) =>
      match s.locate p.node kind id look with
      | .inr (some group) => p.request.creates ≠ some (kind, id) || s.held group kind id
      | _ => true
  | .commit r _ =>
    match s.requests[r]? with
    | none => true
    | some p =>
      match p.phase with
      | .commit group => p.request.creates.isNone ||
        (List.range s.logs.length).all fun g => g = group || s.clean p g
      | _ => true
  | _ => true

/-! ### The invariant -/

/-- What a request knows about the object that it is to create. -/
structure Known (s : Cluster) (p : Served) : Prop where
  since : ∀ g, p.since.getD g 0 ≤ (s.log g).length
  need : ∀ o need, looking p = some (o, .barrier need) → ∀ g, p.since.getD g 0 ≤ need.getD g 0
  caught : ∀ o k, looking p = some (o, .second k) → ∀ g, p.since.getD g 0 ≤ s.applied p.node g
  passed : ∀ kind id k, looking p = some ((kind, id), .second k) →
    p.request.creates = some (kind, id) → ∀ g < k, s.clean p g = true → s.held g kind id = false
  group : ∀ g, (p.phase = .commit g ∨ ∃ look, p.phase = .claim g look) → g < max s.logs.length 1
  placed : ∀ g kind id, p.phase = .commit g → p.request.creates = some (kind, id) →
    ∀ g', g' ≠ g → s.clean p g' = true → s.held g' kind id = false

structure Inv (s : Cluster) : Prop where
  unique : ∀ kind id g g', s.held g kind id = true → s.held g' kind id = true → g = g'
  known : ∀ p ∈ s.requests, s.Known p

theorem clean_iff : s.clean p group = true ↔
    ∀ e ∈ (s.log group).drop (p.since.getD group 0), e.2.creates ≠ p.request.creates := by
  rw [clean, all_eq_true]
  simp

/-- A clean group whose replica does not have the object does not hold it either. -/
theorem held_of_unseen {node : Nat} (hclean : s.clean p group = true) (hcreates : p.request.creates = some (kind, id))
    (happlied : p.since.getD group 0 ≤ s.applied node group)
    (hunseen : s.sees node group kind id = false) : s.held group kind id = false := by
  by_contra hheld
  have hsees : s.sees node group kind id = true :=
    holds_of_take happlied (fun e he => hcreates ▸ clean_iff.mp hclean e he) (eq_true_of_not_eq_false hheld)
  rw [hunseen] at hsees
  cases hsees

/-! ### Look-ups -/

/-- What holds of a look-up for object `o`. -/
structure Looked (s : Cluster) (p : Served) (o : ObjectKind × String) (look : Look) : Prop where
  need : ∀ need, look = .barrier need → ∀ g, p.since.getD g 0 ≤ need.getD g 0
  caught : ∀ k, look = .second k → ∀ g, p.since.getD g 0 ≤ s.applied p.node g
  passed : ∀ k, look = .second k → p.request.creates = some o →
    ∀ g < k, s.clean p g = true → s.held g o.1 o.2 = false

variable {o : ObjectKind × String} {look : Look}

theorem Known.looked (h : s.Known p) (hlook : looking p = some (o, look)) : s.Looked p o look :=
  ⟨fun need heq => h.need o need (heq ▸ hlook), fun k heq => h.caught o k (heq ▸ hlook),
    fun k heq => h.passed o.1 o.2 k (heq ▸ hlook)⟩

theorem Looked.first (s : Cluster) (p : Served) (o : ObjectKind × String) (k : Nat) :
    s.Looked p o (.first k) := ⟨nofun, nofun, nofun⟩

theorem log_length (s : Cluster) (g : Nat) : (s.logs.map length).getD g 0 = (s.log g).length := by
  rw [log, getD_eq_getElem?_getD, getD_eq_getElem?_getD, getElem?_map]
  cases s.logs[g]? <;> rfl

theorem Looked.next {look' : Look} (h : s.Looked p o look) (hsince : ∀ g, p.since.getD g 0 ≤ (s.log g).length)
    (hnext : s.locate p.node o.1 o.2 look = .inl look') : s.Looked p o look' := by
  cases look with
  | first k =>
    dsimp only [locate] at hnext
    split at hnext
    · split at hnext
      · cases hnext
      · cases hnext
        exact .first s p o (k + 1)
    split at hnext
    · cases hnext
    · cases hnext
      refine ⟨fun need heq g => ?_, nofun, nofun⟩
      cases heq
      rw [log_length]
      exact hsince g
  | barrier need =>
    dsimp only [locate] at hnext
    split at hnext
    · rename_i hall
      cases hnext
      refine ⟨nofun, fun k _ g => ?_, fun k heq _ g hg => ?_⟩
      · -- the barrier covers what was committed before the request began
        refine (h.need need rfl g).trans ?_
        rw [getD_eq_getElem?_getD]
        cases hn : need[g]? with
        | none => exact Nat.zero_le _
        | some n =>
          have hmem : (n, g) ∈ need.zipIdx := mem_zipIdx_iff_getElem?.mpr hn
          exact of_decide_eq_true (all_eq_true.mp hall (n, g) hmem)
      · cases heq
        exact absurd hg (Nat.not_lt_zero g)
    · cases hnext
      exact h
  | second k =>
    dsimp only [locate] at hnext
    split at hnext
    · split at hnext
      · cases hnext
      · rename_i hunseen
        cases hnext
        refine ⟨nofun, fun _ _ => h.caught k rfl, fun k' heq hcreates g hg hclean => ?_⟩
        cases heq
        rcases Nat.lt_succ_iff_lt_or_eq.mp hg with hlt | rfl
        · exact h.passed k rfl hcreates g hlt hclean
        · exact held_of_unseen hclean hcreates (h.caught g rfl g) (eq_false_of_not_eq_true hunseen)
    · cases hnext

theorem Looked.missed (h : s.Looked p o look) (hnone : s.locate p.node o.1 o.2 look = .inr none)
    (hcreates : p.request.creates = some o) :
    s.logs.length = 1 ∨ ∀ g, s.clean p g = true → s.held g o.1 o.2 = false := by
  cases look with
  | first k =>
    dsimp only [locate] at hnone
    split at hnone
    · split at hnone <;> cases hnone
    split at hnone
    · rename_i hone
      exact .inl hone
    · cases hnone
  | barrier need =>
    dsimp only [locate] at hnone
    split at hnone <;> cases hnone
  | second k =>
    dsimp only [locate] at hnone
    split at hnone
    · split at hnone <;> cases hnone
    refine .inr fun g hclean => ?_
    rcases lt_or_ge g s.logs.length with hlt | hge
    · exact h.passed k rfl hcreates g (by omega) hclean
    · exact held_of_ge hge

theorem lt_of_locate {node : Nat} (h : s.locate node kind id look = .inr (some group)) : group < s.logs.length := by
  cases look with
  | barrier need =>
    dsimp only [locate] at h
    split at h <;> cases h
  | first k =>
    dsimp only [locate] at h
    split at h
    · rename_i hlt
      split at h
      · cases h
        exact hlt
      · cases h
    · split at h <;> cases h
  | second k =>
    dsimp only [locate] at h
    split at h
    · rename_i hlt
      split at h
      · cases h
        exact hlt
      · cases h
    · cases h

theorem home_lt (id : String) (groups : Nat) : home id groups < max groups 1 := Nat.mod_lt _ (by omega)

/-! ### A step of a request -/

section

variable (h : s.Known p)
include h

theorem Known.over : s.Known { p with phase := .over } :=
  ⟨h.since, nofun, nofun, nofun, fun _ hg => (hg.elim nofun nofun : False).elim, nofun⟩

theorem Known.moved {phase : Phase} (hcommit : ∀ g, phase ≠ .commit g)
    (hgroup : ∀ g look, phase = .claim g look → g < max s.logs.length 1)
    (hlook : ∀ o look, looking { p with phase := phase } = some (o, look) → s.Looked p o look) :
    s.Known { p with phase := phase } := by
  refine ⟨h.since, fun o need hl => (hlook o _ hl).need need rfl, fun o k hl => (hlook o _ hl).caught k rfl,
    fun kind id k hl hc => (hlook (kind, id) _ hl).passed k rfl hc, fun g hg => ?_,
    fun g _ _ heq => absurd heq (hcommit g)⟩
  rcases hg with heq | ⟨look, heq⟩
  · exact absurd heq (hcommit g)
  · exact hgroup g look heq

theorem Known.enter (hgroup : group < max s.logs.length 1) (hplaced : ∀ kind id, p.request.creates = some (kind, id) →
      ∀ g, g ≠ group → s.clean p g = true → s.held g kind id = false) :
    s.Known { p with phase := s.enter p.request group } := by
  unfold Cluster.enter
  split
  · refine ⟨h.since, nofun, nofun, nofun, fun g hg => ?_, fun g kind id heq hc g' hne => ?_⟩
    · rcases hg with heq | ⟨look, heq⟩
      · cases heq
        exact hgroup
      · cases heq
    · cases heq
      exact hplaced kind id hc g' hne
  · exact h.over

omit h in
/-- What a finished look-up for the object to create says about the other groups. -/
theorem Looked.others {found : Option Nat} (h : s.Looked p o look) (hinv : s.Inv)
    (hcreates : p.request.creates = some o) (hfound : s.locate p.node o.1 o.2 look = .inr found)
    (hheld : ∀ g, found = some g → s.held g o.1 o.2 = true) (hgroup : group < max s.logs.length 1)
    (hsame : ∀ g, found = some g → g = group) (g : Nat) (hne : g ≠ group)
    (hclean : s.clean p g = true) : s.held g o.1 o.2 = false := by
  cases found with
  | some g' =>
    have hg' := hsame g' rfl
    by_contra hother
    exact hne ((hinv.unique o.1 o.2 g g' (eq_true_of_not_eq_false hother) (hheld g' rfl)).trans hg')
  | none =>
    rcases h.missed hfound hcreates with hone | hall
    · exact held_of_ge (by omega)
    · exact hall g hclean

theorem Known.advance (hinv : s.Inv)
    (hcareful : ∀ o look g, looking p = some (o, look) → s.locate p.node o.1 o.2 look = .inr (some g) →
      p.request.creates = some o → s.held g o.1 o.2 = true) :
    s.Known { p with phase := s.advance p } := by
  unfold Cluster.advance
  split
  · rename_i look hphase
    have hlook : looking p = some (p.request.routed, look) := by rw [looking, hphase]
    have hlooked := h.looked hlook
    split
    · rename_i look' hnext
      refine h.moved nofun nofun fun o look'' heq => ?_
      cases heq
      exact hlooked.next h.since hnext
    · rename_i found hfound
      have hgroup : found.getD (home p.request.routed.2 s.logs.length) < max s.logs.length 1 := by
        cases found with
        | none => exact home_lt _ _
        | some g => exact (lt_of_locate hfound).trans_le (le_max_left _ _)
      split
      · rename_i hclaim
        refine h.enter hgroup fun kind id hc => ?_
        rcases p.request.creates_cases with ⟨hnone, -⟩ | ⟨hrouted, -⟩ | ⟨-, hsome⟩
        · rw [hnone] at hc
          cases hc
        · obtain heq := Option.mem_unique hrouted hc
          rw [show kind = p.request.routed.1 by rw [heq], show id = p.request.routed.2 by rw [heq]]
          refine hlooked.others hinv hrouted hfound (fun g hg => ?_) hgroup fun g hg => by rw [hg]; rfl
          exact hcareful _ look g hlook (hg ▸ hfound) hrouted
        · rw [hclaim] at hsome
          cases hsome
      · rename_i o hclaim
        refine h.moved nofun (fun g look heq => ?_) fun o' look' heq => ?_
        · cases heq
          exact hgroup
        · rw [looking] at heq
          rw [hclaim] at heq
          cases heq
          exact .first s p o 0
  · rename_i group look hphase
    have hgroup : group < max s.logs.length 1 := h.group group (.inr ⟨look, hphase⟩)
    split
    · exact h.over
    rename_i kind id hclaim
    have hlook : looking p = some ((kind, id), look) := by
      rw [looking, hphase]
      dsimp only
      rw [hclaim]
      rfl
    have hlooked := h.looked hlook
    have hcreates : p.request.creates = some (kind, id) := by
      rcases p.request.creates_cases with ⟨-, hnone⟩ | ⟨-, hnone⟩ | ⟨heq, -⟩
      · rw [hclaim] at hnone
        cases hnone
      · rw [hclaim] at hnone
        cases hnone
      · rw [heq, hclaim]
    have hplaced : ∀ found, s.locate p.node kind id look = .inr found → (∀ g, found = some g → g = group) →
        s.Known { p with phase := s.enter p.request group } := by
      intro found hfound hsame
      refine h.enter hgroup fun kind' id' hc => ?_
      cases hcreates.symm.trans hc
      refine hlooked.others hinv hcreates hfound (fun g hg => ?_) hgroup hsame
      exact hcareful (kind, id) look g hlook (hg ▸ hfound) hcreates
    split
    · rename_i look' hnext
      refine h.moved nofun (fun g look'' heq => ?_) fun o look'' heq => ?_
      · cases heq
        exact hgroup
      · rw [looking] at heq
        rw [hclaim] at heq
        cases heq
        exact hlooked.next h.since hnext
    · rename_i other hfound
      split
      · exact h.over
      · rename_i hsame
        refine hplaced (some other) hfound fun g hg => ?_
        cases hg
        exact not_not.mp hsame
    · rename_i hfound
      exact hplaced none hfound nofun
  · exact h

/-! ### The rest of the cluster -/

theorem Known.mono (hlog : ∀ g, (s.log g).length ≤ (s'.log g).length) (hlen : s'.logs.length = s.logs.length)
    (happlied : looking p ≠ none → ∀ g, s.applied p.node g ≤ s'.applied p.node g)
    (hkept : ∀ kind id g, p.request.creates = some (kind, id) → s'.clean p g = true →
      s.clean p g = true ∧ (s'.held g kind id = true → s.held g kind id = true)) : s'.Known p := by
  have hfalse : ∀ {kind id g}, p.request.creates = some (kind, id) → s'.clean p g = true →
      (s.clean p g = true → s.held g kind id = false) → s'.held g kind id = false := by
    intro kind id g hc hclean hold
    obtain ⟨hclean', hheld⟩ := hkept kind id g hc hclean
    by_contra hnew
    have := hheld (eq_true_of_not_eq_false hnew)
    rw [hold hclean'] at this
    cases this
  refine ⟨fun g => (h.since g).trans (hlog g), h.need, fun o k hl g => ?_,
    fun kind id k hl hc g hg hclean => ?_, fun g hg => hlen ▸ h.group g hg,
    fun g kind id heq hc g' hne hclean => ?_⟩
  · exact (h.caught o k hl g).trans (happlied (by rw [hl]; exact nofun) g)
  · exact hfalse hc hclean (h.passed kind id k hl hc g hg)
  · exact hfalse hc hclean (h.placed g kind id heq hc g' hne)

theorem Known.same (hlogs : s'.logs = s.logs)
    (happlied : looking p ≠ none → ∀ g, s.applied p.node g ≤ s'.applied p.node g) : s'.Known p := by
  have hlog : ∀ g, s'.log g = s.log g := fun g => by rw [log, log, hlogs]
  refine h.mono (fun g => (hlog g) ▸ le_rfl) (by rw [hlogs]) happlied fun kind id g _ hclean => ?_
  refine ⟨?_, fun hheld => ?_⟩
  · rw [clean, hlog] at hclean
    exact hclean
  · rw [held, hlog] at hheld
    exact hheld

theorem Known.append {term : Nat} {cmd : MetaCommand} : (s.append group term cmd).Known p := by
  have hlog := log_append s group term cmd
  refine h.mono (fun g => ?_) (length_modify _ _ _) (fun _ _ => le_rfl) fun kind id g hc hclean => ?_
  · rw [hlog]
    split
    · rw [length_append]
      exact Nat.le_add_right _ _
    · exact le_rfl
  · rw [clean_iff, hlog] at hclean
    rw [clean_iff]
    have hnew : (g = group → cmd.creates = some (kind, id) → g < s.logs.length → False) ∧
        ∀ e ∈ (s.log g).drop (p.since.getD g 0), e.2.creates ≠ p.request.creates := by
      split at hclean
      · rw [drop_append_of_le_length (h.since g)] at hclean
        refine ⟨fun _ hcmd _ => ?_, fun e he => hclean e (mem_append_left _ he)⟩
        exact hclean (term, cmd) (by simp) (by rw [hc]; exact hcmd)
      · rename_i hg
        exact ⟨fun heq _ hlt => hg ⟨heq, hlt⟩, hclean⟩
    refine ⟨hnew.2, fun hheld => ?_⟩
    rcases held_of_append hheld with hold | ⟨heq, hcmd⟩
    · exact hold
    · rcases lt_or_ge g s.logs.length with hlt | hge
      · exact (hnew.1 heq hcmd hlt).elim
      · have hbound : (s.append group term cmd).logs.length ≤ g := by
          rw [Cluster.append, length_modify]
          exact hge
        rw [held_of_ge hbound] at hheld
        cases hheld

theorem Known.drop : s.Known (Served.drop p) := by
  unfold Served.drop
  split
  · exact h.over
  · exact h.over
  · exact h

end

theorem looking_drop_eq_none (p : Served) : looking (Served.drop p) = none := by
  obtain ⟨request, node, since, phase⟩ := p
  cases phase <;> rfl

theorem Known.begin (s : Cluster) (node : Nat) (request : Request) :
    s.Known ⟨request, node, s.logs.map length, .route (.first 0)⟩ := by
  refine ⟨fun g => (log_length s g).le, fun o need hl => ?_, fun o k hl => ?_, fun kind id k hl => ?_,
    fun g hg => (hg.elim nofun nofun : False).elim, nofun⟩ <;>
    cases (Prod.mk.inj (Option.some.inj hl)).2

theorem Inv.step (h : s.Inv) {e : Event} (hcareful : s.careful e = true) : (s.step e).Inv := by
  cases e with
  | call node request =>
    refine ⟨h.unique, fun q hq => ?_⟩
    rcases mem_append.mp hq with hq | hq
    · exact (h.known q hq).same rfl fun _ _ => le_rfl
    · rw [mem_singleton.mp hq]
      exact (Known.begin s node request).same rfl fun _ _ => le_rfl
  | step r =>
    dsimp only [Cluster.step]
    split
    · exact h
    rename_i p hp
    have hmem := mem_of_getElem? hp
    refine ⟨h.unique, fun q hq => ?_⟩
    have hq : s.Known q := by
      rcases mem_or_eq_of_mem_set hq with hq | rfl
      · exact h.known q hq
      · refine (h.known p hmem).advance h fun o look g hlook hfound hc => ?_
        rw [careful, hp] at hcareful
        dsimp only [Option.bind_some] at hcareful
        rw [hlook] at hcareful
        dsimp only [Option.map_some] at hcareful
        rw [hfound] at hcareful
        simpa [hc] using hcareful
    exact hq.same rfl fun _ _ => le_rfl
  | commit r term =>
    dsimp only [Cluster.step]
    split
    swap
    · exact h
    rename_i p hp
    have hmem := mem_of_getElem? hp
    split
    swap
    · exact h
    rename_i group hphase
    refine ⟨fun kind id g g' hg hg' => ?_, fun q hq => ?_⟩
    · have hcreated : ∀ {g g' : Nat}, g' ≠ group →
          (p.request.command s.extentBytes).creates = some (kind, id) → g = group →
          s.held g' kind id = true → False := by
        intro g g' hne hc _ hheld
        rw [Request.creates_command] at hc
        rw [careful, hp] at hcareful
        dsimp only at hcareful
        rw [hphase, hc] at hcareful
        have hclean : s.clean p g' = true := by
          rcases lt_or_ge g' s.logs.length with hlt | hge
          · have hall := all_eq_true.mp (show (range s.logs.length).all (fun g =>
              decide (g = group) || s.clean p g) = true by simpa using hcareful) g'
              (mem_range.mpr hlt)
            simpa [hne] using hall
          · rw [held_of_ge hge] at hheld
            cases hheld
        rw [(h.known p hmem).placed group kind id hphase hc g' hne hclean] at hheld
        cases hheld
      rcases held_of_append hg with hg | ⟨heq, hc⟩ <;> rcases held_of_append hg' with hg' | ⟨heq', hc'⟩
      · exact h.unique kind id g g' hg hg'
      · by_contra hne
        exact hcreated (heq' ▸ hne) hc' heq' hg
      · by_contra hne
        exact hcreated (heq ▸ Ne.symm hne) hc heq hg'
      · exact heq.trans heq'.symm
    · have hq : s.Known q := by
        rcases mem_or_eq_of_mem_set hq with hq | rfl
        · exact h.known q hq
        · exact (h.known p hmem).over
      exact hq.append.same rfl fun _ _ => le_rfl
  | fail r =>
    dsimp only [Cluster.step]
    split
    · exact h
    rename_i p hp
    refine ⟨h.unique, fun q hq => ?_⟩
    have hq : s.Known q := by
      rcases mem_or_eq_of_mem_set hq with hq | rfl
      · exact h.known q hq
      · exact (h.known p (mem_of_getElem? hp)).drop
    exact hq.same rfl fun _ _ => le_rfl
  | apply node group =>
    exact ⟨h.unique, fun q hq => (h.known q hq).same rfl fun _ g => Nat.le_add_right _ _⟩
  | restart node applied =>
    refine ⟨h.unique, fun q hq => ?_⟩
    obtain ⟨p, hp, rfl⟩ := mem_map.mp hq
    split
    · exact (h.known p hp).drop.same rfl fun hlook => absurd (looking_drop_eq_none p) hlook
    · rename_i hne
      refine (h.known p hp).same rfl fun _ g => ?_
      dsimp only [Cluster.step]
      rw [if_neg hne]
  | other group term cmd =>
    refine ⟨fun kind id g g' hg hg' => ?_, fun q hq => (h.known q hq).append⟩
    have hold : ∀ {g}, (s.append group term cmd.1).held g kind id = true → s.held g kind id = true := by
      intro g hg
      refine (held_of_append hg).resolve_right fun ⟨_, hc⟩ => ?_
      rw [cmd.2] at hc
      cases hc
    exact h.unique kind id g g' (hold hg) (hold hg')

/-! ### Whole runs -/

/-- Every step of the run is careful. -/
def Careful (extentBytes groups : Nat) (events : List Event) : Prop :=
  Program.Meets step (start extentBytes groups) (fun s e => s.careful e = true) events

theorem Inv.start (extentBytes groups : Nat) : (start extentBytes groups).Inv := by
  refine ⟨fun kind id g g' hg _ => ?_, nofun⟩
  have hempty : (Cluster.start extentBytes groups).log g = [] := by
    rw [Cluster.start, log, getD_eq_getElem?_getD, getElem?_replicate]
    split <;> rfl
  rw [held, hempty] at hg
  cases kind <;> cases hg

/-- At most one group holds an object of a kind and id, and a look-up with replicas that are caught
up finds it there. -/
theorem one_group_per_id (extentBytes groups : Nat) (events : List Event)
    (h : Careful extentBytes groups events) (kind : ObjectKind) (id : String) (g : Nat)
    (hg : (run extentBytes groups events).held g kind id = true) :
    (∀ g', (run extentBytes groups events).held g' kind id = true → g' = g) ∧
      (run extentBytes groups events).find kind id = some g := by
  have hinv : (run extentBytes groups events).Inv :=
    h.invariant (.start extentBytes groups) fun _ _ hinv hcareful => hinv.step hcareful
  generalize run extentBytes groups events = s at hg hinv ⊢
  refine ⟨fun g' hg' => hinv.unique kind id g' g hg' hg, ?_⟩
  have hlt : g < s.logs.length := by
    by_contra hge
    rw [held_of_ge (by omega)] at hg
    cases hg
  cases hfind : s.find kind id with
  | none =>
    have := find?_eq_none.mp hfind g (mem_range.mpr hlt)
    exact absurd hg this
  | some g' =>
    rw [find] at hfind
    have hheld := find?_some hfind
    rw [hinv.unique kind id g' g hheld hg]

/-- A request with the steps of its look-ups. -/
def served (r : Nat) (request : Request) (steps : Nat) : List Event :=
  .call 0 request :: List.replicate steps (.step r)

/-- A volume in group 1, and a snapshot of it. -/
def sources : List Event :=
  served 0 (.createVolume "v" "v" 4096) 7 ++ [.commit 0 1, .apply 0 1] ++
    served 1 (.createSnapshot "s" "v" "s") 9 ++ [.commit 1 1, .apply 0 1]

/-- A clone under the id of a volume in the other group is refused, one under a new id is not. -/
def carefulRun : List Event :=
  sources ++ served 2 (.createVolume "a" "a" 4096) 7 ++ [.commit 2 1, .apply 0 0] ++
    served 3 (.cloneSnapshot "a" "s" "a" none) 9 ++ served 4 (.cloneSnapshot "c" "s" "c" none) 9 ++
      [.commit 4 1]

theorem carefulRun_one_group : (∀ g, (run 4096 2 carefulRun).held g .volume "c" = true → g = 1) ∧
    (run 4096 2 carefulRun).find .volume "c" = some 1 := by
  refine one_group_per_id 4096 2 carefulRun (Program.meets_of_take ?_) .volume "c" 1 ?_
  · decide +kernel
  · decide +kernel

/-- A create and a clone of one id are both looked up before either commits. -/
def racedRun : List Event :=
  sources ++ served 2 (.createVolume "a" "a" 4096) 7 ++
    served 3 (.cloneSnapshot "a" "s" "a" none) 9 ++ [.commit 2 1, .commit 3 1]

/-- Then both groups hold a volume of that id. -/
theorem raced_id_in_two_groups : (run 4096 2 racedRun).held 0 .volume "a" = true ∧
    (run 4096 2 racedRun).held 1 .volume "a" = true := by
  decide +kernel

end Cluster

end AtlasNative.Node
