import AtlasNative.Raft.Group
import AtlasNative.Wal.Recovery

/-!
# Safety of the metadata group

From the empty cluster every run keeps `GroupInv`. Election safety, state machine safety and log
matching are read off it. Log matching across the snapshot boundary needs that no crash tears a
snapshot installation; a run that does is given after the theorem. All catalogs are stages of one
history, and every disk opens again: a crash is taken to leave whole records (`Disk.crash`), as it does
where it cuts the log file cleanly.
-/

namespace AtlasNative

open Consensus List Cluster Option RaftNode
open History (Ext)

variable {m₀ : Membership} {strict : Prop} {H : History NodeId Entry} {σ σ' : Cluster}

/-! ### Runs -/

/-- Nothing has happened. -/
def noHistory : History NodeId Entry where
  elected _ := none
  start _ := []
  elog _ := []
  cand _ _ := []
  vote _ _ _ _ := False
  ack _ _ _ := False
  commit _ _ _ := False

theorem noHistory_not_led (t : Nat) : ¬ noHistory.Led t := fun ⟨_, h⟩ => nomatch h

theorem noHistory_coherent : noHistory.Coherent m₀ where
  start_prefix t ht := absurd ht (noHistory_not_led t)
  start_terms t ht := absurd ht (noHistory_not_led t)
  elog_terms t ht := absurd ht (noHistory_not_led t)
  start_ok t ht := absurd ht (noHistory_not_led t)
  start_cand _ _ h := nomatch h
  elected_wins _ _ h := nomatch h
  vote_ok _ _ _ _ h := h.elim
  vote_unique _ _ _ _ _ _ h := h.elim
  vote_self _ _ _ _ h := h.elim
  ack_led _ _ _ h := h.elim
  ack_len _ _ _ h := h.elim
  ack_vote _ _ _ _ _ _ h := h.elim
  commit_led _ _ _ h := h.elim
  commit_pos _ _ _ h := h.elim
  commit_quorum _ _ _ h := h.elim
  config_guard t ht := absurd ht (noHistory_not_led t)

theorem groupInv_init : GroupInv m₀ strict noHistory {} where
  hist :=
    { coherent := noHistory_coherent
      positive := fun t ht => absurd ht (noHistory_not_led t)
      numbered := fun t ht => absurd ht (noHistory_not_led t)
      created := ⟨fun _ _ h => absurd h not_mem_nil, fun t ht => absurd ht (noHistory_not_led t)⟩ }
  msgs _ h := absurd h not_mem_nil
  applied _ h := absurd h not_mem_nil
  servers id := by
    refine ⟨[], [], 0, History.LogOk.nil, rfl, le_rfl, le_rfl, by simp, .nil 0, .nil, fun _ => .inr le_rfl,
      fun _ _ h => h.elim, fun _ _ _ h => h.elim, fun _ _ h => h.elim, fun _ h => nomatch h⟩

/-- `P` holds of every event of a run, in the state it happens in. -/
def Cluster.Along (m₀ : Membership) (P : Cluster → Event → Prop) : Cluster → List Event → Prop
  | _, [] => True
  | σ, ev :: evs => P σ ev ∧ ∀ τ, σ.exec m₀ ev = some τ → Along m₀ P τ evs

instance Cluster.decidableAlong (P : Cluster → Event → Prop) [∀ σ ev, Decidable (P σ ev)] :
    ∀ σ evs, Decidable (Cluster.Along m₀ P σ evs)
  | _, [] => isTrue trivial
  | σ, ev :: evs =>
    have : Decidable (∀ τ ∈ σ.exec m₀ ev, Cluster.Along m₀ P τ evs) :=
      have (τ : Cluster) := decidableAlong P τ evs
      inferInstance
    inferInstanceAs (Decidable (P σ ev ∧ ∀ τ ∈ σ.exec m₀ ev, Cluster.Along m₀ P τ evs))

theorem GroupInv.run (h : GroupInv m₀ strict H σ) {evs : List Event}
    (htear : strict → Along m₀ (fun σ ev => ¬ σ.Tears ev) σ evs)
    (hrun : σ.run m₀ evs = some σ') :
    ∃ H', GroupInv m₀ strict H' σ' ∧ (∀ T l, H.Certified T l → H'.Certified T l) ∧
      ∀ t x, H.elected t = some x → H'.elected t = some x := by
  induction evs generalizing H σ with
  | nil =>
    obtain rfl := some.inj hrun
    exact ⟨H, h, fun _ _ hl => hl, fun _ _ hx => hx⟩
  | cons ev evs ih =>
    simp only [run, bind_eq_bind, bind_eq_some_iff] at hrun
    obtain ⟨τ, hev, hrun⟩ := hrun
    obtain ⟨H1, y, hext, h1⟩ := h.exec hev fun hs => (htear hs).1
    obtain ⟨H2, h2, hkeep, helect⟩ := ih h1 (fun hs => (htear hs).2 τ hev) hrun
    exact ⟨H2, h2, fun T l hl => hkeep T l (hl.ext h.hist.coherent hext),
      fun t x hx => helect t x (hext.elected t x hx)⟩

/-- Every reachable state has a history. -/
theorem groupInv_of_run {evs : List Event} (hrun : run m₀ {} evs = some σ) : ∃ H, GroupInv m₀ False H σ := by
  obtain ⟨H, h, -⟩ := groupInv_init.run False.elim hrun
  exact ⟨H, h⟩

theorem GroupInv.inv (h : GroupInv m₀ strict H σ) {id : NodeId} {n : RaftNode}
    (hn : (σ.servers id).node = some n) : n.cfg.id = id ∧ Wf ⟨n, (σ.servers id).disk, []⟩ ∧
      ∃ full sure, NodeInv m₀ strict (· ∈ σ.soup) H n.view (σ.servers id).disk full sure := by
  obtain ⟨hid, -, full, sure, g⟩ := h.node hn
  exact ⟨hid, g.wf, full, sure, g.node⟩

/-! ### Runs given step by step -/

/-- The events of a run in which each is chosen from the state reached so far. -/
def Cluster.follow (m₀ : Membership) (σ : Cluster) : List (Cluster → Event) → List Event
  | [] => []
  | f :: fs => f σ :: ((σ.exec m₀ (f σ)).map (follow m₀ · fs)).getD []

/-- Delivers to `y` the newest message `x` has sent it. -/
def Cluster.deliver (x y : NodeId) (σ : Cluster) : Event :=
  match σ.soup.reverse.find? fun e => e.sender = x ∧ e.dest = y with
  | some e => .call y (.step e)
  | none => .call y .tick

/-- `x` releases its messages, and `y` takes the newest one for it. -/
def Cluster.exchange (x y : NodeId) : List (Cluster → Event) :=
  [fun _ => .call x .takeMessages, Cluster.deliver x y]

/-- A node `id` of the group `ids` with the shortest timeouts that compacts after every entry. -/
def quickConfig (ids : List NodeId) (id : NodeId) : RaftConfig :=
  { id := id, peers := ids.filter (· ≠ id), electionTicks := (2, 3), heartbeatTicks := 1
    compactAfter := 1 }

def votersOf (ids : List NodeId) : Membership := .stable (.ofList ids)

def trio : Membership := votersOf ["a", "b", "c"]

/-- A group of one that elects itself and commits its first entry. -/
def aloneRun : List Event :=
  [.start "a" { id := "a", peers := [], electionTicks := (2, 3), heartbeatTicks := 1 },
    .call "a" .tick, .call "a" .tick]

/-- `c` leads term 1 and keeps two entries of it to itself; `a` leads term 2, commits past them with
`b`, compacts, and sends `c` its snapshot, whose last chunk is on its way. -/
def takeoverRun : List (Cluster → Event) :=
  let ids := ["a", "b", "c"]
  let ev (e : Event) : Cluster → Event := fun _ => e
  let twice (x : NodeId) : List (Cluster → Event) := [ev (.call x .tick), ev (.call x .tick)]
  let trip (x y : NodeId) := Cluster.exchange x y ++ Cluster.exchange y x
  [ev (.start "c" (quickConfig ids "c")), ev (.start "a" (quickConfig ids "a")),
    ev (.start "b" (quickConfig ids "b"))] ++ twice "c" ++ trip "c" "b" ++ trip "c" "b" ++
  [ev (.call "c" (.propose .noop)), ev (.call "c" (.propose .noop))] ++ twice "a" ++ trip "a" "b" ++
  twice "a" ++ trip "a" "b" ++ trip "a" "b" ++ trip "a" "b" ++ [ev (.call "a" (.propose .noop))] ++
  trip "a" "b" ++ trip "a" "c" ++ trip "a" "c" ++ [ev (.call "a" .takeMessages)]

/-- `c` takes the last chunk, crashes after `done` effects of it, and opens again. The first effect
swaps the store in, the second rewrites the log. -/
def installRun (done : Nat) : List (Cluster → Event) :=
  [fun σ => match σ.deliver "a" "c" with
    | .call id op => .crashCall id op done 0
    | e => e,
    fun _ => .start "c" (quickConfig ["a", "b", "c"] "c")]

/-- `a` leads before and after `c`'s crash, and has compacted an entry that `b` has applied too. -/
theorem takeoverRun_leads : ∃ σ σ' n n' e, run trio {} (follow trio {} takeoverRun) = some σ ∧
    σ.run trio (follow trio σ (installRun 1)) = some σ' ∧ (σ.servers "a").node = some n ∧
    (σ'.servers "a").node = some n' ∧ n.role = .leader ∧ n'.role = .leader ∧ n.hard.term = n'.hard.term ∧
    1 ≤ n.commitIndex ∧ n.entry 1 = none ∧ ("b", e) ∈ σ.applied ∧ e.index = 1 := by
  have h : (run trio {} (follow trio {} takeoverRun)).any (fun σ =>
      (σ.run trio (follow trio σ (installRun 1))).any fun σ' =>
      (σ.servers "a").node.any fun n => (σ'.servers "a").node.any fun n' =>
        (n.role = .leader ∧ n'.role = .leader ∧ n.hard.term = n'.hard.term ∧ 1 ≤ n.commitIndex ∧ n.entry 1 = none) ∧
        σ.applied.any fun p => p.1 = "b" ∧ p.2.index = 1) = true := by
    decide +kernel
  obtain ⟨σ, hσ, h⟩ := (any_eq_true _ _).mp h
  obtain ⟨σ', hσ', h⟩ := (any_eq_true _ _).mp h
  obtain ⟨n, hn, h⟩ := (any_eq_true _ _).mp h
  obtain ⟨n', hn', h⟩ := (any_eq_true _ _).mp h
  obtain ⟨⟨hl, hl', hterm, hi, he⟩, happ⟩ := of_decide_eq_true h
  obtain ⟨p, hp, hb⟩ := any_eq_true.mp happ
  obtain ⟨hb, hidx⟩ := of_decide_eq_true hb
  exact ⟨σ, σ', n, n', p.2, hσ, hσ', hn, hn', hl, hl', hterm, hi, he, hb ▸ hp, hidx⟩

/-! ### Election safety -/

/-- No two nodes lead one term, at one time or at two. -/
theorem election_safety {evs evs' : List Event} (hrun : Cluster.run m₀ {} evs = some σ)
    (hrun' : σ.run m₀ evs' = some σ') {x y : NodeId} {n n' : RaftNode} (hx : (σ.servers x).node = some n)
    (hy : (σ'.servers y).node = some n') (hn : n.role = .leader) (hn' : n'.role = .leader)
    (hterm : n.hard.term = n'.hard.term) : x = y := by
  obtain ⟨H, h⟩ := groupInv_of_run hrun
  obtain ⟨H', h', -, helect⟩ := h.run False.elim hrun'
  obtain ⟨hidx, hwfx, _, _, hinvx⟩ := h.inv hx
  obtain ⟨hidy, hwfy, _, _, hinvy⟩ := h'.inv hy
  have hex := helect _ _ (hinvx.lead.led (hwfx.led hn)).elected
  have hey := (hinvy.lead.led (hwfy.led hn')).elected
  rw [show n.view.hard.term = n'.view.hard.term from hterm, hey] at hex
  rw [← hidx, ← hidy]
  exact (some.inj hex).symm

/-- Whoever leads `a`'s term after `c`'s crash is `a`. -/
theorem election_safety_takeover : ∃ evs evs' σ σ' n n', Cluster.run trio {} evs = some σ ∧
    σ.run trio evs' = some σ' ∧ (σ.servers "a").node = some n ∧ n.role = .leader ∧
    (σ'.servers "a").node = some n' ∧ n'.role = .leader ∧ n'.hard.term = n.hard.term ∧
    ∀ y m, (σ'.servers y).node = some m → m.role = .leader → n.hard.term = m.hard.term → "a" = y := by
  obtain ⟨σ, σ', n, n', -, hσ, hσ', hn, hn', hl, hl', hterm, -⟩ := takeoverRun_leads
  exact ⟨_, _, σ, σ', n, n', hσ, hσ', hn, hl, hn', hl', hterm.symm, fun y m hy hrole hm =>
    election_safety hσ hσ' hn hy hl hrole hm⟩

/-! ### State machine safety -/

/-- `e` has been committed at index `i`, and leaders from term `T` on are later: some node has
committed it in term `T`, or applied it when no server was beyond `T`. -/
inductive Cluster.Committed (σ : Cluster) (i : Nat) (e : Entry) : Nat → Prop
  | log {x n} (hn : (σ.servers x).node = some n) (hi : i ≤ n.commitIndex) (he : n.entry i = some e) :
    Committed σ i e n.hard.term
  /-- The node may have compacted it. -/
  | compacted {x y n} (hn : (σ.servers x).node = some n) (hi : i ≤ n.commitIndex) (he : (y, e) ∈ σ.applied)
    (hidx : e.index = i) : Committed σ i e n.hard.term
  /-- The node that applied it may be down. -/
  | applied {y T} (he : (y, e) ∈ σ.applied) (hidx : e.index = i)
    (hT : ∀ x, (σ.servers x).disk.hard.term ≤ T) : Committed σ i e T

/-- As far as it goes, the log has the entries that have been applied. -/
def Cluster.AppliedLog (σ : Cluster) (l : List Entry) : Prop :=
  ∀ p ∈ σ.applied, p.2.index ≤ l.length → l[p.2.index - 1]? = some p.2

/-- The node has `e` at index `i`: in its log, or in the log its catalog stands for. -/
def Cluster.Contains (σ : Cluster) (n : RaftNode) (i : Nat) (e : Entry) : Prop :=
  n.entry i = some e ∨
    i ≤ n.snapshotIndex ∧ ∃ l, Replay n.catalog l ∧ l[i - 1]? = some e ∧ σ.AppliedLog l

section

variable {n : RaftNode} {d : Disk} {full sure : List Entry} {soup : Envelope → Prop}

/-- A log entry at or below the commit index is known to be committed. -/
theorem LogInv.sure_of_entry (h : LogInv strict H n.view d full sure) {i : Nat} {e : Entry}
    (hi : i ≤ n.commitIndex) (he : n.entry i = some e) : sure[i - 1]? = some e := by
  obtain ⟨hsi, hfull⟩ := LogInv.entry (s := ⟨n, d, []⟩) h he
  change n.snapshotIndex < i at hsi
  have hcommit : sure.length = n.commitIndex := h.commit
  rcases h.clean with hcl | ⟨-, hdirty, -⟩
  · rw [← getElem?_longer hcl (by omega)]
    exact hfull
  · change n.snapshotIndex = n.commitIndex at hdirty
    omega

/-- Committed logs agree where both reach. -/
theorem certified_agree (hH : H.Coherent m₀) {T T' i : Nat} {l l' : List Entry} {e e' : Entry}
    (hl : H.Certified T l) (hl' : H.Certified T' l') (he : l[i]? = some e) (he' : l'[i]? = some e') :
    e = e' := by
  obtain ⟨hi, -⟩ := List.getElem?_eq_some_iff.mp he
  obtain ⟨hi', -⟩ := List.getElem?_eq_some_iff.mp he'
  rcases hl.comparable hH hl' with h | h
  · rw [getElem?_longer h hi, he] at he'
    exact some.inj he'
  · rw [getElem?_longer h hi', he'] at he
    exact (some.inj he).symm

end

section

variable (h : GroupInv m₀ strict H σ)
include h

/-- Certified logs have the entries that have been applied. -/
theorem GroupInv.applied_agree {T : Nat} {l : List Entry} (hl : H.Certified T l) {p : NodeId × Entry}
    (hp : p ∈ σ.applied) (hle : p.2.index ≤ l.length) : l[p.2.index - 1]? = some p.2 := by
  obtain ⟨t, l', hl', hlp, hpos⟩ := h.applied p hp
  obtain ⟨e, he⟩ : ∃ e, l[p.2.index - 1]? = some e := ⟨_, getElem?_eq_getElem (by omega)⟩
  rw [he, certified_agree h.hist.coherent hl hl' he hlp]

/-- What is committed is in a certified log. -/
theorem GroupInv.committed {i T : Nat} {e : Entry} (hc : σ.Committed i e T) :
    ∃ l, H.Certified T l ∧ l[i - 1]? = some e ∧ 0 < i := by
  have hH := h.hist.coherent
  cases hc with
  | log hn hi he =>
    obtain ⟨-, -, full, sure, hinv⟩ := h.inv hn
    refine ⟨sure, hinv.log.certified, hinv.log.sure_of_entry hi he, ?_⟩
    rw [entry] at he
    split at he
    · cases he
    · omega
  | compacted hn hi he hidx =>
    obtain ⟨-, -, full, sure, hinv⟩ := h.inv hn
    have hpos : e.index ≠ 0 := (h.applied _ he).choose_spec.choose_spec.2.2
    have hle : e.index ≤ sure.length := hidx ▸ hi.trans_eq hinv.log.commit.symm
    subst hidx
    exact ⟨sure, hinv.log.certified, h.applied_agree hinv.log.certified he hle, by omega⟩
  | applied he hidx hT =>
    obtain ⟨t, l, hl, hle, hpos⟩ := h.applied _ he
    subst hidx
    refine ⟨l, ?_, hle, Nat.pos_of_ne_zero hpos⟩
    -- the term of the commit is that of its leader, or an earlier one
    rcases hl with rfl | ⟨u, n, k, hcommit, -, hl⟩
    · simp at hle
    · obtain ⟨z, hz⟩ := hH.commit_led u n k hcommit
      obtain ⟨_, _, _, hd⟩ := (h.servers z).disk
      exact .inr ⟨u, n, k, hcommit, (hd.own.elected u hz).trans (hT z), hl⟩

/-- A leader has what was committed up to its term. -/
theorem GroupInv.contains {y : NodeId} {n : RaftNode} (hy : (σ.servers y).node = some n)
    (hrole : n.role = .leader) {T i : Nat} {l : List Entry} {e : Entry} (hl : H.Certified T l)
    (hT : T ≤ n.hard.term) (hi : 0 < i) (he : l[i - 1]? = some e) : σ.Contains n i e := by
  have hH := h.hist.coherent
  obtain ⟨-, hwf, full, sure, hinv⟩ := h.inv hy
  have hled := hinv.lead.led (hwf.led hrole)
  have helog : H.elog n.hard.term = full := hled.elog
  have hpre : l <+: full := helog ▸ hl.le_elog hH hT ⟨_, hled.elected⟩
  obtain ⟨hlt, -⟩ := List.getElem?_eq_some_iff.mp he
  by_cases hsi : i ≤ n.snapshotIndex
  · -- the snapshot is part of what the node knows to be committed
    have hsnap : n.snapshotIndex ≤ n.commitIndex := hwf.snapshot
    have hcommit : sure.length = n.commitIndex := hinv.log.commit
    obtain ⟨c, hc, -, hsc⟩ := hinv.log.store
    obtain ⟨c', hc', hle⟩ := hwf.store
    obtain rfl : c = c' := mem_unique hc hc'
    have happ : n.snapshotIndex ≤ n.catalog.appliedIndex := le_trans hsc hle
    have hcert := hinv.log.certified.shorter ( take_prefix n.catalog.appliedIndex sure)
    refine .inr ⟨hsi, _, hinv.log.catalog, ?_, fun p hp hle => h.applied_agree hcert hp hle⟩
    obtain ⟨e', he'⟩ : ∃ e', sure[i - 1]? = some e' := ⟨_, getElem?_eq_getElem (show i - 1 < sure.length by omega)⟩
    obtain rfl := certified_agree hH hl hinv.log.certified he he'
    change (sure.take n.catalog.appliedIndex)[i - 1]? = some e
    rw [getElem?_take_of_lt (by omega)]
    exact he'
  · left
    rw [entry, if_neg hsi]
    have := LogInv.getElem? (s := ⟨n, (σ.servers y).disk, []⟩) hinv.log (show n.snapshotIndex < i by omega)
    rw [this, getElem?_longer hpre hlt]
    exact he

end

/-- Once `e` has been committed at index `i`, whoever applies index `i` applies `e`, and every later
leader contains `e`. -/
theorem state_machine_safety {evs evs' : List Event} (hrun : Cluster.run m₀ {} evs = some σ)
    (hrun' : σ.run m₀ evs' = some σ') {i T : Nat} {e : Entry} (hc : σ.Committed i e T) :
    (∀ p ∈ σ'.applied, p.2.index = i → p.2 = e) ∧
    ∀ y n', (σ'.servers y).node = some n' → n'.role = .leader → T ≤ n'.hard.term → σ'.Contains n' i e := by
  obtain ⟨H, h⟩ := groupInv_of_run hrun
  obtain ⟨H', h', hkeep, -⟩ := h.run False.elim hrun'
  obtain ⟨l, hl, he, hi⟩ := h.committed hc
  have hcert := hkeep _ _ hl
  refine ⟨fun p hp hpi => ?_, fun y n' hy hrole hterm => h'.contains hy hrole hcert hterm hi he⟩
  obtain ⟨_, l', hl', hlp, -⟩ := h'.applied p hp
  rw [hpi] at hlp
  exact certified_agree h'.hist.coherent hl' hcert hlp he

/-- What `b` has applied, and `a` compacted, is what anybody applies, and `a` has it after `c`'s
crash. -/
theorem state_machine_safety_takeover : ∃ evs evs' σ σ' n' e,
    Cluster.run trio {} evs = some σ ∧ σ.run trio evs' = some σ' ∧
    ("b", e) ∈ σ.applied ∧ (σ'.servers "a").node = some n' ∧
    (∀ p ∈ σ'.applied, p.2.index = 1 → p.2 = e) ∧ σ'.Contains n' 1 e := by
  obtain ⟨σ, σ', n, n', e, hσ, hσ', hn, hn', hl, hl', hterm, hi, -, hb, hidx⟩ := takeoverRun_leads
  obtain ⟨happ, hlead⟩ := state_machine_safety hσ hσ' (.compacted hn hi hb hidx)
  exact ⟨_, _, σ, σ', n', e, hσ, hσ', hb, hn', happ, hlead "a" n' hn' hl' hterm.le⟩

/-! ### Log matching -/

/-- What log matching says of a group: logs that share an entry share what is before it; terms do
not decrease, starting from the snapshot's; and the entry after a snapshot was created on top of
what the snapshot ends with. `created` has every entry with the term before it in its leader's log. -/
structure Cluster.LogsMatch (σ : Cluster) : Prop where
  agree : ∀ x y n n', (σ.servers x).node = some n → (σ.servers y).node = some n' →
    ∀ i e e', n.entry i = some e → n'.entry i = some e' → e.term = e'.term →
      e.command = e'.command ∧
      ∀ j < i, ∀ a a', n.entry j = some a → n'.entry j = some a' → a = a'
  ordered : ∀ x n, (σ.servers x).node = some n → n.log.Pairwise fun a b => a.term ≤ b.term
  above : ∀ x n, (σ.servers x).node = some n → ∀ e ∈ n.log, n.snapshotTerm ≤ e.term
  preceded : ∀ x n e, (σ.servers x).node = some n → n.log.head? = some e →
    e.index = n.snapshotIndex + 1 ∧ (e, n.snapshotTerm) ∈ σ.created ∧
      ∀ a t, (a, t) ∈ σ.created → a.index = e.index → a.term = e.term → a = e ∧ t = n.snapshotTerm

section

variable {n : RaftNode} {d : Disk} {full sure : List Entry}

theorem LogInv.entry_full (h : LogInv strict H n.view d full sure) {i : Nat} {e : Entry}
    (he : n.entry i = some e) : n.snapshotIndex < i ∧ full[i - 1]? = some e :=
  LogInv.entry (s := ⟨n, d, []⟩) h he

theorem LogOk.pairwise (hH : H.Coherent m₀) {l : List Entry} (hl : H.LogOk l) :
    l.Pairwise fun a b => a.term ≤ b.term := by
  induction l using reverseRecOn with
  | nil => exact .nil
  | append_singleton l e ih =>
    rw [pairwise_append]
    refine ⟨ih (hl.mono (prefix_append _ _)), pairwise_singleton _ _, fun a ha b hb => ?_⟩
    rw [mem_singleton.mp hb]
    exact hl.term_le hH prefix_rfl a ha

theorem LogInv.snapshotTerm_full (hwf : Wf ⟨n, d, []⟩) (h : LogInv strict H n.view d full sure)
    (hclean : sure <+: full) : n.snapshotTerm = Consensus.lastTerm (full.take n.snapshotIndex) := by
  have hsnap : n.snapshotTerm = Consensus.lastTerm (sure.take n.snapshotIndex) := h.snapshotTerm
  have hsi : n.snapshotIndex ≤ n.commitIndex := hwf.snapshot
  have hcommit : sure.length = n.commitIndex := h.commit
  obtain ⟨r, rfl⟩ := hclean
  rw [hsnap, take_append_of_le_length (by omega)]

theorem LogInv.above (hH : H.Coherent m₀) (hwf : Wf ⟨n, d, []⟩)
    (h : LogInv strict H n.view d full sure) (hclean : sure <+: full) :
    ∀ e ∈ n.log, n.snapshotTerm ≤ e.term := by
  intro e he
  have hlog : n.log = full.drop n.snapshotIndex := h.log
  rw [hlog] at he
  rw [h.snapshotTerm_full hwf hclean]
  by_cases hne : full.take n.snapshotIndex = []
  · rw [hne]
    exact Nat.zero_le _
  · obtain ⟨a, ha, hat⟩ := lastTerm_mem hne
    rw [← hat]
    have hpair := LogOk.pairwise hH h.ok
    rw [← take_append_drop n.snapshotIndex full, pairwise_append] at hpair
    exact hpair.2.2 a ha e he

/-- The entry after the snapshot was created after what the snapshot ends with. -/
theorem LogInv.preceded {created : List (Entry × Nat)} (hist : HistInv m₀ H created)
    (hwf : Wf ⟨n, d, []⟩) (h : LogInv strict H n.view d full sure) (hclean : sure <+: full)
    {e : Entry} (he : n.log.head? = some e) :
    e.index = n.snapshotIndex + 1 ∧ (e, n.snapshotTerm) ∈ created ∧
      ∀ a t, (a, t) ∈ created → a.index = e.index → a.term = e.term → a = e ∧ t = n.snapshotTerm := by
  have hlog : n.log = full.drop n.snapshotIndex := h.log
  rw [head?_eq_getElem?] at he
  have hidx : e.index = n.snapshotIndex + 1 := by
    have := hwf.contiguous 0 e he
    omega
  rw [hlog, getElem?_drop, add_zero] at he
  obtain ⟨hlt, -⟩ := List.getElem?_eq_some_iff.mp he
  have htake := take_succ_of_getElem? he
  obtain ⟨hled, hpre, hstart⟩ := h.ok _ _ (htake ▸ take_prefix _ _)
  have hsnap := h.snapshotTerm_full hwf hclean
  refine ⟨hidx, ?_, fun a t hat hai hate => ?_⟩
  · rw [hsnap]
    exact hist.created.complete _ hled _ e hpre hstart
  · obtain ⟨hled', p, hp, -, rfl⟩ := hist.created.sound a t hat
    rw [hate] at hp
    have hnum := hist.numbered _ hled
    have hpa : (H.elog e.term)[p.length]? = some a := by
      rw [getElem?_longer hp (by simp)]
      simp
    have hlen : p.length = n.snapshotIndex := by
      have := hnum _ _ hpa
      omega
    have heq : p ++ [a] = full.take n.snapshotIndex ++ [e] := by
      refine (prefix_of_prefix_length_le hp hpre ?_).eq_of_length ?_ <;>
        · simp [hlen]
          omega
    obtain ⟨rfl, rfl⟩ := append_singleton_inj.mp heq
    exact ⟨rfl, hsnap.symm⟩

end

/-- Log matching, as long as no crash tears a snapshot installation. -/
theorem logs_match {evs : List Event}
    (htear : Cluster.Along m₀ (fun σ ev => ¬ σ.Tears ev) {} evs)
    (hrun : Cluster.run m₀ {} evs = some σ) : σ.LogsMatch := by
  have hinit : GroupInv m₀ True noHistory {} := groupInv_init
  obtain ⟨H, h, -⟩ := hinit.run (fun _ => htear) hrun
  have hH := h.hist.coherent
  have hclean : ∀ {n d full sure}, LogInv True H (view n) d full sure → sure <+: full :=
    fun hl => hl.clean.resolve_right fun hd => hd.1 trivial
  refine ⟨fun x y n n' hx hy i e e' he he' hterm => ?_, fun x n hx => ?_, fun x n hx => ?_, fun x n e hx he => ?_⟩
  · obtain ⟨-, -, full, _, hinv⟩ := h.inv hx
    obtain ⟨-, -, full', _, hinv'⟩ := h.inv hy
    obtain ⟨hi, hfe⟩ := hinv.log.entry_full he
    obtain ⟨-, hfe'⟩ := hinv'.log.entry_full he'
    have htake := hinv.log.ok.take_eq hinv'.log.ok hfe hfe' hterm
    rw [show i - 1 + 1 = i by omega] at htake
    have hagree : ∀ j < i, full[j]? = full'[j]? := by
      intro j hj
      have := congrArg (·[j]?) htake
      simpa [getElem?_take_of_lt hj] using this
    refine ⟨?_, fun j hj a a' ha ha' => ?_⟩
    · rw [hagree (i - 1) (by omega), hfe'] at hfe
      rw [some.inj hfe]
    · obtain ⟨hj', hfa⟩ := hinv.log.entry_full ha
      obtain ⟨-, hfa'⟩ := hinv'.log.entry_full ha'
      rw [hagree (j - 1) (by omega), hfa'] at hfa
      exact (some.inj hfa).symm
  · obtain ⟨-, -, full, _, hinv⟩ := h.inv hx
    rw [show n.log = full.drop n.snapshotIndex from hinv.log.log]
    exact (LogOk.pairwise hH hinv.log.ok).sublist (drop_sublist _ _)
  · obtain ⟨-, hwf, full, sure, hinv⟩ := h.inv hx
    exact hinv.log.above hH hwf (hclean hinv.log)
  · obtain ⟨-, hwf, full, sure, hinv⟩ := h.inv hx
    exact hinv.log.preceded h.hist hwf (hclean hinv.log) he

instance : (x : Effect × Disk) → Decidable (Torn x)
  | (.installStore c, d) => decidable_of_iff (∃ e ∈ d.records, e.index = c.appliedIndex ∧
      e.term ≠ c.currentTerm ∧ ∃ e' ∈ d.records, c.appliedIndex < e'.index) (by simp [Torn])
  | (.persistHard _, _) | (.walAppend _, _) | (.walSync, _) | (.walKeepAbove _, _) | (.walKeepUpTo _, _)
  | (.walClear, _) | (.checkpoint _, _) | (.applied _, _) | (.created .., _) => isFalse (by simp [Torn])

instance (σ : Cluster) : (ev : Event) → Decidable (σ.Tears ev)
  | .crashCall id op done _ => inferInstanceAs (Decidable (∃ n ∈ (σ.servers id).node,
      ∃ x ∈ ((σ.callEffects id n op).take done).getLast?, Torn x))
  | .start .. | .call .. | .crash .. | .crashStart .. => isFalse False.elim

/-- `c` installs `a`'s snapshot and crashes when its log has been rewritten; opened again it takes
another entry from `a`. -/
def installedRun : List (Cluster → Event) :=
  takeoverRun ++ installRun 2 ++ [fun _ => .call "a" .tick] ++ exchange "a" "c" ++ exchange "c" "a" ++
    [fun _ => .call "a" (.propose .noop)] ++ exchange "a" "c"

theorem logs_match_installed : ∃ evs σ n, Cluster.run trio {} evs = some σ ∧ (σ.servers "c").node = some n ∧
    0 < n.snapshotIndex ∧ n.log ≠ [] ∧ σ.LogsMatch := by
  have h : (run trio {} (follow trio {} installedRun)).any (fun σ => (σ.servers "c").node.any fun n =>
      0 < n.snapshotIndex ∧ n.log ≠ []) = true := by
    decide +kernel
  obtain ⟨σ, hσ, h⟩ := (any_eq_true _ _).mp h
  obtain ⟨n, hn, h⟩ := (any_eq_true _ _).mp h
  obtain ⟨hsnap, hlog⟩ := of_decide_eq_true h
  exact ⟨_, σ, n, hσ, hn, hsnap, hlog, logs_match (by decide +kernel) hσ⟩

/-- After a torn installation a log can hold entries of terms below its snapshot's. -/
theorem torn_install_breaks_logs : ∃ evs σ, Cluster.run trio {} evs = some σ ∧ ¬ σ.LogsMatch := by
  have h : (run trio {} (follow trio {} (takeoverRun ++ installRun 1))).any (fun σ =>
      (σ.servers "c").node.any fun n => n.log.any (·.term < n.snapshotTerm)) = true := by
    decide +kernel
  obtain ⟨σ, hσ, h⟩ := (any_eq_true _ _).mp h
  obtain ⟨n, hn, h⟩ := (any_eq_true _ _).mp h
  obtain ⟨e, he, hlt⟩ := any_eq_true.mp h
  refine ⟨_, σ, hσ, fun hmatch => ?_⟩
  have := hmatch.above "c" n hn e he
  have hlt := of_decide_eq_true hlt
  omega

/-! ### One history -/

/-- Server `x` has a catalog: in its node, in its store, or staged from a snapshot that is done. -/
inductive Cluster.Has (σ : Cluster) (x : NodeId) : MemCatalog → Prop
  | node {n} (h : (σ.servers x).node = some n) : Has σ x n.catalog
  | store {c} (h : (σ.servers x).disk.store = some c) : Has σ x c
  | staged {n inc env t} (h : (σ.servers x).node = some n) (hinc : n.incoming = some inc) (henv : env ∈ σ.soup)
      (hmsg : env.msg = .installSnapshot t inc.index (inc.seq + 1) .done) : Has σ x inc.catalog

theorem GroupInv.has {x : NodeId} {c : MemCatalog} (h : GroupInv m₀ strict H σ) (hx : σ.Has x c) :
    ∃ T l, H.Certified T l ∧ Replay c l := by
  cases hx with
  | node hn =>
    obtain ⟨-, -, full, sure, hinv⟩ := h.inv hn
    exact ⟨_, _, hinv.log.certified.shorter ( take_prefix _ _), hinv.log.catalog⟩
  | store hstore =>
    obtain ⟨full, sure, base, hd⟩ := (h.servers x).disk
    have hrep := hd.store
    rw [hstore] at hrep
    exact ⟨_, sure, hd.certified, hrep⟩
  | staged hn hinc henv hmsg =>
    obtain ⟨-, -, full, sure, hinv⟩ := h.inv hn
    obtain ⟨d, l, hd, hl, hlen, hstaged⟩ := hinv.transfer.incoming _ hinc
    have hm := h.msgs _ henv
    simp only [MsgInv, hmsg] at hm
    obtain ⟨d', l', next, hd', hl', hlen', hno⟩ := hm
    -- the chunks may come from several leaders, but all of the same catalog
    obtain rfl := History.Certified.eq_of_length h.hist.coherent hl' hl (hlen'.trans hlen.symm)
    obtain rfl := hd'.unique hd
    exact ⟨_, l', hl, Outgoing.staged_done hstaged hno ▸ hd⟩

/-- The catalogs that servers have at any times are stages of one history. -/
theorem one_history {evs evs' : List Event} (hrun : Cluster.run m₀ {} evs = some σ)
    (hrun' : σ.run m₀ evs' = some σ') {x y : NodeId} {c c' : MemCatalog} (hx : σ.Has x c) (hy : σ'.Has y c') :
    (∃ l l', Replay c l ∧ Replay c' l' ∧ (l <+: l' ∨ l' <+: l)) ∧ (c.appliedIndex = c'.appliedIndex → c = c') := by
  obtain ⟨H, h⟩ := groupInv_of_run hrun
  obtain ⟨H', h', hkeep, -⟩ := h.run False.elim hrun'
  obtain ⟨T, l, hl, hc⟩ := h.has hx
  obtain ⟨T', l', hl', hc'⟩ := h'.has hy
  have hH := h'.hist.coherent
  refine ⟨⟨l, l', hc, hc', History.Certified.comparable hH (hkeep _ _ hl) hl'⟩, fun heq => ?_⟩
  rw [hc.appliedIndex, hc'.appliedIndex] at heq
  obtain rfl := History.Certified.eq_of_length hH (hkeep _ _ hl) hl' heq
  exact hc.unique hc'

/-- What `c` opens with after its crash is what `a` has. -/
theorem one_history_torn : ∃ evs σ n n', Cluster.run (votersOf ["a", "b", "c"]) {} evs = some σ ∧
    (σ.servers "a").node = some n ∧ (σ.servers "c").node = some n' ∧ n.catalog = n'.catalog := by
  have h : (run trio {} (follow trio {} (takeoverRun ++ installRun 1))).any (fun σ => (σ.servers "a").node.any fun n =>
      (σ.servers "c").node.any fun n' => n.catalog.appliedIndex = n'.catalog.appliedIndex) = true := by
    decide +kernel
  obtain ⟨σ, hσ, h⟩ := (any_eq_true _ _).mp h
  obtain ⟨n, hn, h⟩ := (any_eq_true _ _).mp h
  obtain ⟨n', hn', h⟩ := (any_eq_true _ _).mp h
  have hstay : σ.run trio [] = some σ := rfl
  exact ⟨_, σ, n, n', hσ, hn, hn', (one_history hσ hstay (.node hn) (.node hn')).2 (of_decide_eq_true h)⟩

/-! ### Opening -/

theorem logGap_of_contiguous {k : Nat} {l : List Entry} (h : Contiguous k l) : logGap k l = none := by
  induction l generalizing k with
  | nil => rfl
  | cons e l ih => rw [logGap, if_neg (not_not.mpr h.head), ih h.tail]

/-- The record of an entry, whose term and index fit 64 bits in the log file. -/
def Entry.record (e : Entry) : WalFile.WalRecord MetaCommand := ⟨.ofNat e.term, .ofNat e.index, e.command⟩

/-- A crash that cuts the log file cleanly leaves it as `Disk.crash` leaves the disk: the log opens, and
its records are those of the disk. -/
theorem Disk.crash_of_file [WalFile.IndexOnly] [WalFile.Serde MetaCommand] {d : Disk} {m : WalFile.WalMachine}
    {l : WalFile.Ledger MetaCommand} (h : m.Holds l) (hrecords : l.records = d.records.map Entry.record)
    (hsynced : d.synced.map Entry.record <+: l.synced) {kept : Nat}
    (hclean : m.Clean (.crash (T := MetaCommand) kept)) :
    ∃ n, (m.exec (.crash (T := MetaCommand) kept)).2 = true ∧
      WalFile.Wal.replay (m.exec (.crash (T := MetaCommand) kept)).1.file.bytes =
        .ok ((d.crash n).records.map Entry.record) := by
  obtain ⟨l', hstep, hl'⟩ := h.step_crash hclean
  obtain ⟨k, hok, hleft⟩ : ∃ k, (m.exec (.crash (T := MetaCommand) kept)).2 = true ∧
      l'.records = l.records.take (l.synced.length + k) := by
    generalize (m.exec (.crash (T := MetaCommand) kept)).2 = ok at hstep
    cases hstep with
    | crash _ n =>
      exact ⟨n, rfl, by simp [WalFile.Ledger.crash, WalFile.Ledger.records, take_length_add_append]⟩
  have hlen := hsynced.length_le
  rw [length_map] at hlen
  obtain ⟨n, hn⟩ : ∃ n, l.synced.length + k = d.synced.length + n := ⟨_, (Nat.add_sub_of_le (by omega)).symm⟩
  refine ⟨n, hok, ?_⟩
  rw [hl'.replay, hleft, hrecords, hn, ← map_take]
  simp [Disk.records, Disk.crash, take_length_add_append]

/-- Whatever a run has done to the disk of a server, a node opens with what is on it. -/
theorem reopens {evs : List Event} (hrun : Cluster.run m₀ {} evs = some σ) {cfg : RaftConfig}
    (hcheck : cfg.check = .ok ()) (hinit : cfg.initial = .ok m₀) (epoch : Nat) :
    ∃ s, RaftNode.open cfg (σ.servers cfg.id).disk epoch = .ok s ∧ s.node.hard = (σ.servers cfg.id).disk.hard ∧
      s.node.catalog = (σ.servers cfg.id).disk.store.getD {} ∧
      s.node.log = (σ.servers cfg.id).disk.records.filter (s.node.catalog.appliedIndex < ·.index) ∧
      Contiguous s.node.catalog.appliedIndex s.node.log := by
  obtain ⟨H, h⟩ := groupInv_of_run hrun
  obtain ⟨full, sure, base, hd⟩ := (h.servers cfg.id).disk
  generalize (σ.servers cfg.id).disk = d at hd ⊢
  have hwf := hd.open_wf h.hist epoch []
  have hgap : logGap (d.store.getD {}).appliedIndex d.openLog = none := logGap_of_contiguous hwf.contiguous
  obtain ⟨s, hs⟩ : ∃ s, RaftNode.open cfg d epoch = .ok s := by
    rw [Disk.openLog] at hgap
    simp only [RaftNode.open, hcheck, hgap, hinit]
    exact ⟨_, rfl⟩
  obtain ⟨tr, rfl, -⟩ := open_eq hinit hs
  obtain ⟨next, mtch, heq, -⟩ := (openState cfg m₀ d epoch tr).node.refreshMembership_eq
  refine ⟨_, hs, ?_⟩
  simp only [NodeState.update, heq]
  exact ⟨hwf.hard.symm, rfl, rfl, hwf.contiguous⟩

/-- `c` opens after it has crashed between storing a snapshot and rewriting its log. -/
theorem reopens_torn : ∃ evs σ s, run trio {} evs = some σ ∧ (σ.servers "c").node.isNone ∧
    (σ.servers "c").disk.records ≠ [] ∧
    RaftNode.open (quickConfig ["a", "b", "c"] "c") (σ.servers "c").disk 2 = .ok s ∧
    s.node.catalog = (σ.servers "c").disk.store.getD {} ∧ 0 < s.node.catalog.appliedIndex := by
  have h : (run trio {} (follow trio {} (takeoverRun ++ (installRun 1).take 1))).any (fun σ =>
      (σ.servers "c").node.isNone ∧ (σ.servers "c").disk.records ≠ [] ∧
        0 < ((σ.servers "c").disk.store.getD {}).appliedIndex) = true := by
    decide +kernel
  obtain ⟨σ, hσ, h⟩ := (any_eq_true _ _).mp h
  obtain ⟨hdown, hrecords, hpos⟩ := of_decide_eq_true h
  obtain ⟨s, hs, -, hcatalog, -⟩ := reopens hσ (show (quickConfig ["a", "b", "c"] "c").check = .ok () from rfl)
    (by decide) 2
  exact ⟨_, σ, s, hσ, hdown, hrecords, hs, hcatalog, hcatalog ▸ hpos⟩

/-!
## Properties of a single node that every run keeps

`GroupInv` ties the nodes of a group together. What holds of one node and its disk is then simpler
to come by: it holds when the node is opened, and every action keeps it, where the action may use
whatever `GroupInv` says of the state it starts in.
-/

open Function
open Relation (ReflTransGen)

variable {I : NodeState → Prop} {id : NodeId}

/-- A property of a node and its disk that opening establishes and every action keeps. -/
structure Upheld (m₀ : Membership) (I : NodeState → Prop) : Prop where
  trace : ∀ s tr, I s → I { s with trace := tr }
  opened : ∀ cfg d epoch tr, I ((openState cfg m₀ d epoch tr).update fun n =>
    n.refreshMembership.resetElectionTimer)
  cleared : ∀ s, I s → I (s.update fun n => { n with outbox := [] })
  action : ∀ {w : Setting} {H created s s' full sure}, Good m₀ False w.soup H created s full sure →
    Action w s s' → I s → I s'

theorem Upheld.path (hI : Upheld m₀ I) {w : Setting} {created : List (Entry × Nat)}
    {s s' : NodeState} {full sure : List Entry} (g : Good m₀ False w.soup H created s full sure)
    (htr : s.trace = []) (hp : Path w s s') (h : I s) : I s' := by
  induction hp with
  | refl => exact h
  | tail hp ha ih =>
    obtain ⟨H', full', sure', -, g', -⟩ := (Path.reaches hp g htr).good
    exact hI.action g' ha ih

/-- `I` holds of every running node. -/
def Cluster.Each (σ : Cluster) (I : NodeState → Prop) : Prop :=
  ∀ id n, (σ.servers id).node = some n → I ⟨n, (σ.servers id).disk, []⟩

section

variable (h : σ.Each I)
include h

theorem Cluster.Each.update (id : NodeId) (srv : Server) (hsrv : ∀ n, srv.node = some n → I ⟨n, srv.disk, []⟩)
    (heq : σ'.servers = update σ.servers id srv) : σ'.Each I := by
  intro y n hn
  rw [heq] at hn ⊢
  by_cases hy : y = id
  · subst hy
    rw [update_self] at hn ⊢
    exact hsrv n hn
  · rw [update_of_ne hy] at hn ⊢
    exact h y n hn

theorem Cluster.Each.goOn {s : NodeState} (hs : I { s with trace := [] }) : (σ.goOn id s).Each I := by
  refine h.update id { σ.servers id with disk := s.disk, node := some s.node } ?_ rfl
  intro n hn
  obtain rfl := some.inj hn
  exact hs

theorem Cluster.Each.stop {s : NodeState} : ((σ.record id s.trace).setServer id
      { σ.servers id with disk := s.disk, node := none }).Each I :=
  h.update id { σ.servers id with disk := s.disk, node := none } (fun _ hn => nomatch hn) rfl

theorem Cluster.Each.lose (fx : List (Effect × Disk)) (done kept : Nat) : (σ.lose id fx done kept).Each I :=
  h.update id { (σ.servers id) with
    disk := (((fx.take done).getLast?.map Prod.snd).getD (σ.servers id).disk).crash kept
    node := none } (fun _ hn => nomatch hn) rfl

theorem Cluster.Each.setEpoch (epoch : Nat) : (σ.setServer id { σ.servers id with epoch := epoch }).Each I :=
  h.update id { σ.servers id with epoch := epoch } (fun n hn => h id n hn) rfl

theorem Cluster.Each.answer (r : Reply) : (σ.answer r).Each I := by
  cases r <;> exact h

end

section

variable (hI : Upheld m₀ I) (hg : GroupInv m₀ False H σ) (h : σ.Each I)
include hI hg h

theorem Upheld.call {n : RaftNode} (hn : (σ.servers id).node = some n) {op : Op}
    (hop : σ.Deliverable id op) : (σ.call id n op).Each I := by
  obtain ⟨-, -, full, sure, g⟩ := hg.node hn
  have hs := h id n hn
  by_cases htake : op = .takeMessages
  · subst htake
    have hflushed := hI.path (w := .any (· ∈ σ.soup)) g rfl (NodeState.flushed_path _) hs
    rw [Cluster.call, takeMessages_run g.wf]
    exact (h.goOn (hI.trace _ [] (hI.cleared _ hflushed))).answer _
  · have hrun := hg.callRuns hn hop htake g.wf
    unfold Cluster.call
    cases hres : op.run ⟨n, (σ.servers id).disk, []⟩ with
    | ok r s =>
      rw [hres] at hrun
      exact (h.goOn (hI.trace _ [] (hI.path g rfl hrun.1 hs))).answer r
    | error e s =>
      rw [hres] at hrun
      obtain ⟨t, hpath, -, -, href⟩ := hrun
      dsimp only
      split
      · rename_i hrefusal
        obtain ⟨rfl, -⟩ := href hrefusal
        exact h.goOn (hI.trace _ [] (hI.path g rfl hpath hs))
      · exact h.stop

omit hI hg h in
theorem Cluster.Each.exec (h : σ.Each I) (hopened : ∀ cfg d epoch, I ((openState cfg m₀ d epoch []).update fun n =>
      n.refreshMembership.resetElectionTimer))
    {ev : Event} (hcall : ∀ id op n, ev = .call id op → (σ.servers id).node = some n →
      σ.Deliverable id op → (σ.call id n op).Each I)
    (hev : σ.exec m₀ ev = some σ') : σ'.Each I := by
  cases ev with
  | start id cfg =>
    obtain ⟨s, ho, rfl⟩ := exec_opening hev
    obtain ⟨-, -, hinit, hopen⟩ := opening_eq ho
    obtain ⟨tr, rfl, -⟩ := open_eq hinit hopen
    have hs := hopened cfg (σ.servers id).disk ((σ.servers id).epoch + 1)
    exact Each.setEpoch (h.goOn hs) _
  | call id op =>
    obtain ⟨n, hn, hop, rfl⟩ := exec_node hev
    exact hcall id op n rfl hn hop
  | crash id kept =>
    obtain rfl := some.inj hev
    exact h.lose _ _ _
  | crashStart id cfg done kept =>
    obtain ⟨s, -, rfl⟩ := exec_opening hev
    exact h.lose _ _ _
  | crashCall id op done kept =>
    obtain ⟨n, -, -, rfl⟩ := exec_node hev
    exact h.lose _ _ _

theorem Upheld.exec {ev : Event} (hev : σ.exec m₀ ev = some σ') : σ'.Each I :=
  h.exec (fun cfg d epoch => hI.opened cfg d epoch []) (fun _ _ _ _ hn hop => hI.call hg h hn hop) hev

theorem Upheld.run {evs : List Event} (hrun : σ.run m₀ evs = some σ') : σ'.Each I := by
  induction evs generalizing H σ with
  | nil =>
    obtain rfl := some.inj hrun
    exact h
  | cons ev evs ih =>
    simp only [run, bind_eq_bind, bind_eq_some_iff] at hrun
    obtain ⟨τ, hev, hrun⟩ := hrun
    obtain ⟨H', -, -, hg'⟩ := hg.exec hev False.elim
    exact ih hg' (hI.exec hg h hev) hrun

end

/-- What is upheld holds of every node of every state reached. -/
theorem Upheld.each (hI : Upheld m₀ I) {evs : List Event} (hrun : Cluster.run m₀ {} evs = some σ) : σ.Each I :=
  hI.run groupInv_init (fun _ _ hn => nomatch hn) hrun

end AtlasNative
