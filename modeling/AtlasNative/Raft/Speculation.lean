import AtlasNative.Raft.Safety

/-!
# The leader's speculative catalog

A leader checks a command against the catalog it will be applied to: the applied one plus every
entry its log still holds. It keeps that catalog between proposals, moves it along with the log and
drops it when it stops leading. It stays what the log says as long as every command proposed is all
or nothing: a command rejected halfway leaves its changes behind.
-/

namespace AtlasNative

open Consensus RaftM RaftNode NodeState List MemCatalog Option Catalog

/-! ### The catalog the log leads to -/

/-- However a command ends, it does not move the catalog back. -/
theorem MemCatalog.le_applyCommitted {c : MemCatalog} {term index : Nat} {cmd : MetaCommand} :
    c.appliedIndex ≤ (c.applyCommitted term index cmd).2.appliedIndex := by
  by_cases hidx : index ≤ c.appliedIndex
  · rw [applyCommitted_stale hidx]
  · simp only [applyCommitted, applyCommittedWith, applyWith, if_neg hidx]
    cases hrun : CatM.runCommand term cmd (⟨c, (), []⟩ : World MemTable Unit) with
    | ok u w => simp only; omega
    | error f w =>
      have happ : w.cat.appliedIndex = c.appliedIndex := CatM.runCommand_error_applied hrun
      cases f with
      | err e =>
        cases e with
        | store why => exact happ.ge
        | _ =>
          simp only
          split
          · exact Nat.le_of_not_le hidx
          · exact happ.ge
      | panic | hang => exact happ.ge

/-- The speculative catalog of a leader is the one its log leads to. -/
def RaftNode.SpecCurrent (n : RaftNode) : Prop :=
  n.role = .leader → ∀ c, n.spec = some c → c = n.logged

theorem le_appliedIndex_foldl (l : List Entry) (c : MemCatalog) : c.appliedIndex ≤ (l.foldl after c).appliedIndex := by
  induction l generalizing c with
  | nil => exact le_rfl
  | cons e l ih => exact le_applyCommitted.trans (ih (c.after e))

variable {n n' : RaftNode} {e : Entry}

theorem RaftNode.logged_append (hlog : n'.log = n.log ++ [e]) (hcat : n'.catalog = n.catalog) :
    n'.logged = n.logged.after e := by
  rw [logged, hlog, hcat, filter_append, foldl_append]
  by_cases he : n.catalog.appliedIndex < e.index
  · simp [he, logged]
  · -- an entry the catalog has already applied changes nothing
    have hle := le_appliedIndex_foldl (n.log.filter (n.catalog.appliedIndex < ·.index)) n.catalog
    have hstale : n.logged.after e = n.logged := by
      rw [MemCatalog.after, MemCatalog.applyCommitted_stale]
      exact (not_lt.mp he).trans hle
    rw [hstale]
    simp [he, logged]

theorem RaftNode.logged_apply {out : Outcome} (hcont : Contiguous n.snapshotIndex n.log)
    (he : n.entry (n.catalog.appliedIndex + 1) = some e) (hlog : n'.log = n.log)
    (hcat : n.catalog.applyCommitted e.term e.index e.command = (out, n'.catalog))
    (hout : (∃ gc, out = .ok gc) ∨ ∃ err, out = .err err) : n'.logged = n.logged := by
  have hidx : e.index = n.catalog.appliedIndex + 1 := entry_index hcont he
  have happlied : n'.catalog.appliedIndex = e.index := (MemCatalog.applyCommitted_stamp (by omega) hcat hout).1
  rw [entry] at he
  split at he
  · cases he
  have hnext : n.log.drop (n.catalog.appliedIndex - n.snapshotIndex) =
      e :: n.log.drop (n.catalog.appliedIndex + 1 - n.snapshotIndex) := by
    rw [show n.catalog.appliedIndex + 1 - n.snapshotIndex - 1 = n.catalog.appliedIndex - n.snapshotIndex by omega] at he
    rw [show n.catalog.appliedIndex + 1 - n.snapshotIndex = n.catalog.appliedIndex - n.snapshotIndex + 1 by omega]
    exact drop_eq_getElem?_toList_append.trans (by rw [he]; rfl)
  rw [logged, logged, happlied, hidx, hlog, hcont.filter_gt (by omega),
    hcont.filter_gt (by omega), hnext, foldl_cons, MemCatalog.after, hcat]

theorem RaftNode.logged_drop {k : Nat} (hcont : Contiguous n.snapshotIndex n.log)
    (hk : n.snapshotIndex + k ≤ n.catalog.appliedIndex) (hlog : n'.log = n.log.drop k)
    (hcat : n'.catalog = n.catalog) : n'.logged = n.logged := by
  rw [logged, logged, hlog, hcat, (hcont.drop k).filter_gt hk, hcont.filter_gt (by omega), drop_drop]
  congr 2
  omega

/-- The speculative catalog of a leader is the one its log leads to, built or not. -/
theorem RaftNode.SpecCurrent.speculative (h : n.SpecCurrent) (hrole : n.role = .leader) :
    n.speculative = n.logged := by
  unfold RaftNode.speculative
  cases hspec : n.spec with
  | none => rfl
  | some c => exact h hrole c hspec

/-! ### Every action keeps it current -/

theorem RaftNode.SpecCurrent.same (h : n.SpecCurrent) (hrole : n'.role = n.role) (hspec : n'.spec = n.spec)
    (hlogged : n'.logged = n.logged) : n'.SpecCurrent := by
  intro hr c hc
  rw [hlogged]
  exact h (hrole ▸ hr) c (hspec ▸ hc)

theorem RaftNode.SpecCurrent.of_role (hrole : n.role ≠ .leader) : n.SpecCurrent := fun hr => absurd hr hrole

variable {w : Setting} {s s' : NodeState}

theorem RaftNode.SpecCurrent.action (h : s.node.SpecCurrent) (hwf : Wf s) (hw : ¬ w.halfway)
    (ha : Action w s s') : s'.node.SpecCurrent := by
  cases ha with
  | quiet f hcore | matched _ _ _ _ _ _ f hcore =>
    have hlog : (f s.node).log = s.node.log := congrArg (·.log) hcore
    have hcat : (f s.node).catalog = s.node.catalog := congrArg (·.catalog) hcore
    refine h.same (congrArg (·.role) hcore) (congrArg (·.spec) hcore) ?_
    show (f s.node).logged = s.node.logged
    rw [logged, hlog, hcat]
    rfl
  | refresh =>
    obtain ⟨_, _, hn, -⟩ := s.node.refreshMembership_eq
    exact h.same (by simp only [update, hn]) (by simp only [update, hn]) (by simp only [update, hn]; rfl)
  | prepare v f _ hcore =>
    have hrole : (f s.node).role = .preCandidate := congrArg (·.role) hcore
    exact .of_role (by rw [show (s.update f).node = f s.node from rfl, hrole]; decide)
  | campaign => exact .of_role fun hr => by cases hr
  | elect => exact fun _ c hc => by cases hc
  | follow term leader =>
    obtain ⟨out, res, hn, -⟩ := s.followed_node term leader
    exact .of_role fun hr => by rw [hn] at hr; cases hr
  | speculate c hc =>
    intro hr d hd
    obtain rfl := some.inj hd
    exact (hc.resolve_right hw).trans (h.speculative hr)
  | create command spec hrole _ hspec =>
    obtain ⟨next, mtch, hn, -⟩ := (s.withSpec spec).create_node command
    intro hr c hc
    rw [hn] at hc ⊢
    obtain ⟨gc, happ⟩ := hspec c hc
    refine Eq.trans ?_ (Eq.symm (logged_append (n := s.node) rfl rfl))
    rw [← h.speculative hrole]
    exact (congrArg Prod.snd (applyCommitted_of_ok happ)).symm
  | takeNew _ _ hrole | takeOver _ _ hrole =>
    have hsame : ∀ t : NodeState, t.node.role = s.node.role → (t.update refreshMembership).node.role = .follower :=
      fun t ht => (t.node.refreshMembership_role.trans ht).trans hrole
    exact .of_role fun hr => by cases hr.symm.trans (hsame _ rfl)
  | apply e out c _ he happ hout => exact h.same rfl rfl (logged_apply hwf.contiguous he rfl happ hout)
  | compact i t c hlo hstore hi =>
    obtain ⟨d, hd, hle⟩ := hwf.store
    obtain rfl := mem_unique hstore hd
    exact h.same rfl rfl (logged_drop hwf.contiguous (k := i - s.node.snapshotIndex) (by omega) rfl rfl)
  | install _ inc _ _ hrole => exact .of_role (by rw [s.adopt_role, hrole]; decide)
  | confirm sender seq =>
    obtain ⟨reads, out, res, hn, -⟩ := s.node.confirmReads_eq sender seq
    exact h.same (by simp only [update, hn]) (by simp only [update, hn]) (by simp only [update, hn]; rfl)
  | _ => exact h.same rfl rfl rfl

/-! ### What actions create -/

theorem createdOf_create {command : MetaCommand} : createdOf (s.create command).trace =
      createdOf s.trace ++ [(s.nextEntry command, s.node.lastTerm)] := by
  rw [(s.create_disk command).2, createdOf_append]
  rfl

theorem Action.created (h : Action w s s') {x : Entry × Nat} (hx : x ∈ createdOf s'.trace) :
    x ∈ createdOf s.trace ∨ w.Checked x.1 := by
  have hsame : ∀ fx, s'.trace = s.trace ++ fx → createdOf fx = [] → x ∈ createdOf s.trace := by
    intro fx htrace hfx
    rwa [htrace, createdOf_append, hfx, append_nil] at hx
  cases h with
  | create command spec _ _ _ hnew =>
    rw [createdOf_create] at hx
    refine (mem_append.mp hx).imp_right fun hx => ?_
    rw [mem_singleton.mp hx]
    exact hnew
  | flush | campaign | vote | apply | checkpoint | compact | takeNew => exact .inl (hsame _ rfl rfl)
  | takeOver =>
    refine .inl (hsame _ (append_assoc _ _ _) ?_)
    rfl
  | follow term leader =>
    have hraise : ∃ fx, (s.raiseTerm term).trace = s.trace ++ fx ∧ createdOf fx = [] := by
      unfold raiseTerm
      split
      · exact ⟨_, rfl, rfl⟩
      · exact ⟨[], (append_nil _).symm, rfl⟩
    obtain ⟨fx, htrace, hfx⟩ := hraise
    exact .inl (hsame fx htrace hfx)
  | install _ inc =>
    obtain ⟨eff, htrace, hcr, -⟩ := s.adopt_trace inc.catalog
    exact .inl (hsame _ htrace hcr)
  | _ => exact .inl hx

/-- Along a path the speculative catalog stays current and only checked entries are created. -/
theorem Path.current (hp : Path w s s') (hwf : Wf s) (hw : ¬ w.halfway) (h : s.node.SpecCurrent)
    (hcr : ∀ x ∈ createdOf s.trace, w.Checked x.1) :
    s'.node.SpecCurrent ∧ ∀ x ∈ createdOf s'.trace, w.Checked x.1 := by
  induction hp with
  | refl => exact ⟨h, hcr⟩
  | tail hp ha ih =>
    exact ⟨ih.1.action (Path.wf hp hwf) hw ha, fun x hx => (ha.created hx).elim (ih.2 x) id⟩

/-- What a leader is asked to propose is all or nothing on the catalog its log leads to. -/
def Op.Whole (n : RaftNode) : Op → Prop
  | .propose command => n.role = .leader → command.Whole n.logged n.hard.term (n.lastIndex + 1)
  | _ => True

instance (n : RaftNode) : (op : Op) → Decidable (op.Whole n)
  | .propose _ => inferInstanceAs (Decidable (_ → MetaCommand.Whole ..))
  | .tick | .step _ | .changeMembership .. | .takeMessages | .readIndex | .readResult _
  | .forgetRead _ => isTrue trivial

/-- An entry that `n`, leading, accepts after all of its log. -/
def RaftNode.Accepts (n : RaftNode) (e : Entry) : Prop :=
  n.role = .leader ∧ e.term = n.hard.term ∧ e.index = n.lastIndex + 1 ∧
    ∃ gc c', n.logged.apply e.term e.index e.command = (.ok gc, c')

end AtlasNative
