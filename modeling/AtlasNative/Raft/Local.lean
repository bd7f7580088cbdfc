import AtlasNative.Raft.Action
import AtlasNative.Catalog.Stamp

/-!
# A node and its disk agree

Between actions the records on disk are the node's log, the log has no gaps above the snapshot, the
node knows how far its log is synced, and snapshot, store, catalog and commit index are in order.
-/

namespace AtlasNative

open RaftNode NodeState List Disk Option Consensus.LogEntry

/-- Entries numbered from `base + 1` on. -/
def Contiguous (base : Nat) (l : List Entry) : Prop :=
  ∀ i e, l[i]? = some e → e.index = base + i + 1

variable {e : Entry} {i : Nat}

namespace Contiguous

variable {base : Nat} {l : List Entry}

theorem nil (base : Nat) : Contiguous base [] := by
  intro i e h
  simp at h

section

variable (h : Contiguous base l)
include h

theorem concat (he : e.index = base + l.length + 1) : Contiguous base (l ++ [e]) := by
  intro i a ha
  rcases lt_trichotomy i l.length with hi | rfl | hi
  · rw [getElem?_append_left hi] at ha
    exact h i a ha
  · simp at ha
    rw [← ha, he]
  · rw [getElem?_append_right (by omega), getElem?_eq_none (by simp; omega)] at ha
    simp at ha

theorem take (k : Nat) : Contiguous base (l.take k) := by
  intro i e he
  rw [getElem?_take] at he
  split at he
  · exact h i e he
  · simp at he

theorem drop (k : Nat) : Contiguous (base + k) (l.drop k) := by
  intro i e he
  rw [getElem?_drop] at he
  have := h _ e he
  omega

omit h in
theorem tail (h : Contiguous base (e :: l)) : Contiguous (base + 1) l := h.drop 1

omit h in
theorem head (h : Contiguous base (e :: l)) : e.index = base + 1 := h 0 e rfl

theorem filter_gt (hi : base ≤ i) : (l.filter fun e => decide (i < e.index)) = l.drop (i - base) := by
  induction l generalizing base with
  | nil => simp
  | cons e l ih =>
    have he := h.head
    rcases lt_or_ge base i with hlt | hge
    · rw [filter_cons_of_neg (by simp; omega), ih h.tail (by omega),
        show i - base = i - (base + 1) + 1 by omega, drop_succ_cons]
    · obtain rfl : i = base := by omega
      rw [Nat.sub_self, drop_zero, filter_eq_self]
      intro a ha
      obtain ⟨j, hj⟩ := mem_iff_getElem?.mp ha
      have := h j a hj
      simp
      omega

theorem filter_le (hi : base ≤ i) : (l.filter fun e => decide (e.index ≤ i)) = l.take (i - base) := by
  induction l generalizing base with
  | nil => simp
  | cons e l ih =>
    have he := h.head
    rcases lt_or_ge base i with hlt | hge
    · rw [filter_cons_of_pos (by simp; omega), ih h.tail (by omega),
        show i - base = i - (base + 1) + 1 by omega, take_succ_cons]
    · obtain rfl : i = base := by omega
      rw [Nat.sub_self, take_zero, filter_eq_nil_iff]
      intro a ha
      obtain ⟨j, hj⟩ := mem_iff_getElem?.mp ha
      have := h j a hj
      simp
      omega

end

end Contiguous

structure Wf (s : NodeState) : Prop where
  contiguous : Contiguous s.node.snapshotIndex s.node.log
  records : s.disk.records = s.node.log
  hard : s.disk.hard = s.node.hard
  last : s.node.wal.lastIndex = s.node.snapshotIndex + s.node.log.length
  synced : s.node.wal.syncedIndex + s.disk.pending.length = s.node.wal.lastIndex
  store : ∃ c, s.disk.store = some c ∧ c.appliedIndex ≤ s.node.catalog.appliedIndex
  applied : s.node.catalog.appliedIndex ≤ s.node.commitIndex
  snapshot : s.node.snapshotIndex ≤ s.node.commitIndex
  led : s.node.role = .leader → s.node.led = some s.node.hard.term

/-! ### Reading a contiguous log -/

namespace RaftNode

variable {n : RaftNode}

theorem lastIndex_eq (h : Contiguous n.snapshotIndex n.log) : n.lastIndex = n.snapshotIndex + n.log.length := by
  rcases eq_nil_or_concat n.log with hl | ⟨l, e, hl⟩
  · simp [lastIndex, hl]
  · have := h l.length e (by simp [hl])
    simp [lastIndex, hl, this]
    omega

theorem entry_eq_none_iff (hi : n.snapshotIndex < i) : n.entry i = none ↔ n.snapshotIndex + n.log.length < i := by
  rw [entry, if_neg (by omega), getElem?_eq_none_iff]
  omega

theorem entry_index (h : Contiguous n.snapshotIndex n.log) (he : n.entry i = some e) : e.index = i := by
  rw [entry] at he
  split at he
  · simp at he
  · have := h _ e he
    omega

theorem termAt_snapshot : n.termAt n.snapshotIndex = some n.snapshotTerm := by
  simp [termAt]

theorem termAt_of_lt (hi : n.snapshotIndex < i) : n.termAt i = (n.log[i - n.snapshotIndex - 1]?).map Entry.term := by
  rw [termAt, if_neg (by omega), entry, if_neg (by omega)]

theorem termAt_bounds {t : Nat} (h : n.termAt i = some t) :
    n.snapshotIndex ≤ i ∧ i ≤ n.snapshotIndex + n.log.length := by
  rw [termAt] at h
  split at h
  · omega
  · rw [entry] at h
    split at h
    · simp at h
    · simp only [map_eq_some_iff] at h
      obtain ⟨e, he, -⟩ := h
      obtain ⟨hlt, -⟩ := List.getElem?_eq_some_iff.mp he
      omega

theorem termAt_none (hi : n.snapshotIndex ≤ i) (h : n.termAt i = none) : n.snapshotIndex + n.log.length < i := by
  rw [termAt] at h
  split at h
  · simp at h
  · rw [map_eq_none_iff, entry_eq_none_iff (by omega)] at h
    exact h

end RaftNode

theorem Linked.le {n : RaftNode} {prev prevTerm : Nat} {entries : List Entry}
    (h : Linked n prev prevTerm entries i) : i ≤ n.snapshotIndex + n.log.length := by
  rcases h with h | ⟨t, ht, -⟩
  · exact h.trans (Nat.le_add_right _ _)
  · exact (termAt_bounds ht).2

/-! ### What the helpers of an action change -/

namespace RaftNode

/-- The configuration the log and the catalog of a node call for. -/
def effective (n : RaftNode) : Membership :=
  ((n.log.reverse.findSome? Consensus.LogEntry.config).or n.catalog.membership).getD n.initial

theorem getElem?_foldl_default (ps : List NodeId) (m : BTreeMap NodeId Nat) (d : Nat) (p : NodeId)
    {k : Nat} (h : (ps.foldl (fun m p => if m.contains p then m else m.insert p d) m)[p]? = some k) :
    m[p]? = some k ∨ k = d := by
  induction ps generalizing m with
  | nil => exact .inl h
  | cons q ps ih =>
    rcases ih _ h with h | h
    · dsimp only at h
      split at h
      · exact .inl h
      · exact (Program.getElem?_of_insert h).symm.imp_right (·.2)
    · exact .inr h

theorem getElem?_ofList_const {ps : List NodeId} {d k : Nat} {p : NodeId}
    (h : (Std.ExtTreeMap.ofList (ps.map fun p => (p, d)) compare : BTreeMap NodeId Nat)[p]? = some k) :
    k = d := by
  rw [Std.ExtTreeMap.ofList_eq_insertMany_empty] at h
  suffices hgen : ∀ m : BTreeMap NodeId Nat,
      (m.insertMany (ps.map fun p => (p, d)))[p]? = some k → m[p]? = some k ∨ k = d by
    rcases hgen ∅ h with h | h
    · simp at h
    · exact h
  clear h
  induction ps with
  | nil => exact fun m h => .inl h
  | cons q ps ih =>
    intro m h
    rw [map_cons, Std.ExtTreeMap.insertMany_cons] at h
    rcases ih _ h with h | h
    · exact (Program.getElem?_of_insert h).symm.imp_right (·.2)
    · exact .inr h

theorem refreshMembership_eq (n : RaftNode) : ∃ next mtch, n.refreshMembership =
      { n with membership := n.effective, nextIndex := next, matchIndex := mtch } ∧
    ∀ (p : NodeId) (k : Nat), mtch[p]? = some k → n.matchIndex[p]? = some k ∨ k = 0 := by
  unfold refreshMembership
  dsimp only
  split
  · refine ⟨_, _, rfl, fun p k hk => ?_⟩
    rcases getElem?_foldl_default _ _ _ _ hk with h | h
    · rw [Std.ExtTreeMap.getElem?_filter', filter_eq_some_iff] at h
      exact .inl h.1
    · exact .inr h
  · exact ⟨_, _, rfl, fun _ _ => .inl⟩

theorem refreshMembership_role (n : RaftNode) : n.refreshMembership.role = n.role := by
  obtain ⟨_, _, h, -⟩ := n.refreshMembership_eq
  rw [h]

/-- An answer to a read barrier. -/
def IsReadAnswer (n : RaftNode) (env : Envelope) : Prop :=
  env.sender = n.cfg.id ∧ ∃ id index, env.msg = .readIndexResponse n.hard.term id index

theorem answerReads_eq (answers : PendingRead → Option Nat) (rs : List PendingRead) (n : RaftNode) :
    ∃ out res, rs.foldl (fun n r => n.answerRead r.sender r.id r.epoch (answers r)) n =
      { n with outbox := n.outbox ++ out, readResults := res } ∧ ∀ env ∈ out, n.IsReadAnswer env := by
  induction rs generalizing n with
  | nil => exact ⟨[], n.readResults, by simp, by simp⟩
  | cons r rs ih =>
    rw [foldl_cons]
    obtain ⟨out, res, h, hout⟩ := ih (n.answerRead r.sender r.id r.epoch (answers r))
    rw [h]
    cases hs : r.sender with
    | none => exact ⟨out, res, rfl, by simpa [answerRead, hs, IsReadAnswer] using hout⟩
    | some f =>
      refine ⟨_ :: out, res, by simp [answerRead, reply]; rfl, ?_⟩
      intro env henv
      rcases mem_cons.mp henv with rfl | henv
      · exact ⟨rfl, _, _, rfl⟩
      · simpa [answerRead, hs, reply, IsReadAnswer] using hout env henv

theorem confirmReads_eq (n : RaftNode) (sender : Option NodeId) (seq : Nat) : ∃ reads out res,
    n.confirmReads sender seq = { n with pendingReads := reads, outbox := n.outbox ++ out, readResults := res } ∧
    ∀ env ∈ out, n.IsReadAnswer env := by
  obtain ⟨out, res, h, hout⟩ := answerReads_eq (fun r => some r.index) _ _
  exact ⟨_, out, res, h, hout⟩

end RaftNode

namespace NodeState

/-- The hard state after a term is seen. -/
def raisedHard (s : NodeState) (term : Nat) : HardState :=
  if s.node.hard.term < term then ⟨term, none⟩ else s.node.hard

theorem raiseTerm_node (s : NodeState) (term : Nat) :
    (s.raiseTerm term).node = { s.node with hard := s.raisedHard term } := by
  unfold raiseTerm raisedHard
  split <;> rfl

theorem followed_node (s : NodeState) (term : Nat) (leader : Option NodeId) : ∃ out res,
    (s.followed term leader).node = { s.node with
      hard := s.raisedHard term, pendingReads := [], outbox := s.node.outbox ++ out
      readResults := res, role := .follower, spec := none, outgoing := ∅, leader := leader
      votes := ∅ }.resetElectionTimer ∧
    ∀ env ∈ out, env.sender = s.node.cfg.id ∧
      ∃ id index, env.msg = .readIndexResponse (s.raisedHard term).term id index := by
  obtain ⟨out, res, heq, hout⟩ := answerReads_eq (fun _ => none)
    (s.raiseTerm term).node.pendingReads { (s.raiseTerm term).node with pendingReads := [] }
  refine ⟨out, res, ?_, ?_⟩
  · simp only [followed, dropReads, update, heq]
    simp only [raiseTerm_node]
  · simpa only [RaftNode.IsReadAnswer, raiseTerm_node] using hout

section

variable (s : NodeState) (command : MetaCommand)
include s command

theorem create_eq : s.create command =
    if (config (s.nextEntry command)).isSome then
      ((s.emit (.created (s.nextEntry command) s.node.lastTerm)).push (s.nextEntry command)).update refreshMembership
    else (s.emit (.created (s.nextEntry command) s.node.lastTerm)).push (s.nextEntry command) := rfl

theorem create_node : ∃ next mtch, (s.create command).node = { s.node with
      wal := ⟨s.node.lastIndex + 1, s.node.wal.syncedIndex⟩
      log := s.node.log ++ [s.nextEntry command]
      membership := (config (s.nextEntry command)).getD s.node.membership
      nextIndex := next, matchIndex := mtch } ∧
    ∀ (p : NodeId) (k : Nat), mtch[p]? = some k → s.node.matchIndex[p]? = some k ∨ k = 0 := by
  cases hc : config (s.nextEntry command) with
  | none =>
    rw [create_eq, if_neg (by simp [hc])]
    exact ⟨_, _, rfl, fun _ _ => .inl⟩
  | some m =>
    obtain ⟨next, mtch, hr, hm⟩ := refreshMembership_eq
      ((s.emit (.created (s.nextEntry command) s.node.lastTerm)).push (s.nextEntry command)).node
    refine ⟨next, mtch, ?_, hm⟩
    have hlatest : effective ((s.emit (.created (s.nextEntry command)
        s.node.lastTerm)).push (s.nextEntry command)).node = m := by
      simp [effective, push, emit, update, hc]
    rw [create_eq, if_pos (by simp [hc])]
    simp only [update, hr, hlatest]
    rfl

theorem create_disk : (s.create command).disk = s.disk.perform (.walAppend (s.nextEntry command)) ∧
    (s.create command).trace = s.trace ++ [(.created (s.nextEntry command) s.node.lastTerm, s.disk),
        (.walAppend (s.nextEntry command), s.disk.perform (.walAppend (s.nextEntry command)))] := by
  rw [create_eq]
  split <;> exact ⟨rfl, by simp [update, push, emit, perform]⟩

end

end NodeState

/-! ### Actions keep node and disk in step -/

namespace Wf

variable {s s' : NodeState}

section

variable (h : Wf s)
include h

theorem of_eq (hd : s'.disk = s.disk) (hh : s'.node.hard = s.node.hard)
    (hl : s'.node.log = s.node.log) (hs : s'.node.snapshotIndex = s.node.snapshotIndex)
    (hw : s'.node.wal = s.node.wal) (hc : s'.node.catalog = s.node.catalog)
    (hi : s.node.commitIndex ≤ s'.node.commitIndex)
    (hr : s'.node.role = .leader → s'.node.led = some s'.node.hard.term) : Wf s' where
  contiguous := by rw [hs, hl]; exact h.contiguous
  records := by rw [hd, hl]; exact h.records
  hard := by rw [hd, hh]; exact h.hard
  last := by rw [hw, hs, hl]; exact h.last
  synced := by rw [hw, hd]; exact h.synced
  store := by rw [hd, hc]; exact h.store
  applied := by rw [hc]; exact h.applied.trans hi
  snapshot := by rw [hs]; exact h.snapshot.trans hi
  led := hr

theorem of_core {f : RaftNode → RaftNode} {c : RaftNode.Core} (hc : (f s.node).core = c)
    (hh : c.hard = s.node.hard) (hl : c.log = s.node.log)
    (hs : c.snapshotIndex = s.node.snapshotIndex) (hw : c.wal = s.node.wal)
    (hcat : c.catalog = s.node.catalog) (hi : c.commitIndex = s.node.commitIndex)
    (hr : c.role = .leader → c.led = some s.node.hard.term) : Wf (s.update f) := by
  subst hc
  exact h.of_eq rfl hh hl hs hw hcat hi.ge fun hl => (hr hl).trans (congrArg (some ·.term) hh.symm)

theorem refresh : Wf (s.update refreshMembership) := by
  obtain ⟨next, mtch, heq, -⟩ := s.node.refreshMembership_eq
  refine h.of_eq rfl ?_ ?_ ?_ ?_ ?_ ?_ ?_ <;> simp only [update, heq, le_refl]
  exact h.led

theorem flush : Wf s.flush where
  contiguous := h.contiguous
  records := by
    have := h.records
    simpa [NodeState.flush, NodeState.emit, NodeState.update, Disk.perform, Disk.records] using this
  hard := h.hard
  last := h.last
  synced := by simp [NodeState.flush, NodeState.emit, NodeState.update, perform]
  store := h.store
  applied := h.applied
  snapshot := h.snapshot
  led := h.led

theorem push (he : e.index = s.node.snapshotIndex + s.node.log.length + 1) : Wf (s.push e) where
  contiguous := h.contiguous.concat he
  records := by
    have := h.records
    simp only [Disk.records] at this
    simp [NodeState.push, NodeState.emit, NodeState.update, Disk.perform, Disk.records, ← this]
  hard := h.hard
  last := by simp [NodeState.push, NodeState.emit, NodeState.update, he]; omega
  synced := by
    have h1 := h.synced
    have h2 := h.last
    simp [NodeState.push, NodeState.emit, NodeState.update, Disk.perform, he]
    omega
  store := h.store
  applied := h.applied
  snapshot := h.snapshot
  led := h.led

section

variable (hlo : s.node.snapshotIndex ≤ i) (hhi : i ≤ s.node.snapshotIndex + s.node.log.length)
include hlo hhi

theorem cut : Wf (s.cut i) where
  contiguous := h.contiguous.take _
  records := by
    simp only [NodeState.cut, NodeState.emit, NodeState.update, perform, rewrite, Disk.records, append_nil]
    rw [← h.contiguous.filter_le hlo, ← h.records]
    rfl
  hard := h.hard
  last := by simp [NodeState.cut, NodeState.emit, NodeState.update]; omega
  synced := by simp [NodeState.cut, NodeState.emit, NodeState.update, perform, rewrite]
  store := h.store
  applied := h.applied
  snapshot := h.snapshot
  led := h.led

theorem compact {t : Nat} (hi : i ≤ s.node.commitIndex) : Wf (s.compact i t) where
  contiguous := by
    have := h.contiguous.drop (i - s.node.snapshotIndex)
    rwa [show s.node.snapshotIndex + (i - s.node.snapshotIndex) = i by omega] at this
  records := by
    simp only [NodeState.compact, NodeState.emit, NodeState.update, perform, rewrite, Disk.records, append_nil]
    rw [← h.contiguous.filter_gt hlo, ← h.records]
    rfl
  hard := h.hard
  last := by
    have := h.last
    simp [NodeState.compact, NodeState.emit, NodeState.update]
    omega
  synced := by
    simp [NodeState.compact, NodeState.emit, NodeState.update, perform, rewrite]
  store := h.store
  applied := h.applied
  snapshot := hi
  led := h.led

end

theorem followed (term : Nat) (leader : Option NodeId) : Wf (s.followed term leader) := by
  obtain ⟨out, res, hnode, -⟩ := s.followed_node term leader
  have hdisk : (s.followed term leader).disk = (s.raiseTerm term).disk := rfl
  have hrole : (s.followed term leader).node.role ≠ .leader := by
    rw [hnode]
    simp [resetElectionTimer]
  by_cases hlt : s.node.hard.term < term
  · rw [raisedHard, if_pos hlt] at hnode
    rw [raiseTerm, if_pos hlt] at hdisk
    refine ⟨?_, ?_, ?_, ?_, ?_, ?_, ?_, ?_, fun hl => absurd hl hrole⟩ <;> simp only [hnode, hdisk]
    · exact h.contiguous
    · exact h.records
    · rfl
    · exact h.last
    · exact h.synced
    · exact h.store
    · exact h.applied
    · exact h.snapshot
  · rw [raisedHard, if_neg hlt] at hnode
    rw [raiseTerm, if_neg hlt] at hdisk
    exact h.of_eq hdisk (by rw [hnode]; rfl) (by rw [hnode]; rfl) (by rw [hnode]; rfl)
      (by rw [hnode]; rfl) (by rw [hnode]; rfl) (by rw [hnode]; exact le_rfl)
      fun hl => absurd hl hrole

theorem create (command : MetaCommand) : Wf (s.create command) := by
  have hpush : Wf ((s.emit (.created ⟨s.node.hard.term, s.node.lastIndex + 1, command⟩
      s.node.lastTerm)).push ⟨s.node.hard.term, s.node.lastIndex + 1, command⟩) := by
    have hemit : Wf (s.emit (.created ⟨s.node.hard.term, s.node.lastIndex + 1, command⟩
      s.node.lastTerm)) := h.of_eq rfl rfl rfl rfl rfl rfl le_rfl h.led
    refine hemit.push ?_
    simp only [emit]
    rw [lastIndex_eq h.contiguous]
  unfold NodeState.create
  dsimp only
  split
  · exact hpush.refresh
  · exact hpush

theorem rebase (c : MemCatalog) : Wf (s.rebase c) := by
  unfold NodeState.rebase NodeState.trimLog
  split
  · rename_i hkeep
    obtain ⟨hlo, hhi⟩ := termAt_bounds hkeep
    constructor
    · have := h.contiguous.drop (c.appliedIndex - s.node.snapshotIndex)
      rwa [show s.node.snapshotIndex + (c.appliedIndex - s.node.snapshotIndex) = c.appliedIndex by
        simp only [swapStore, emit, update] at hlo; omega] at this
    · simp only [swapStore, emit, update, perform, rewrite, Disk.records, append_nil]
      rw [← h.contiguous.filter_gt hlo, ← h.records]
      rfl
    · exact h.hard
    · have := h.last
      simp [swapStore, emit, update] at hlo hhi ⊢
      omega
    · simp [emit, update, perform, rewrite]
    · exact ⟨c, rfl, le_rfl⟩
    · exact le_rfl
    · exact le_rfl
    · exact h.led
  · constructor
    · exact Contiguous.nil _
    · simp [emit, update, Disk.perform, Disk.rewrite, Disk.records]
    · exact h.hard
    · simp [emit, update]
    · simp [emit, update, perform, rewrite]
    · exact ⟨c, rfl, le_rfl⟩
    · exact le_rfl
    · exact le_rfl
    · exact h.led

theorem adopt (c : MemCatalog) : Wf (s.adopt c) := (h.rebase c).refresh

end

end Wf

theorem Action.wf {w : Setting} {s s' : NodeState} (h : Action w s s') (hwf : Wf s) : Wf s' := by
  cases h with
  | quiet f hcore | matched _ _ _ _ _ _ f hcore =>
    exact hwf.of_core hcore rfl rfl rfl rfl rfl rfl hwf.led
  | refresh => exact hwf.refresh
  | flush _ => exact hwf.flush
  | prepare v f _ hcore => exact hwf.of_core hcore rfl rfl rfl rfl rfl rfl (by simp)
  | campaign _ => exact ⟨hwf.contiguous, hwf.records, rfl, hwf.last, hwf.synced, hwf.store,
      hwf.applied, hwf.snapshot, fun h => by simp [campaigning, update, emit, resetElectionTimer] at h⟩
  | speculate | ballot | stage | unstage | result | forget | transfer | endTransfer | send | answer
  | newRead | register =>
    exact hwf.of_eq rfl rfl rfl rfl rfl rfl le_rfl hwf.led
  | elect => exact hwf.of_eq rfl rfl rfl rfl rfl rfl le_rfl fun _ => rfl
  | follow term leader => exact hwf.followed term leader
  | vote env => exact ⟨hwf.contiguous, hwf.records, rfl, hwf.last, hwf.synced, hwf.store,
      hwf.applied, hwf.snapshot, hwf.led⟩
  | create command spec =>
    exact Wf.create (s := s.withSpec spec) (hwf.of_eq rfl rfl rfl rfl rfl rfl le_rfl hwf.led) command
  | commit i _ hlt => exact hwf.of_eq rfl rfl rfl rfl rfl rfl hlt.le hwf.led
  | takeNew env _ _ _ hlink hlo hidx hterm =>
    refine (hwf.push ?_).refresh
    have hhi := hlink.le
    have := termAt_none (by omega) hterm
    omega
  | takeOver env _ _ _ hlink hlo hidx hterm =>
    have hhi := (termAt_bounds hterm).2
    refine ((hwf.cut (by omega) (by omega)).push ?_).refresh
    simp [cut, emit, update]
    omega
  | learn _ _ _ _ _ hc => exact hwf.of_eq rfl rfl rfl rfl rfl rfl (hc ▸ le_max_right _ _) hwf.led
  | apply e out c hlt he happ hout =>
    have hidx := entry_index hwf.contiguous he
    have hc : c.appliedIndex = e.index := (MemCatalog.applyCommitted_stamp (by omega) happ hout).1
    obtain ⟨d, hd, hle⟩ := hwf.store
    refine ⟨hwf.contiguous, hwf.records, hwf.hard, hwf.last, hwf.synced, ⟨d, hd, ?_⟩, ?_, hwf.snapshot, hwf.led⟩
    · show d.appliedIndex ≤ c.appliedIndex
      omega
    · show c.appliedIndex ≤ s.node.commitIndex
      omega
  | checkpoint =>
    exact ⟨hwf.contiguous, hwf.records, hwf.hard, hwf.last, hwf.synced, ⟨_, rfl, le_rfl⟩,
      hwf.applied, hwf.snapshot, hwf.led⟩
  | compact i t c hlo hstore hi hterm =>
    obtain ⟨d, hd, hle⟩ := hwf.store
    obtain rfl : c = d := some.inj (hstore ▸ hd)
    exact hwf.compact hlo (termAt_bounds hterm).2 (hi.trans (hle.trans hwf.applied))
  | install env inc => exact hwf.adopt inc.catalog
  | confirm sender seq =>
    obtain ⟨reads, out, res, heq, -⟩ := s.node.confirmReads_eq sender seq
    refine hwf.of_eq rfl ?_ ?_ ?_ ?_ ?_ ?_ ?_ <;> simp only [update, heq, le_refl]
    exact hwf.led

theorem Path.wf {w : Setting} {s s' : NodeState} (h : Path w s s') (hwf : Wf s) : Wf s' := by
  induction h with
  | refl => exact hwf
  | tail _ h ih => exact h.wf ih

end AtlasNative
