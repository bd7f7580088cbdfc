import AtlasNative.Raft.Leading

/-!
# A follower's log and snapshots, action by action

The entries of one message are taken one by one. The source looks up the membership once, after the
last of them; an action looks it up after each, so the loop is followed up to that field
(`NodeState.refreshed`).
-/

namespace AtlasNative

open RaftM RaftNode AtlasNative.Action

variable {w : Setting} {α β : Type} {s s' : NodeState} {E : NodeState → Prop}

namespace NodeState

def refreshed (s : NodeState) : NodeState := s.update RaftNode.refreshMembership

def withMembership (s : NodeState) (m : Membership) : NodeState :=
  s.update fun n => { n with membership := m }

section

variable (h : s.node.role = .follower)
include h

theorem refreshed_eq : s.refreshed = s.withMembership s.node.effective := by
  unfold refreshed withMembership update refreshMembership
  rw [if_neg (by simp [h])]
  rfl

theorem refreshed_withMembership (m : Membership) : (s.withMembership m).refreshed = s.refreshed := by
  rw [refreshed_eq h, refreshed_eq (s := s.withMembership m) h]
  rfl

theorem refreshed_push (e : Entry) : (s.refreshed.push e).refreshed = (s.push e).refreshed := by
  rw [refreshed_eq h]
  exact refreshed_withMembership (s := s.push e) h _

theorem refreshed_cut (i : Nat) (e : Entry) :
    ((s.refreshed.cut i).push e).refreshed = ((s.cut i).push e).refreshed := by
  rw [refreshed_eq h]
  exact refreshed_withMembership (s := (s.cut i).push e) h _

end

end NodeState

/-- What taking entries keeps of a node. -/
structure Taking (s s' : NodeState) : Prop where
  wf : Wf s'
  role : s'.node.role = s.node.role
  hard : s'.node.hard = s.node.hard
  snapshot : s'.node.snapshotIndex = s.node.snapshotIndex
  cfg : s'.node.cfg = s.node.cfg

/-- The outcomes of taking one entry just above what the log is known to share with the leader's. -/
theorem takeEntry_eq (hwf : Wf s) {e : Entry} (hlo : s.node.snapshotIndex < e.index)
    (hhi : e.index ≤ s.node.snapshotIndex + s.node.log.length + 1) :
    takeEntry e s = match s.node.termAt e.index with
      | none => .ok () (s.push e)
      | some t =>
        if t = e.term then .ok () s
        else if e.index ≤ s.node.commitIndex then
          .error (.inconsistent s!"leader overwrote committed index {e.index}") s
        else .ok () ((s.cut (e.index - 1)).push e) := by
  have hlast := hwf.last
  have happend : ∀ t : NodeState, t.node.wal.lastIndex < e.index →
      (do walAppend e
          modifyNode fun n => { n with log := n.log ++ [e] } : RaftM Unit) t =
        .ok () (t.push e) := by
    intro t ht
    have hwrite : walAppend e t = .ok () ((t.emit (.walAppend e)).update fun n =>
        { n with wal := ⟨e.index, n.wal.syncedIndex⟩ }) := by
      unfold walAppend
      rw [bind_ok (rfl : node t = .ok t.node t)]
      rw [if_neg (by omega)]
      rfl
    rw [bind_ok hwrite]
    rfl
  unfold takeEntry
  rw [bind_ok (rfl : node s = .ok s.node s)]
  cases ht : s.node.termAt e.index with
  | none =>
    have := termAt_none (by omega) ht
    exact happend s (by omega)
  | some t =>
    dsimp only
    by_cases hsame : t = e.term
    · rw [if_pos hsame, if_pos hsame]
      rfl
    rw [if_neg hsame, if_neg hsame]
    by_cases hcommit : e.index ≤ s.node.commitIndex
    · rw [if_pos hcommit, if_pos hcommit]
      rfl
    · have hcut : s.cut (e.index - 1) = (s.emit (.walKeepUpTo (e.index - 1))).update fun n =>
          { n with wal := ⟨e.index - 1, e.index - 1⟩
                   log := n.log.take (e.index - n.snapshotIndex - 1) } := by
        dsimp only [NodeState.cut, NodeState.update]
        rw [Nat.sub_right_comm]
      rw [if_neg hcommit, if_neg hcommit, ← happend (s.cut (e.index - 1)) (by
        show e.index - 1 < e.index; omega), hcut]
      rfl

theorem leaderTerm_next (prev prevTerm : Nat) (a b : List Entry) (e : Entry) :
    leaderTerm prev prevTerm (a ++ e :: b) (prev + a.length + 1) = some e.term := by
  unfold leaderTerm
  rw [if_neg (by omega), if_neg (by omega), show prev + a.length + 1 - prev - 1 = a.length by omega]
  simp

theorem termAt_push {e : Entry} (he : e.index = s.node.snapshotIndex + s.node.log.length + 1) :
    (s.push e).node.termAt e.index = some e.term := by
  rw [termAt_of_lt (n := (s.push e).node) (by show s.node.snapshotIndex < _; omega)]
  show ((s.node.log ++ [e])[e.index - s.node.snapshotIndex - 1]?).map Entry.term = _
  rw [show e.index - s.node.snapshotIndex - 1 = s.node.log.length by omega]
  simp

section Loop

variable {env : Envelope} {prev prevTerm lc rs : Nat} {a b : List Entry} {e : Entry}

theorem takeEntry_step (henv : w.soup env) (hwf : Wf s) (hrole : s.node.role = .follower)
    (hmsg : env.msg = .appendEntries s.node.hard.term prev prevTerm (a ++ e :: b) lc rs)
    (hidx : e.index = prev + a.length + 1) (hlo : s.node.snapshotIndex ≤ prev + a.length)
    (hlink : Linked s.node prev prevTerm (a ++ e :: b) (prev + a.length)) :
    match takeEntry e s with
    | .ok _ s' => Path w s.refreshed s'.refreshed ∧ Taking s s' ∧
        Linked s'.node prev prevTerm (a ++ e :: b) (prev + a.length + 1)
    | .error err s' => err.refusal = false ∧ s' = s := by
  have hhi := hlink.le
  have hleader := leaderTerm_next prev prevTerm a b e
  rw [takeEntry_eq hwf (by omega) (by omega)]
  cases hterm : s.node.termAt e.index with
  | none =>
    have hlen := termAt_none (by omega) hterm
    have he : e.index = s.node.snapshotIndex + s.node.log.length + 1 := by omega
    refine ⟨?_, ⟨hwf.push he, rfl, rfl, rfl, rfl⟩, .inr ⟨e.term, ?_, hleader⟩⟩
    · rw [← NodeState.refreshed_push hrole, NodeState.refreshed_eq hrole]
      exact (takeNew (s := s.withMembership s.node.effective) env henv hrole hmsg hlink hlo hidx hterm).path
    · rw [← hidx]
      exact termAt_push he
  | some t =>
    dsimp only
    by_cases hsame : t = e.term
    · rw [if_pos hsame]
      refine ⟨Path.refl, ⟨hwf, rfl, rfl, rfl, rfl⟩, .inr ⟨e.term, ?_, hleader⟩⟩
      rw [← hidx, hterm, hsame]
    rw [if_neg hsame]
    by_cases hcommit : e.index ≤ s.node.commitIndex
    · rw [if_pos hcommit]
      exact ⟨rfl, rfl⟩
    rw [if_neg hcommit]
    have he : e.index = (s.cut (e.index - 1)).node.snapshotIndex + (s.cut (e.index - 1)).node.log.length + 1 := by
      simp [NodeState.cut, NodeState.emit, NodeState.update]
      omega
    refine ⟨?_, ⟨(hwf.cut (by omega) (by omega)).push he, rfl, rfl, rfl, rfl⟩, .inr ⟨e.term, ?_, hleader⟩⟩
    · rw [← NodeState.refreshed_cut hrole, NodeState.refreshed_eq hrole]
      exact (takeOver (s := s.withMembership s.node.effective) env henv hrole hmsg hlink hlo
        hidx hterm hsame (by show s.node.commitIndex < _; omega)).path
    · rw [← hidx]
      exact termAt_push he

theorem takeEntries_run (henv : w.soup env) {entries : List Entry} (hcont : Contiguous prev entries)
    (rest : List Entry) (hsplit : entries = a ++ rest) (hwf : Wf s)
    (hrole : s.node.role = .follower)
    (hmsg : env.msg = .appendEntries s.node.hard.term prev prevTerm entries lc rs)
    (hlo : s.node.snapshotIndex ≤ prev + a.length)
    (hlink : Linked s.node prev prevTerm entries (prev + a.length)) :
    match rest.forM takeEntry s with
    | .ok _ s' => Path w s.refreshed s'.refreshed ∧ Taking s s' ∧
        Linked s'.node prev prevTerm entries (prev + entries.length)
    | .error err s' => err.refusal = false ∧ Path w s.refreshed s'.refreshed := by
  induction rest generalizing s a with
  | nil =>
    rw [List.append_nil] at hsplit
    subst hsplit
    exact ⟨Path.refl, ⟨hwf, rfl, rfl, rfl, rfl⟩, hlink⟩
  | cons e rest ih =>
    subst hsplit
    have hidx : e.index = prev + a.length + 1 := hcont a.length e (by simp)
    have hstep := takeEntry_step henv hwf hrole hmsg hidx hlo hlink
    rw [show (e :: rest).forM takeEntry = (takeEntry e >>= fun _ => rest.forM takeEntry) from rfl]
    cases hx : takeEntry e s with
    | error err t =>
      rw [hx] at hstep
      rw [bind_error hx]
      obtain ⟨herr, rfl⟩ := hstep
      exact ⟨herr, Path.refl⟩
    | ok _ t =>
      rw [hx] at hstep
      obtain ⟨hp, ht, hlink'⟩ := hstep
      rw [bind_ok hx]
      have hlen : (a ++ [e]).length = a.length + 1 := by simp
      have hrest := ih (a := a ++ [e]) (s := t) (by simp) ht.wf (ht.role.trans hrole)
        (by rw [ht.hard]; exact hmsg) (by rw [ht.snapshot, hlen]; omega)
        (by rw [hlen]; exact hlink')
      cases hy : rest.forM takeEntry t with
      | error err u =>
        rw [hy] at hrest
        exact ⟨hrest.1, hp.trans hrest.2⟩
      | ok _ u =>
        rw [hy] at hrest
        obtain ⟨hp', hu, hlink''⟩ := hrest
        exact ⟨hp.trans hp', ⟨hu.wf, hu.role.trans ht.role, hu.hard.trans ht.hard,
          hu.snapshot.trans ht.snapshot, hu.cfg.trans ht.cfg⟩, hlink''⟩

end Loop

/-- Applying committed entries does not lose the link to the leader's log. -/
theorem Settles.linked (h : Settles s s') {prev prevTerm i : Nat} {entries : List Entry}
    (hl : Linked s.node prev prevTerm entries i) : Linked s'.node prev prevTerm entries i := by
  rcases hl with hl | ⟨t, ht, hlead⟩
  · exact .inl (hl.trans h.snapshot)
  · by_cases hi : s'.node.snapshotIndex ≤ i
    · exact .inr ⟨t, (h.termAt i hi).trans ht, hlead⟩
    · exact .inl (by omega)

/-- A node that follows the leader of `term`, and what it answers to a message of that leader. -/
structure Accepted (s' : NodeState) (term prev prevTerm : Nat) (entries : List Entry)
    (r : Bool × Nat) : Prop where
  role : s'.node.role = .follower
  term : s'.node.hard.term = term
  linked : r.1 = true → Linked s'.node prev prevTerm entries r.2

section Append

variable {env : Envelope} {prev prevTerm lc rs : Nat} {entries : List Entry}

theorem runs_takeEntries (henv : w.soup env) (hcont : Contiguous prev entries) {a b : List Entry}
    (hsplit : entries = a ++ b) (hrole : s.node.role = .follower)
    (hmsg : env.msg = .appendEntries s.node.hard.term prev prevTerm entries lc rs)
    {prevIndex t : Nat} (hprev : prevIndex = prev + a.length)
    (hlink : s.node.termAt prevIndex = some t → Linked s.node prev prevTerm entries (prev + a.length)) :
    Runs w (takeEntries prevIndex t b lc) s
      (fun r s' => Accepted s' s.node.hard.term prev prevTerm entries r) E := by
  refine .of_wf fun hwf => ?_
  refine .bind (.node ?_)
  split
  · exact .pure ⟨hrole, rfl, by simp⟩
  rename_i t' hterm
  split
  · exact .pure ⟨hrole, rfl, by simp⟩
  rename_i hsame
  obtain rfl := not_not.mp hsame
  have hrun := takeEntries_run henv hcont b hsplit hwf hrole hmsg
    (by have := (termAt_bounds hterm).1; omega) (hlink hterm)
  have hstart : Path w s s.refreshed := refresh.path
  cases hx : b.forM takeEntry s with
  | error err u =>
    rw [hx] at hrun
    intro _
    rw [bind_error hx]
    exact ⟨u.refreshed, hstart.trans hrun.2, rfl, rfl, fun h => by simp [hrun.1] at h⟩
  | ok _ u =>
    rw [hx] at hrun
    obtain ⟨hp, hu, hlinked⟩ := hrun
    refine RunsInside.step hx (.step rfl (.done (hstart.trans hp) ?_))
    have hrole' := hu.role.trans hrole
    have hend : prevIndex + b.length = prev + entries.length := by
      rw [hprev, hsplit, List.length_append]
      omega
    rw [hend]
    show Runs w _ u.refreshed _ E
    rw [NodeState.refreshed_eq hrole']
    refine .bind (.node ?_)
    split
    · refine .bind (.modify (learn (s := u.withMembership u.node.effective) env henv hrole'
        (by show env.msg = .appendEntries u.node.hard.term _ _ _ _ _; rw [hu.hard]; exact hmsg)
        hlinked rfl).path ?_)
      refine .bind (runs_applyCommitted.mono fun _ v hv => .pure ?_)
      refine ⟨?_, ?_, fun _ => hv.linked (s := (u.withMembership u.node.effective).update _) hlinked⟩
      all_goals
        obtain ⟨_, _, _, _, _, hn⟩ := hv.node
        rw [hn]
      · exact hrole'
      · exact congrArg HardState.term hu.hard
    · exact .pure ⟨hrole', congrArg HardState.term hu.hard, fun _ => hlinked⟩

theorem runs_handleAppend (henv : w.soup env) (hcont : Contiguous prev entries) (hrole : s.node.role = .follower)
    (hmsg : env.msg = .appendEntries s.node.hard.term prev prevTerm entries lc rs) :
    Runs w (handleAppend prev prevTerm entries lc) s
      (fun r s' => Accepted s' s.node.hard.term prev prevTerm entries r) E := by
  refine .bind (.node ?_)
  split
  · dsimp only
    split
    · exact .pure ⟨hrole, rfl, fun _ => .inl le_rfl⟩
    · have hlen : prev + (entries.take (s.node.snapshotIndex - prev)).length = s.node.snapshotIndex := by
        rw [List.length_take]
        omega
      exact runs_takeEntries henv hcont (List.take_append_drop _ entries).symm hrole hmsg hlen.symm
        fun _ => .inl hlen.le
  · refine runs_takeEntries henv hcont (List.nil_append entries).symm hrole hmsg rfl fun ht => ?_
    refine .inr ⟨prevTerm, ht, ?_⟩
    simp [leaderTerm]

end Append

/-! ### Snapshots -/

theorem NodeState.adopt_role (s : NodeState) (c : MemCatalog) : (s.adopt c).node.role = s.node.role := by
  refine (refreshMembership_role _).trans ?_
  show ((s.swapStore c).trimLog c).node.role = _
  unfold NodeState.trimLog
  split <;> rfl

theorem runs_installStaged {inc : Incoming MemTable} {env : Envelope} {seq : Nat} (henv : w.soup env)
    (hmsg : env.msg = .installSnapshot s.node.hard.term inc.index seq .done)
    (hrole : s.node.role = .follower) (hinc : s.node.incoming = some inc)
    (hseq : seq = inc.seq + 1) (hnew : s.node.commitIndex < inc.index)
    {Q : Unit → NodeState → Prop} (h : Q () (s.adopt inc.catalog)) :
    Runs w (do
      modifyNode fun n => { n with incoming := none }
      installStaged inc) s Q E := by
  refine .ok ?_ (install env inc henv hmsg hrole hinc hseq hnew).path h
  unfold installStaged adoptSnapshot NodeState.adopt NodeState.rebase NodeState.trimLog
  rw [bind_ok (rfl : modifyNode _ s = .ok () (s.update _)), bind_ok
    (rfl : modifyNode _ _ = .ok () _), bind_ok (rfl : perform _ _ = .ok () _),
    bind_ok (rfl : modifyNode _ _ = .ok () (s.swapStore inc.catalog)),
    bind_ok (rfl : node _ = .ok _ _)]
  split
  · rfl
  · -- the floor raised to is where the emptied log starts
    have hfloor : walRaiseFloor inc.catalog.appliedIndex
        (((s.swapStore inc.catalog).emit .walClear).update fun n => { n with
          log := [], wal := ⟨inc.catalog.appliedIndex, inc.catalog.appliedIndex⟩ }) =
        .ok () (((s.swapStore inc.catalog).emit .walClear).update fun n => { n with
          log := [], wal := ⟨inc.catalog.appliedIndex, inc.catalog.appliedIndex⟩ }) := by
      show EStateM.Result.ok () (((s.swapStore inc.catalog).emit .walClear).update fun n => { n with
        log := [], wal := ⟨max inc.catalog.appliedIndex inc.catalog.appliedIndex,
          max inc.catalog.appliedIndex inc.catalog.appliedIndex⟩ }) = _
      rw [max_self]
    rw [bind_ok (rfl : modifyNode _ _ = .ok () _), bind_ok (rfl : walReset _ _ = .ok () _)]
    exact (bind_ok hfloor).trans rfl

theorem runs_handleSnapshotChunk {env : Envelope} {index seq : Nat} {chunk : Chunk} (henv : w.soup env)
    (hmsg : env.msg = .installSnapshot s.node.hard.term index seq chunk)
    (hrole : s.node.role = .follower) :
    Runs w (handleSnapshotChunk index seq chunk) s (fun _ s' => s'.node.role = .follower) E := by
  refine .bind (.node ?_)
  split
  · exact .bind (.modify unstage.path (.pure hrole))
  split
  · split
    · exact .bind (.modify unstage.path (.pure hrole))
    · rename_i c hseq
      exact .bind (.modify (stage env ⟨index, 0, c⟩ henv hmsg (.inl ⟨c, rfl, not_not.mp hseq, rfl⟩)).path (.pure hrole))
  · split
    · exact .pure hrole
    rename_i inc hinc
    obtain ⟨hstaged, hidx⟩ := Option.filter_eq_some_iff.mp hinc
    have hidx : inc.index = index := by simpa using hidx
    split
    · exact .pure hrole
    split
    · exact .pure hrole
    rename_i hseq
    have hseq := not_not.mp hseq
    split
    · rename_i hdone
      subst hdone
      subst hidx
      rw [← bind_assoc]
      refine .bind (runs_installStaged henv hmsg hrole hstaged hseq (by omega)
        (.pure ((NodeState.adopt_role s _).trans hrole)))
    · split
      · exact .throw (by simp [RaftError.refusal])
      · rename_i c hc
        exact .bind (.modify (stage env ⟨index, seq, c⟩ henv hmsg
          (.inr ⟨inc, c, hstaged, hidx, hseq, hc, rfl⟩)).path (.pure hrole))

/-!
## Calls are sequences of actions

Every call of a node but `takeMessages`, which hands its messages over, takes actions only.
-/

variable {env : Envelope}

theorem Boundary.reply (h : Boundary s) (dest : NodeId) (epoch : Nat) (msg : Message) :
    Boundary (s.update (·.reply dest epoch msg)) := h.of_eq rfl rfl rfl id

theorem runs_reply {dest : NodeId} {epoch : Nat} {f : RaftNode → Message} (hb : Boundary s)
    (h : s.node.Sends dest epoch (f s.node)) :
    Runs w (modifyNode fun n => n.reply dest epoch (f n)) s (fun _ s' => Boundary s') E :=
  .modify (send dest epoch (f s.node) h).path (hb.reply dest epoch (f s.node))

/-! ### Votes -/

/-- Messages only the leader of their term sends. -/
def Message.ofLeader : Message → Bool
  | .appendEntries .. | .installSnapshot .. => true
  | _ => false

theorem runs_observeTerm (hb : Boundary s) : Runs w (observeTerm env) s (fun ok s' => Boundary s' ∧
      (ok = true → env.msg.ofLeader = true → env.msg.term ≤ s'.node.hard.term)) E := by
  have hfollow : ∀ {term leader}, s.node.hard.term < term → Runs w (do
      becomeFollower term leader
      return true) s (fun ok s' => Boundary s' ∧ (ok = true → term ≤ s'.node.hard.term)) E := by
    intro term leader hlt
    have hf := followed_synced s term leader
    exact .bind (runs_becomeFollower hlt.le (.pure ⟨.of_ne (by simp [hf.role]),
      fun _ => by rw [hf.term]; exact le_max_right _ _⟩))
  refine .bind (.node ?_)
  have hother : ∀ {term : Nat} {leader msg}, Message.ofLeader msg = false → Runs w (do
      if s.node.hard.term < term then becomeFollower term leader
      return true) s (fun ok s' => Boundary s' ∧
        (ok = true → msg.ofLeader = true → msg.term ≤ s'.node.hard.term)) E := by
    intro term leader msg hmsg
    split
    · rename_i hlt
      exact (hfollow hlt).mono fun _ _ h => ⟨h.1, fun _ h' => by simp [hmsg] at h'⟩
    · exact .pure ⟨hb, fun _ h' => by simp [hmsg] at h'⟩
  have hleader : ∀ {term : Nat} {leader}, Runs w (do
      if s.node.hard.term < term then becomeFollower term leader
      return true) s (fun ok s' => Boundary s' ∧ (ok = true → term ≤ s'.node.hard.term)) E := by
    intro term leader
    dsimp only
    split
    · rename_i hlt
      exact hfollow hlt
    · exact .pure ⟨hb, fun _ => by omega⟩
  cases env.msg with
  | preVote term li lt => exact .pure ⟨hb, fun _ h => by simp [Message.ofLeader] at h⟩
  | preVoteResponse term granted =>
    cases granted with
    | true => exact .pure ⟨hb, fun _ h => by simp [Message.ofLeader] at h⟩
    | false => exact hother rfl
  | requestVote term li lt =>
    dsimp only
    split
    · rename_i hlt
      split
      · exact .pure ⟨hb, by simp⟩
      · exact (hfollow hlt).mono fun _ _ h => ⟨h.1, fun _ h' => by simp [Message.ofLeader] at h'⟩
    · exact .pure ⟨hb, fun _ h => by simp [Message.ofLeader] at h⟩
  | appendEntries | installSnapshot =>
    exact hleader.mono fun _ _ h => ⟨h.1, fun hok _ => h.2 hok⟩
  | _ => exact hother rfl

theorem runs_stepPreVote (hb : Boundary s) (term li lt : Nat) :
    Runs w (stepPreVote env term li lt) s (fun _ s' => Boundary s') E :=
  runs_reply hb (.preVoteResponse _ _ _ _)

theorem runs_stepPreVoteResponse (hb : Boundary s) (term : Nat) (granted : Bool) :
    Whole w (stepPreVoteResponse env term granted) s := by
  refine .bind (.node ?_)
  split
  · rename_i h
    refine .bind (.modify (prepare (s.node.votes.insert env.sender) _ (by simp [h.1]) ?_).path (.bind (.node ?_)))
    · simp [core, h.1]
    · split
      · exact runs_campaign h.1
      · exact .pure (hb.of_eq rfl rfl rfl id)
  · exact .pure hb

section

variable (hb : Boundary s) (henv : w.soup env) (hdest : env.dest = s.node.cfg.id)
include hb henv hdest

theorem runs_stepRequestVote {li lt term : Nat} (hmsg : env.msg = .requestVote term li lt) :
    Runs w (stepRequestVote env term li lt) s (fun _ s' => Boundary s') E := by
  refine .bind (.node ?_)
  dsimp only
  split
  · rename_i hg
    have hg' := hg
    simp only [Bool.and_eq_true, decide_eq_true_eq] at hg'
    obtain ⟨⟨rfl, hfree⟩, hlog⟩ := hg'
    rw [hg]
    refine RunsInside.step rfl (.step rfl (.step rfl (.ok rfl (vote env henv hdest hmsg hfree hlog).path ?_)))
    exact hb.of_eq rfl rfl rfl id
  · rename_i hg
    rw [Bool.not_eq_true] at hg
    rw [hg]
    exact runs_reply hb (.voteRefused _ _ _)

theorem runs_stepRequestVoteResponse {term : Nat} {granted : Bool}
    (hmsg : env.msg = .requestVoteResponse term granted) :
    Whole w (stepRequestVoteResponse env term granted) s := by
  refine .bind (.node ?_)
  split
  · rename_i h
    obtain ⟨hrole, rfl, rfl⟩ := h
    refine .bind (.modify (ballot env hrole henv hdest hmsg).path (.bind (.node ?_)))
    split
    · rename_i hq
      exact runs_becomeLeader hrole hq
    · exact .pure (hb.of_eq rfl rfl rfl id)
  · exact .pure hb

/-! ### Following a leader -/

omit hb henv hdest in
theorem runs_followLeader {term : Nat} {leader : NodeId} (hterm : s.node.hard.term = term) :
    Runs w (followLeader term leader) s (fun _ s' => s'.node.role = .follower ∧ s'.node.hard.term = term) E := by
  refine .bind (.node ?_)
  split
  · have hf := followed_synced s term (some leader)
    refine .bind (runs_becomeFollower hterm.le (.quiet rfl ⟨hf.role, ?_⟩))
    exact hf.term.trans (by omega)
  · rename_i hrole
    exact .quiet rfl ⟨not_not.mp hrole, hterm⟩

theorem runs_stepAppendEntries {term pi pt lc rs : Nat} {entries : List Entry}
    (hmsg : env.msg = .appendEntries term pi pt entries lc rs) (hcont : Contiguous pi entries)
    (hterm : term ≤ s.node.hard.term) :
    Runs w (stepAppendEntries env term pi pt entries lc rs) s (fun _ s' => Boundary s') E := by
  refine .bind (.node ?_)
  split
  · refine .modify (answer env _ henv hdest ?_).path (hb.reply _ _ _)
    rw [hmsg]
    exact .refuse 0 hterm
  · obtain rfl : s.node.hard.term = term := by omega
    refine .bind ((runs_followLeader rfl).id_eq.mono ?_)
    rintro _ t ⟨hid, hrole, htt⟩
    rw [← htt] at hmsg
    refine .bind ((runs_handleAppend henv hcont hrole hmsg).id_eq.mono ?_)
    rintro ⟨ok, m⟩ u ⟨hid', hu⟩
    refine .modify (answer env _ henv (by rw [hid', hid]; exact hdest) ?_).path
      (.of_ne (by show u.node.role ≠ _; simp [hu.role]))
    rw [hmsg, ← hu.term]
    cases ok with
    | true => exact .accept m hu.role (hu.linked rfl)
    | false => exact .refuse m le_rfl

end

theorem runs_stepInstallSnapshot (hb : Boundary s) {term index seq : Nat} {chunk : Chunk}
    (henv : w.soup env) (hmsg : env.msg = .installSnapshot term index seq chunk)
    (hterm : term ≤ s.node.hard.term) :
    Runs w (stepInstallSnapshot env term index seq chunk) s (fun _ s' => Boundary s') E := by
  refine .bind (.node ?_)
  split
  · obtain rfl : s.node.hard.term = term := by omega
    refine .bind ((runs_followLeader rfl).mono ?_)
    rintro _ t ⟨hrole, htt⟩
    rw [← htt] at hmsg
    refine .bind ((runs_handleSnapshotChunk henv hmsg hrole).mono fun ack u hu => ?_)
    exact runs_reply (.of_ne (by simp [hu])) (.snapshotResponse _ _ _)
  · exact .bind (.pure (runs_reply hb (.snapshotResponse _ _ _)))

/-! ### Answers to the leader -/

/-- Two nodes that differ in their read barriers and what they have sent. -/
structure Barred (s s' : NodeState) : Prop where
  boundary : Boundary s → Boundary s'
  leads : Leads s → Leads s'
  role : s'.node.role = s.node.role
  term : s'.node.hard.term = s.node.hard.term
  lastIndex : s'.node.lastIndex = s.node.lastIndex

theorem barred_confirmReads (sender : Option NodeId) (seq : Nat) : Barred s (s.update (·.confirmReads sender seq)) := by
  obtain ⟨_, _, _, h, -⟩ := s.node.confirmReads_eq sender seq
  show Barred s { s with node := s.node.confirmReads sender seq }
  rw [h]
  exact ⟨fun h => h.of_eq rfl rfl rfl id, id, rfl, rfl, rfl⟩

theorem NodeState.synced_leads (h : Leads s) : Leads s.synced := by
  obtain ⟨w, hw⟩ := s.synced_node
  unfold Leads
  rw [hw]
  exact h

theorem runs_sendMore (h : Leads s ∧ Boundary s) (next : Nat) (peer : NodeId) :
    Runs w (do if next ≤ (← node).lastIndex then modifyNode fun n => n.sendAppend peer)
      s (fun _ s' => Boundary s') E := by
  refine .bind (.node ?_)
  split
  · exact runs_sendAppend h.1 peer fun hsent => h.2.sent hsent
  · exact .pure h.2

theorem runs_acknowledged {m : Nat} (rs : Nat) (hrole : s.node.role = .leader) (henv : w.soup env)
    (hdest : env.dest = s.node.cfg.id)
    (hmsg : env.msg = .appendEntriesResponse s.node.hard.term true m rs) :
    Whole w (RaftM.acknowledged env.sender m) s := by
  refine .of_wf fun hwf => .bind (.node ?_)
  refine .bind (.modify (matched env hrole henv hdest (m := m) (by rw [hmsg]; exact .ack m rs)
    rfl _ rfl).path (.bind (runs_walSync ?_)))
  have hled : Leads s := hwf.led hrole
  exact .bind ((runs_advanceCommit (NodeState.synced_leads (by exact hled))).mono fun _ t ht => runs_sendMore ht _ _)

theorem runs_stepBack (hled : Leads s) (hb : Boundary s) (peer : NodeId) (m : Nat) :
    Runs w (stepBack peer m) s (fun _ s' => Boundary s') E := by
  let t := s.update fun n => { n with
    nextIndex := n.nextIndex.insert peer (max (min ((n.nextIndex[peer]?).getD 1 - 1) (m + 1)) 1) }
  have hquiet : Action w s t := .quiet _ rfl
  obtain ⟨hp, hsent⟩ := path_sendAppend w (s := t) hled peer
  have hb' : Boundary t := hb.of_eq rfl rfl rfl id
  have hb'' : Boundary (t.update (·.sendAppend peer)) := hb'.sent hsent
  exact .modify (hquiet.path.trans hp) hb''

section

variable (hb : Boundary s) (henv : w.soup env) (hdest : env.dest = s.node.cfg.id)
include hb henv hdest

theorem runs_stepAppendEntriesResponse {term m rs : Nat} {success : Bool}
    (hmsg : env.msg = .appendEntriesResponse term success m rs) :
    Whole w (stepAppendEntriesResponse env term success m rs) s := by
  refine .of_wf fun hwf => ?_
  refine .bind (.node ?_)
  split
  · exact .pure hb
  rename_i hgo
  simp only [not_or, not_not] at hgo
  obtain ⟨hrole, rfl, -⟩ := hgo
  have hrest : ∀ t : NodeState, t.node.role = .leader → Leads t → Boundary t →
      t.node.cfg.id = s.node.cfg.id → t.node.hard.term = s.node.hard.term → Runs w
        (if success then RaftM.acknowledged env.sender m else stepBack env.sender m) t
        (fun _ s' => Boundary s') Boundary := by
    intro t hrole hled hb hid hterm
    split
    · rename_i hs
      refine runs_acknowledged rs hrole henv (hdest.trans hid.symm) ?_
      rw [hterm, hmsg, hs]
    · exact runs_stepBack hled hb _ _
  refine .bind (.quiet rfl ?_)
  dsimp only
  have hled : Leads (s.update fun n => { n with recentActive := n.recentActive.insert env.sender }) := hwf.led hrole
  have hb' : Boundary (s.update fun n => { n with
    recentActive := n.recentActive.insert env.sender }) := hb.of_eq rfl rfl rfl id
  split
  · rename_i hrs
    have hconfirm := @confirm w (s.update fun n => { n with recentActive := n.recentActive.insert env.sender })
      (some env.sender) rs hrole (.inr ⟨env, success, m, henv, hdest, rfl, hrs, hmsg⟩)
    have hbar := barred_confirmReads
      (s := s.update fun n => { n with recentActive := n.recentActive.insert env.sender })
      (some env.sender) rs
    exact .bind (.modify hconfirm.path (hrest _ (hbar.role.trans hrole) (hbar.leads hled)
      (hbar.boundary hb') hconfirm.path.id_eq hbar.term))
  · exact hrest _ hrole hled hb' rfl rfl

omit hb henv hdest in
theorem runs_continueTransfer {peer : NodeId} {o : Outgoing MemTable MemEntries} (hb : Boundary s)
    (ho : s.node.outgoing[peer]? = some o) (ack : Option Nat) :
    Runs w (continueTransfer peer o ack) s (fun _ s' => Boundary s') E := by
  have hsend : ∀ o' : Outgoing MemTable MemEntries, s.node.NextChunk peer o' →
      Runs w (modifyNode fun n => n.sendChunk peer o') s (fun _ s' => Boundary s') E :=
    fun o' h => .modify (transfer peer o' h).path (hb.of_eq rfl rfl rfl id)
  unfold continueTransfer
  split
  · split
    · refine .bind (.node ?_)
      split
      · exact .throw (by simp [RaftError.refusal])
      · rename_i o' _ hadv
        exact hsend o' (.next s.node.ticks ho hadv)
    · exact .pure hb
  · exact hsend _ .start

omit hb henv hdest in
theorem runs_endTransfer {m : Nat} {ack : Option Nat} (hrole : s.node.role = .leader)
    (henv : w.soup env) (hdest : env.dest = s.node.cfg.id)
    (hmsg : env.msg = .installSnapshotResponse s.node.hard.term m ack) :
    Whole w (endTransfer env.sender m) s := by
  refine .of_wf fun hwf => .bind (.node ?_)
  have hend : Action w s (s.update fun n => { n with
    outgoing := n.outgoing.erase env.sender }) := .endTransfer env.sender
  have hmatched := @matched w (s.update fun n => { n with
    outgoing := n.outgoing.erase env.sender }) env (min m s.node.lastIndex) _ hrole henv hdest
    (by rw [hmsg]; exact .installed m ack) rfl
    (fun n => { n with
      matchIndex := n.matchIndex.insert env.sender
        (max ((s.node.matchIndex[env.sender]?).getD 0) (min m s.node.lastIndex))
      nextIndex := n.nextIndex.insert env.sender
        (max ((s.node.matchIndex[env.sender]?).getD 0) (min m s.node.lastIndex) + 1) }) rfl
  have hled : Leads s := hwf.led hrole
  refine .bind (.modify (hend.path.trans hmatched.path) ?_)
  exact .bind ((runs_advanceCommit (by exact hled)).mono fun _ t ht => runs_sendMore ht _ _)

theorem runs_stepInstallSnapshotResponse {term m : Nat} {ack : Option Nat}
    (hmsg : env.msg = .installSnapshotResponse term m ack) :
    Whole w (stepInstallSnapshotResponse env term m ack) s := by
  refine .bind (.node ?_)
  split
  · exact .pure hb
  rename_i hgo
  simp only [not_or, not_not] at hgo
  obtain ⟨hrole, rfl, -⟩ := hgo
  refine .bind (.quiet rfl ?_)
  split
  · rename_i o ho
    refine runs_continueTransfer ?_ ?_ ack
    · exact hb.of_eq rfl rfl rfl id
    · exact (Option.filter_eq_some_iff.mp ho).1
  · exact runs_endTransfer hrole henv hdest hmsg

/-! ### Read barriers -/

omit hb henv hdest in
theorem path_registerRead {sender : Option NodeId} {id epoch : Nat} {n : RaftNode} (hwf : Wf s)
    (hb : Boundary s) (hrole : s.node.role = .leader) (hasked : s.node.Asked w.soup sender id epoch)
    (h : s.node.registerRead sender id epoch = some n) :
    Path w s { s with node := n } ∧ Boundary { s with node := n } := by
  unfold registerRead at h
  split at h
  · simp at h
  rename_i hterm
  let t := s.update fun n => { n with
    readSeq := n.readSeq + 1
    pendingReads := n.pendingReads ++ [⟨n.readSeq + 1, n.commitIndex, sender, id, {n.cfg.id}, epoch⟩] }
  have hreg : Action w s t := .register sender id epoch hrole (not_not.mp hterm) hasked
  have hbar := barred_confirmReads (s := t) none 0
  have hconfirm : Action w t (t.update (·.confirmReads none 0)) := .confirm none 0 hrole (.inl rfl)
  have hp := hreg.path.trans hconfirm.path
  have hb' := hbar.boundary (hb.of_eq rfl rfl rfl fun h => h)
  obtain rfl := Option.some.inj h
  split
  · exact ⟨hp, hb'⟩
  · obtain ⟨hsend, hsent⟩ := path_broadcastAppend w (hbar.leads (hwf.led hrole))
    exact ⟨hp.trans hsend, hb'.sent hsent⟩

theorem runs_stepReadIndex {term id : Nat} (hmsg : env.msg = .readIndex term id) :
    Runs w (stepReadIndex env term id) s (fun _ s' => Boundary s') E := by
  refine .of_wf fun hwf => ?_
  have hrefuse : Path w s (s.update (·.reply env.sender env.epoch (.readIndexResponse s.node.hard.term id none))) :=
    (send _ _ _ (.readRefused _ _ _)).path
  have hstate : stepReadIndex env term id s = .ok () (s.update fun _ =>
      (if term ≠ s.node.hard.term ∨ s.node.role ≠ .leader then none
        else s.node.registerRead (some env.sender) id env.epoch).getD
      (s.node.reply env.sender env.epoch (.readIndexResponse s.node.hard.term id none))) := rfl
  split at hstate
  · exact .ok hstate hrefuse (hb.reply _ _ _)
  · rename_i hgo
    simp only [not_or, not_not] at hgo
    obtain ⟨rfl, hrole⟩ := hgo
    cases hr : s.node.registerRead (some env.sender) id env.epoch with
    | none =>
      rw [hr] at hstate
      exact .ok hstate hrefuse (hb.reply _ _ _)
    | some n =>
      rw [hr] at hstate
      obtain ⟨hp, hb'⟩ := path_registerRead hwf hb hrole (.other env id henv hdest hmsg) hr
      exact .ok hstate hp hb'

theorem runs_stepReadIndexResponse {term id : Nat} {index : Option Nat}
    (hmsg : env.msg = .readIndexResponse term id index) :
    Runs w (stepReadIndexResponse id index) s (fun _ s' => Boundary s') E := by
  have hstate : stepReadIndexResponse id index s = .ok () { s with node :=
      if s.node.role = .leader then s.node
      else { s.node with readResults := s.node.readResults.insert id index } } := rfl
  split at hstate
  · exact .ok hstate Path.refl hb
  · exact .ok hstate (result env term id index henv hdest hmsg).path (hb.of_eq rfl rfl rfl fun h => h)

theorem runs_step (hcont : ∀ term pi pt entries lc rs, env.msg = .appendEntries term pi pt entries lc rs →
      Contiguous pi entries) : Whole w (step env) s := by
  refine .bind ((runs_observeTerm hb).id_eq.mono ?_)
  rintro ok t ⟨hid, hb, hterm⟩
  split
  swap
  · exact .pure hb
  rename_i hok
  have hdest : env.dest = t.node.cfg.id := hdest.trans hid.symm
  cases hmsg : env.msg with
  | preVote term li lt => exact runs_stepPreVote hb _ _ _
  | preVoteResponse term granted => exact runs_stepPreVoteResponse hb _ _
  | requestVote term li lt => exact runs_stepRequestVote hb henv hdest hmsg
  | requestVoteResponse term granted => exact runs_stepRequestVoteResponse hb henv hdest hmsg
  | appendEntries term pi pt entries lc rs =>
    rw [hmsg] at hterm
    exact runs_stepAppendEntries hb henv hdest hmsg (hcont _ _ _ _ _ _ hmsg) (hterm hok rfl)
  | appendEntriesResponse term success m rs =>
    exact runs_stepAppendEntriesResponse hb henv hdest hmsg
  | installSnapshot term index seq chunk =>
    rw [hmsg] at hterm
    exact runs_stepInstallSnapshot hb henv hmsg (hterm hok rfl)
  | installSnapshotResponse term m ack =>
    exact runs_stepInstallSnapshotResponse hb henv hdest hmsg
  | readIndex term id => exact runs_stepReadIndex hb henv hdest hmsg
  | readIndexResponse term id index => exact runs_stepReadIndexResponse hb henv hdest hmsg

end

/-! ### Time -/

theorem runs_checkQuorum (hl : Leads s) (hb : Boundary s) : Runs w checkQuorum s
    (fun down s' => Boundary s' ∧ (down = false → Leads s')) E := by
  refine .bind (.quiet rfl (.bind (.node ?_)))
  split
  · exact .pure ⟨hb.of_eq rfl rfl rfl id, fun _ => hl⟩
  · refine .bind (.quiet rfl ?_)
    split
    · exact .pure ⟨hb.of_eq rfl rfl rfl id, fun _ => hl⟩
    · refine .bind (runs_becomeFollower le_rfl (.pure ⟨.of_ne ?_, by simp⟩))
      rw [(followed_synced _ _ _).role]
      simp

section

variable (hb : Boundary s)
include hb

theorem runs_tickLeader (hrole : s.node.role = .leader) : Whole w tickLeader s := by
  have hrest : ∀ t : NodeState, Leads t → Boundary t → Runs w (do
      if ← checkQuorum then return
      modifyNode fun n => { n with heartbeatElapsed := n.heartbeatElapsed + 1 }
      let n ← node
      if n.cfg.heartbeatTicks ≤ n.heartbeatElapsed then
        modifyNode fun n => { n with heartbeatElapsed := 0 }.broadcastAppend) t
      (fun _ s' => Boundary s') Boundary := by
    intro t hl hb
    refine .bind ((runs_checkQuorum hl hb).mono ?_)
    rintro down u ⟨hb, hl⟩
    split
    · exact .pure hb
    · rename_i hdown
      have hl := hl (Bool.not_eq_true _ ▸ hdown)
      refine .bind (.quiet rfl (.bind (.node ?_)))
      split
      · refine .of_wf fun hwf => ?_
        let v := u.update fun n => { n with heartbeatElapsed := 0 }
        have hquiet : Action w (u.update fun n => { n with
          heartbeatElapsed := n.heartbeatElapsed + 1 }) v :=
          .quiet (fun n => { n with heartbeatElapsed := 0 }) rfl
        obtain ⟨hp, hsent⟩ := path_broadcastAppend w (s := v) hl
        have hb' : Boundary v := hb.of_eq rfl rfl rfl id
        have hb'' : Boundary (v.update broadcastAppend) := hb'.sent hsent
        exact .modify (hquiet.path.trans hp) hb''
      · exact .pure (hb.of_eq rfl rfl rfl id)
  refine .of_wf fun hwf => ?_
  refine .bind (.node ?_)
  split
  · refine .bind (runs_walSync (.bind ((runs_advanceCommit
      (NodeState.synced_leads (hwf.led hrole))).mono fun _ t ht => hrest t ht.1 ht.2)))
  · exact hrest s (hwf.led hrole) hb

theorem runs_tick : Whole w tick s := by
  refine .bind (.quiet rfl (.bind (.node ?_)))
  split
  · rename_i hrole
    exact runs_tickLeader (hb.of_eq rfl rfl rfl id) hrole
  · rename_i hrole
    refine .bind (.quiet rfl (.bind (.node ?_)))
    split
    · exact runs_preCampaign hrole
    · exact .pure (.of_ne hrole)

/-! ### Calls -/

theorem runs_appended {command : MetaCommand} (hrole : s.node.role = .leader)
    (hcfg : ∀ m a, command = .changeMembership m a → s.node.MayChange m) (hready : w.Ready s command) :
    Whole w (do
      let index ← appendValidated command
      modifyNode broadcastAppend
      advanceCommit
      return index) s := by
  refine .of_wf fun hwf => ?_
  refine .bind ((runs_appendValidated hrole hcfg hready fun spec => hb.of_eq rfl rfl rfl id).mono ?_)
  rintro index _ ⟨spec, rfl⟩
  have hled : Leads ((s.withSpec spec).create command) := by
    obtain ⟨_, _, hnode, -⟩ := (s.withSpec spec).create_node command
    unfold Leads
    rw [hnode]
    exact hwf.led hrole
  refine .bind (runs_broadcastAppend hled fun hsent => ?_)
  exact .bind ((runs_advanceCommit (hled.sent hsent)).mono fun _ _ h => .pure h.2)

theorem runs_propose {command : MetaCommand} (hready : s.node.role = .leader → w.Ready s command) :
    Whole w (propose command) s := by
  refine .bind (.node ?_)
  by_cases hrole : s.node.role = .leader
  swap
  · rw [if_pos hrole]
    exact .bind (.throw fun _ => hb)
  rw [if_neg (not_not.mpr hrole)]
  split
  · exact .bind (.throw fun _ => hb)
  · rename_i hcmd
    exact runs_appended hb hrole (fun m a h => absurd h (hcmd m a)) (hready hrole)

theorem runs_changeMembership (voters : BTreeSet NodeId) (addrs : BTreeMap NodeId String) :
    Whole w (changeMembership voters addrs) s := by
  refine .bind (.node ?_)
  by_cases hrole : s.node.role = .leader
  swap
  · rw [if_pos hrole]
    exact .bind (.throw fun _ => hb)
  rw [if_neg (not_not.mpr hrole)]
  by_cases hempty : voters.isEmpty = true
  · rw [if_pos hempty]
    exact .bind (.throw fun _ => hb)
  rw [if_neg hempty]
  dsimp only
  split
  · exact .throw fun _ => hb
  rename_i old hm
  split
  · exact .bind (.throw fun _ => hb)
  rename_i hidle
  simp only [not_or, not_not, Bool.not_eq_true] at hidle
  split
  · exact .pure hb
  split
  · exact .throw fun _ => hb
  · refine runs_appended hb hrole ?_ (.changeMembership _ _)
    rintro m a ⟨⟩
    refine ⟨?_, hidle.2, hidle.1⟩
    rw [hm]
    exact .enter old voters fun h => hempty (by rw [h]; rfl)

theorem runs_readIndex : Whole w readIndex s := by
  refine .bind (.node (.bind (.modify newRead.path (.bind (.node ?_)))))
  let t := s.update fun n => { n with nextReadId := n.nextReadId + 1 }
  have hb' : Boundary t := hb.of_eq rfl rfl rfl id
  split
  · rename_i hrole
    split
    · exact .bind (.throw fun _ => hb')
    · rename_i n hr
      refine .of_wf fun hwf => ?_
      obtain ⟨hp, hb''⟩ := path_registerRead hwf hb' hrole (.own _ rfl) hr
      exact .bind (.modify hp (.pure hb''))
  · split
    · exact .bind (.throw fun _ => hb')
    · rename_i leader _
      refine .bind (.modify (send (s := t) leader s.node.epoch _
        (.readIndex _ s.node.nextReadId (Nat.lt_succ_self _))).path (.pure ?_))
      exact hb'.reply _ _ _

/-- Every call but `takeMessages`. -/
theorem runs_call {op : Op} (htake : op ≠ .takeMessages)
    (hop : ∀ env, op = .step env → w.soup env ∧ env.dest = s.node.cfg.id ∧
      ∀ term pi pt entries lc rs, env.msg = .appendEntries term pi pt entries lc rs →
        Contiguous pi entries)
    (hready : ∀ command, op = .propose command → s.node.role = .leader → w.Ready s command) :
    Whole w op.run s := by
  cases op with
  | tick => exact .bind ((runs_tick hb).mono fun _ _ h => .pure h)
  | step env =>
    obtain ⟨henv, hdest, hcont⟩ := hop env rfl
    exact .bind ((runs_step hb henv hdest hcont).mono fun _ _ h => .pure h)
  | propose command => exact .bind ((runs_propose hb (hready command rfl)).mono fun _ _ h => .pure h)
  | changeMembership voters addrs =>
    exact .bind ((runs_changeMembership hb voters addrs).mono fun _ _ h => .pure h)
  | takeMessages => exact absurd rfl htake
  | readIndex => exact .bind ((runs_readIndex hb).mono fun _ _ h => .pure h)
  | readResult id =>
    refine .bind (.bind (.node (.bind (.modify ?_ (.pure (.pure ?_))))))
    · have hforget := @forget w s id fun _ => true
      simp only [List.filter_true] at hforget
      exact hforget.path
    · exact hb.of_eq rfl rfl rfl fun h => h
  | forgetRead id =>
    exact .bind (.modify (forget id _).path (.pure (hb.of_eq rfl rfl rfl fun h => h)))

end

/-- `takeMessages` syncs the log of a node that does not lead and empties its outbox. -/
theorem takeMessages_eq (hwf : Wf s) : takeMessages s =
    let t := if s.node.role ≠ .leader then s.synced else s
    .ok t.node.outbox (t.update fun n => { n with outbox := [] }) := by
  unfold takeMessages
  rw [bind_ok (rfl : node s = .ok s.node s)]
  split
  · rw [bind_ok (walSync_eq hwf)]
    rfl
  · rfl

end AtlasNative
