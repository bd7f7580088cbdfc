import AtlasNative.Raft.Safety

/-!
# What a node tells others is on its disk

A follower queues the acknowledgement of entries it has written but not synced; the log is synced
before the outbox is handed over. A leader hands over its outbox without that, and may find in it
what it queued before it led: but then either it asked for votes since, and its log was synced when
that request left, or it leads alone, and its log was synced before it counted itself.

Terms and votes are persisted before anything is queued that depends on them.
-/

namespace AtlasNative

open Consensus RaftNode NodeState List Option RaftNode

variable {m₀ : Membership} {soup : Envelope → Prop} {H : History NodeId Entry} {σ : Cluster}
  {created : List (Entry × Nat)} {s s' : NodeState} {full sure : List Entry}

/-! ### Votes and acknowledgements in the outbox -/

/-- What a queued message says about the term and vote of the node that queued it. -/
def RaftNode.Stands (n : RaftNode) (env : Envelope) : Prop := match env.msg with
  | .requestVote t _ _ => t ≤ n.hard.term ∧ (t = n.hard.term → n.hard.votedFor = some n.cfg.id)
  | .requestVoteResponse t true =>
      t ≤ n.hard.term ∧ (t = n.hard.term → n.hard.votedFor = some env.dest)
  | .appendEntriesResponse t true _ _ =>
      t ≤ n.hard.term ∧ (n.role = .candidate ∨ n.role = .leader → t < n.hard.term)
  | _ => True

def Standing (s : NodeState) : Prop := ∀ env ∈ s.node.outbox, s.node.Stands env

/-- Messages that say nothing about terms and votes. -/
def Message.Plain : Message → Prop
  | .requestVote .. | .requestVoteResponse _ true | .appendEntriesResponse _ true .. => False
  | _ => True

theorem RaftNode.Stands.of_plain {n : RaftNode} {env : Envelope} (h : env.msg.Plain) : n.Stands env := by
  unfold Message.Plain at h
  unfold Stands
  split <;> simp_all

/-- Term and vote are the same, and the node has not begun to campaign or lead. -/
theorem RaftNode.Stands.of_eq {n n' : RaftNode} {env : Envelope} (h : n.Stands env)
    (hhard : n'.hard = n.hard) (hid : n'.cfg.id = n.cfg.id)
    (hrole : n'.role = .candidate ∨ n'.role = .leader → n.role = .candidate ∨ n.role = .leader) :
    n'.Stands env := by
  unfold Stands at h ⊢
  rw [hhard, hid]
  split <;> rename_i hmsg <;> simp only [hmsg] at h
  · exact h
  · exact h
  · exact ⟨h.1, fun hr => h.2 (hrole hr)⟩
  · trivial

theorem RaftNode.Stands.raise {n n' : RaftNode} {env : Envelope} (h : n.Stands env)
    (hterm : n.hard.term < n'.hard.term) : n'.Stands env := by
  unfold Stands at h ⊢
  split <;> rename_i hmsg <;> simp only [hmsg] at h
  · exact ⟨by omega, by omega⟩
  · exact ⟨by omega, by omega⟩
  · exact ⟨by omega, by omega⟩
  · trivial

section

variable (h : Standing s)
include h

theorem Standing.queue (out : List Envelope) (hout : s'.node.outbox = s.node.outbox ++ out)
    (hkeep : ∀ env, s.node.Stands env → s'.node.Stands env) (hnew : ∀ env ∈ out, s'.node.Stands env) :
    Standing s' := by
  intro env henv
  rw [hout] at henv
  rcases mem_append.mp henv with henv | henv
  · exact hkeep env (h env henv)
  · exact hnew env henv

theorem Standing.same (hout : s'.node.outbox = s.node.outbox) (hhard : s'.node.hard = s.node.hard)
    (hid : s'.node.cfg.id = s.node.cfg.id)
    (hrole : s'.node.role = .candidate ∨ s'.node.role = .leader →
      s.node.role = .candidate ∨ s.node.role = .leader) : Standing s' :=
  h.queue [] (by rw [hout, append_nil]) (fun _ he => he.of_eq hhard hid hrole) (by simp)

variable {dest : NodeId} {epoch : Nat} {msg : Message}

theorem Standing.reply (hmsg : s.node.Stands ⟨s.node.cfg.id, dest, msg, epoch⟩) :
    Standing (s.update (·.reply dest epoch msg)) := by
  refine h.queue _ rfl (fun _ he => he.of_eq rfl rfl id) ?_
  rintro env henv
  obtain rfl := mem_singleton.mp henv
  exact hmsg.of_eq rfl rfl id

theorem Standing.followed (term : Nat) (leader : Option NodeId) : Standing (s.followed term leader) := by
  obtain ⟨out, res, hnode, hout⟩ := s.followed_node term leader
  have hkeep : ∀ env, s.node.Stands env → (s.followed term leader).node.Stands env := by
    intro env he
    obtain ⟨hle, hraised⟩ := s.raisedHard_term term
    have hhard : (s.followed term leader).node.hard = s.raisedHard term := by rw [hnode]; rfl
    rcases hraised with heq | hlt
    · exact he.of_eq (hhard.trans heq) (by rw [hnode]; rfl) (by rw [hnode]; simp [resetElectionTimer])
    · exact he.raise (by rw [hhard]; exact hlt)
  refine h.queue out (by rw [hnode]; rfl) hkeep fun env henv => ?_
  obtain ⟨-, id, index, hmsg⟩ := hout env henv
  exact .of_plain (by rw [hmsg]; trivial)

theorem Standing.vote {env : Envelope} (hfree : s.node.hard.votedFor.all (· = env.sender) = true) :
    Standing (s.vote env) := by
  -- an earlier vote of this term was for the same node
  have hsame : ∀ y, s.node.hard.votedFor = some y → some env.sender = some y := by
    intro y hy
    rw [hy] at hfree
    have : y = env.sender := by simpa using hfree
    rw [this]
  refine h.queue [⟨s.node.cfg.id, env.sender, .requestVoteResponse s.node.hard.term true, env.epoch⟩] rfl ?_ ?_
  · intro e he
    unfold Stands at he ⊢
    split <;> rename_i hmsg <;> simp only [hmsg] at he
    · exact ⟨he.1, fun ht => hsame _ (he.2 ht)⟩
    · exact ⟨he.1, fun ht => hsame _ (he.2 ht)⟩
    · exact he
    · trivial
  · intro e he
    obtain rfl := mem_singleton.mp he
    exact ⟨le_rfl, fun _ => rfl⟩

theorem Standing.campaigning : Standing s.campaigning := by
  refine h.queue [] (append_nil _).symm (fun _ he => he.raise ?_) (by simp)
  exact Nat.lt_succ_self s.node.hard.term

theorem Standing.refreshed : Standing (s.update refreshMembership) := by
  obtain ⟨next, mtch, heq, -⟩ := s.node.refreshMembership_eq
  refine h.same ?_ ?_ ?_ ?_ <;> simp only [update, heq]
  exact id

theorem Standing.sends (hvote : s.node.role = .candidate → s.node.hard.votedFor = some s.node.cfg.id)
    (hsend : s.node.Sends dest epoch msg) : Standing (s.update (·.reply dest epoch msg)) := by
  refine h.reply ?_
  cases hsend with
  | requestVote hrole => exact ⟨le_rfl, fun _ => hvote hrole⟩
  | preVote | preVoteResponse | voteRefused | append | snapshotResponse | readIndex | readRefused =>
    exact .of_plain trivial

theorem Standing.answers {asked : Message} (hans : s.node.Answers asked msg) :
    Standing (s.update (·.reply dest epoch msg)) := by
  refine h.reply ?_
  cases hans with
  | refuse => exact .of_plain trivial
  | accept i hrole =>
    refine ⟨le_rfl, fun hr => ?_⟩
    rcases hr with hr | hr <;> rw [hrole] at hr <;> cases hr

theorem Standing.confirmed (sender : Option NodeId) (seq : Nat) : Standing (s.update (·.confirmReads sender seq)) := by
  obtain ⟨reads, out, res, heq, hout⟩ := s.node.confirmReads_eq sender seq
  refine h.queue out (by simp only [update, heq]) (fun _ he => he.of_eq ?_ ?_ ?_) fun env henv => ?_
  · simp only [update, heq]
  · simp only [update, heq]
  · simp only [update, heq]
    exact id
  · obtain ⟨-, id, index, hmsg⟩ := hout env henv
    exact .of_plain (by rw [hmsg]; trivial)

end

/-! ### A leader's unsynced entries -/

/-- What a leader has not synced it created itself, unless it leads alone and has not committed
anything in its term. -/
def Fresh (s : NodeState) : Prop := s.node.role = .leader →
  (∀ e ∈ s.disk.pending, e.term = s.node.hard.term) ∨
    s.node.Solo ∧ s.node.termAt s.node.commitIndex ≠ some s.node.hard.term

theorem Fresh.of_role (h : s.node.role ≠ .leader) : Fresh s := fun hr => absurd hr h

theorem Fresh.of_synced (h : s.disk.pending = []) : Fresh s := fun _ => by simp [h]

/-- What this depends on. -/
def RaftNode.Core.stance (c : RaftNode.Core) :
    Role × Nat × Membership × NodeId × List Entry × Nat × Nat × Nat :=
  (c.role, c.hard.term, c.membership, c.id, c.log, c.snapshotIndex, c.snapshotTerm, c.commitIndex)

theorem Fresh.same (h : Fresh s) (hnode : s'.node.core.stance = s.node.core.stance)
    (hpend : s'.disk.pending = s.disk.pending) : Fresh s' := by
  simp only [Core.stance, core, Prod.mk.injEq] at hnode
  obtain ⟨hrole, hterm, hmem, hid, hlog, hsi, hst, hci⟩ := hnode
  intro hr
  have hentry : ∀ i, s'.node.termAt i = s.node.termAt i := fun i => by
    simp only [termAt, entry, hlog, hsi, hst]
  rw [hpend, hterm, Solo, hmem, hid, hci, hentry]
  exact h (hrole ▸ hr)

section

variable (g : Good m₀ False soup H created s full sure)
include g

omit g in
theorem Fresh.refreshed (h : Fresh s) (g : Good m₀ False soup H created s full sure) :
    Fresh (s.update refreshMembership) := by
  obtain ⟨next, mtch, heq, -⟩ := s.node.refreshMembership_eq
  by_cases hrole : s.node.role = .leader
  · rw [g.effective hrole] at heq
    exact h.same (by simp only [update, heq]; rfl) rfl
  · exact .of_role (by simpa only [update, heq] using hrole)

theorem Good.termAt_lt (hrole : s.node.role = .candidate) {i t : Nat}
    (ht : s.node.termAt i = some t) : t < s.node.hard.term := by
  have hcand := g.node.cand hrole
  obtain ⟨hlo, -⟩ := termAt_bounds ht
  rcases eq_or_lt_of_le hlo with rfl | hlt
  · obtain ⟨u, hu, hcert⟩ := hcand.certified
    change u < s.node.hard.term at hu
    have hsnap : s.node.snapshotTerm = lastTerm (sure.take s.node.snapshotIndex) := g.node.log.snapshotTerm
    rw [termAt_snapshot, some.injEq, hsnap] at ht
    by_cases hnil : sure.take s.node.snapshotIndex = []
    · rw [hnil, lastTerm_nil] at ht
      omega
    · obtain ⟨e, he, heq⟩ := lastTerm_mem hnil
      have hle := hcert.term_le g.hist.coherent e (mem_of_mem_take he)
      omega
  · obtain ⟨e, he, rfl⟩ := g.node.log.termAt_full hlt ht
    exact hcand.terms e (mem_of_getElem? he)

/-- A node elected with unsynced entries was elected by itself alone. -/
theorem Fresh.elected (hrole : s.node.role = .candidate)
    (hq : s.node.membership.hasQuorum s.node.votes = true) : Fresh s.leading := by
  intro _
  by_cases hpend : s.disk.pending = []
  · exact .inl (by simp [show s.leading.disk.pending = [] from hpend])
  · have hvotes : s.node.votes = {s.node.cfg.id} := (g.node.cand hrole).sole hpend
    refine .inr ⟨by rw [hvotes] at hq; exact hq, fun hterm => ?_⟩
    exact absurd (g.termAt_lt hrole (i := s.node.commitIndex) hterm) (lt_irrefl _)

end

/-- Entries appended to the log do not change the terms of those there. -/
theorem RaftNode.termAt_append (n n' : RaftNode) {l : List Entry}
    (hsi : n'.snapshotIndex = n.snapshotIndex) (hst : n'.snapshotTerm = n.snapshotTerm)
    (hlog : n'.log = n.log ++ l) {i : Nat} (hi : i ≤ n.snapshotIndex + n.log.length) :
    n'.termAt i = n.termAt i := by
  simp only [termAt, entry, hsi, hst, hlog]
  split
  · rfl
  · split
    · rfl
    · rw [getElem?_append_left (by omega)]

theorem Fresh.create (h : Fresh s) (g : Good m₀ False soup H created s full sure)
    (hrole : s.node.role = .leader) {command : MetaCommand}
    (hcfg : ∀ m a, command = .changeMembership m a → s.node.MayChange m) :
    Fresh (s.create command) := by
  obtain ⟨next, mtch, hnode, -⟩ := s.create_node command
  obtain ⟨hdisk, -⟩ := s.create_disk command
  intro _
  rcases h hrole with hown | ⟨hsolo, hterm⟩
  · left
    intro e he
    rw [hdisk] at he
    rw [hnode]
    rcases mem_append.mp he with he | he
    · exact hown e he
    · rw [mem_singleton.mp he]
      rfl
  · right
    -- a configuration follows a commit of this term
    have hplain : LogEntry.config (s.nextEntry command) = none := by
      by_contra hc
      obtain ⟨m, hm⟩ := ne_none_iff_exists'.mp hc
      cases command with
      | changeMembership m' a => exact hterm (hcfg m' a rfl).2.1
      | _ => cases hm
    have hcommit : s.node.commitIndex ≤ s.node.snapshotIndex + s.node.log.length := by
      have hlen := (g.node.lead.led (g.wf.led hrole)).clean.length_le
      have hci : sure.length = s.node.commitIndex := g.node.log.commit
      rw [g.node.log.length]
      omega
    rw [hplain, getD_none] at hnode
    refine ⟨by rw [hnode]; exact hsolo, fun ht => hterm ?_⟩
    rw [← termAt_append s.node (s.create command).node (by rw [hnode]) (by rw [hnode]) (by rw [hnode]) hcommit]
    rw [hnode] at ht ⊢
    exact ht

/-! ### Every action keeps both -/

theorem Standing.rebased (h : Standing s) (c : MemCatalog) : Standing (s.rebase c) := by
  obtain ⟨log, wal, hnode, -⟩ := s.rebase_eq c
  exact h.same (by rw [hnode]) (by rw [hnode]) (by rw [hnode]) (by rw [hnode]; exact id)

variable {w : Setting}

theorem Standing.action (h : Standing s) (g : Good m₀ False w.soup H created s full sure)
    (ha : Action w s s') : Standing s' := by
  cases ha with
  | quiet f hcore | matched _ _ _ _ _ _ f hcore =>
    have hrole : (f s.node).role = s.node.role := congrArg (·.role) hcore
    exact h.same (congrArg (·.outbox) hcore) (congrArg (·.hard) hcore) (congrArg (·.id) hcore) fun hr => hrole ▸ hr
  | refresh => exact h.refreshed
  | speculate | flush | ballot | commit | learn | apply | checkpoint | compact | stage | unstage =>
    exact h.same rfl rfl rfl id
  | prepare v f _ hcore =>
    have hrole : (f s.node).role = .preCandidate := congrArg (·.role) hcore
    refine h.same (congrArg (·.outbox) hcore) (congrArg (·.hard) hcore) (congrArg (·.id) hcore) ?_
    rintro (hr | hr) <;> cases hr.symm.trans hrole
  | campaign => exact h.campaigning
  | elect hrole => exact h.same rfl rfl rfl fun _ => .inl hrole
  | follow term leader => exact h.followed term leader
  | vote env _ _ _ hfree => exact h.vote hfree
  | create command spec =>
    obtain ⟨next, mtch, hnode, -⟩ := (s.withSpec spec).create_node command
    exact h.same (by rw [hnode]; rfl) (by rw [hnode]; rfl) (by rw [hnode]; rfl) (by rw [hnode]; exact id)
  | takeNew | takeOver => exact Standing.refreshed (h.same rfl rfl rfl id)
  | install _ inc => exact (h.rebased inc.catalog).refreshed
  | transfer peer o =>
    refine h.queue [⟨s.node.cfg.id, peer, snapshotMessage s.node.hard.term o,
      s.node.epoch⟩] rfl (fun _ he => he.of_eq rfl rfl id) fun env henv => ?_
    obtain rfl := mem_singleton.mp henv
    exact .of_plain trivial
  | endTransfer peer | newRead | register | result | forget => exact h.same rfl rfl rfl id
  | send dest epoch msg hsend =>
    refine h.sends (fun hrole => ?_) hsend
    -- a candidate voted for itself
    obtain ⟨l, hl⟩ := (g.node.cand hrole).self
    exact (g.node.own.vote _ _ _ hl).2 rfl
  | answer _ _ _ _ hans => exact h.answers hans
  | confirm sender seq => exact h.confirmed sender seq

theorem Fresh.action (h : Fresh s) (g : Good m₀ False w.soup H created s full sure)
    (ha : Action w s s') : Fresh s' := by
  cases ha with
  | quiet f hcore => exact h.same (congrArg Core.stance hcore) rfl
  | refresh => exact h.refreshed g
  | flush | compact => exact .of_synced rfl
  | prepare v f _ hcore =>
    have hrole : (f s.node).role = .preCandidate := congrArg (·.role) hcore
    exact .of_role (by rw [show (s.update f).node = f s.node from rfl, hrole]; decide)
  | campaign => exact .of_role fun h => by cases h
  | ballot _ hrole | learn _ _ hrole => exact .of_role (by simp [update, hrole])
  | elect hrole hq => exact .elected g hrole hq
  | follow term leader =>
    obtain ⟨out, res, hnode, -⟩ := s.followed_node term leader
    exact .of_role fun h => by rw [hnode] at h; cases h
  | vote env _ _ _ hfree | speculate | apply | checkpoint | stage | unstage | transfer | endTransfer | send
  | answer | newRead | register | result | forget => exact h.same rfl rfl
  | create command spec hrole hcfg =>
    exact Fresh.create (s := s.withSpec spec) h (g.withSpec spec) hrole hcfg
  | matched _ _ _ _ _ _ f hcore =>
    have hstance := congrArg Core.stance hcore
    exact h.same hstance rfl
  | commit i hrole _ _ _ _ hsolo =>
    rcases h hrole with hown | ⟨hs, -⟩
    · exact fun _ => .inl hown
    · exact .of_synced (hsolo hs)
  | takeNew _ _ hrole | takeOver _ _ hrole =>
    have hsame : ∀ t : NodeState, t.node.role = s.node.role → (t.update refreshMembership).node.role = .follower :=
      fun t ht => (t.node.refreshMembership_role.trans ht).trans hrole
    exact .of_role fun hr => by cases hr.symm.trans (hsame _ rfl)
  | install _ inc _ _ hrole => exact .of_role (by rw [s.adopt_role, hrole]; decide)
  | confirm sender seq =>
    obtain ⟨reads, out, res, heq, -⟩ := s.node.confirmReads_eq sender seq
    exact h.same (by simp only [update, heq]; rfl) rfl

theorem upheld_standing : Upheld m₀ fun s => Standing s ∧ Fresh s where
  trace _ _ h := h
  opened cfg d epoch tr := by
    let s0 := openState cfg m₀ d epoch tr
    have hempty : Standing s0 := fun _ hm => (not_mem_nil hm).elim
    refine ⟨hempty.refreshed.same rfl rfl rfl id, .of_role fun hr => ?_⟩
    exact nomatch hr.symm.trans s0.node.refreshMembership_role
  cleared s h := ⟨fun _ hm => (not_mem_nil hm).elim, h.2.same rfl rfl⟩
  action g ha h := ⟨h.1.action g ha, h.2.action g ha⟩

/-! ### What leaves a node -/

/-- What `env` promises is on stable storage. A response says nothing of entries the node created
since, as leader of a later term; a later term takes the place of a vote. -/
def NodeState.Durable (s : NodeState) (env : Envelope) : Prop := match env.msg with
  | .appendEntriesResponse t true m _ =>
      (∃ c, s.disk.store = some c ∧ s.node.snapshotIndex ≤ c.appliedIndex) ∧
      ∀ e ∈ s.node.log, e.index ≤ m → e ∈ s.disk.synced ∨
        s.node.role = .leader ∧ e.term = s.node.hard.term ∧ t < e.term
  | .requestVoteResponse t true =>
      t ≤ s.disk.hard.term ∧ (t = s.disk.hard.term → s.disk.hard.votedFor = some env.dest)
  | .requestVote t _ _ =>
      t ≤ s.disk.hard.term ∧ (t = s.disk.hard.term → s.disk.hard.votedFor = some env.sender)
  | _ => True

theorem NodeState.durable_of_standing (g : Good m₀ False soup H created s full sure)
    (hst : Standing s) (hfr : Fresh s) (hrole : s.node.role ≠ .leader → s.disk.pending = [])
    (hsolo : s.node.role = .leader → s.node.Solo → s.disk.pending = []) {env : Envelope}
    (henv : env ∈ s.node.outbox) (hsender : env.sender = s.node.cfg.id) : s.Durable env := by
  have h := hst env henv
  have hhard := g.wf.hard
  unfold Stands at h
  unfold NodeState.Durable
  split <;> rename_i hmsg <;> simp only [hmsg] at h
  · obtain ⟨c, hc, -, hle⟩ := g.node.log.store
    refine ⟨⟨c, hc, hle⟩, fun e he _ => ?_⟩
    rw [← g.wf.records, Disk.records] at he
    refine (mem_append.mp he).imp_right fun hp => ?_
    by_cases hr : s.node.role = .leader
    · have hown := (hfr hr).resolve_right fun hs => by
        rw [hsolo hr hs.1] at hp
        cases hp
      refine ⟨hr, hown e hp, ?_⟩
      rw [hown e hp]
      exact h.2 (.inr hr)
    · rw [hrole hr] at hp
      cases hp
  · rw [hhard]
    exact h
  · rw [hhard, hsender]
    exact h
  · trivial

/-- A leader counts itself for an index only when it has synced it. -/
theorem Good.own_ack (g : Good m₀ False soup H created s full sure)
    (hrole : s.node.role = .leader) {i : Nat} (hlt : s.node.commitIndex < i)
    (hle : i ≤ s.node.lastIndex) (hterm : s.node.termAt i = some s.node.hard.term)
    (hack : s.node.cfg.id ∈ RaftM.acksFor s.node i) :
    ∃ e ∈ s.disk.synced, s.node.entry i = some e := by
  have hled := g.led hrole
  have helog : H.elog s.node.hard.term = full := hled.elog
  have hlast := g.node.log.lastIndex g.wf
  have hsync := g.wf.syncedIndex
  have hreach : i ≤ s.node.snapshotIndex + s.disk.synced.length := by
    rcases mem_acksFor hack with ⟨m, hm, him⟩ | ⟨-, hi⟩
    · -- its own acknowledgement, had it ever sent itself one
      obtain ⟨-, -, ⟨k, hk, ha⟩ | hc⟩ := g.node.lead.matching hrole _ m hm
      · rcases g.node.log.acks _ k ha i (him.trans hk) with hpre | ⟨t, w, hlt', hle', -⟩
        · have hlen := hpre.length_le
          rw [show H.elog s.node.view.hard.term = full from helog, length_take, length_take] at hlen
          change min i full.length ≤ min (s.node.snapshotIndex + s.disk.synced.length) _ at hlen
          omega
        · omega
      · obtain ⟨-, hnew⟩ := g.new_commit hrole hlt (hlast ▸ hle) hterm
        rw [show H.elog s.node.view.hard.term = full from helog] at hc
        exact absurd (hc.shorter (take_prefix_take_left him)) hnew
    · omega
  have hsi : s.node.snapshotIndex ≤ s.node.commitIndex := g.wf.snapshot
  have hlt' : i - s.node.snapshotIndex - 1 < s.disk.synced.length := by omega
  refine ⟨s.disk.synced.get ⟨_, hlt'⟩, get_mem _ _, ?_⟩
  rw [entry, if_neg (by omega), ← g.wf.records, Disk.records,
    getElem?_append_left hlt', getElem?_eq_getElem hlt', get_eq_getElem]

/-- Durable before acknowledged: what a node of a group hands over to be sent is on its disk, and a
leader counts itself for an index only when the entry is. `Path` passes through every point at which
a call of the node may advance its commit index. -/
theorem durable_before_acknowledged {evs : List Event}
    (hrun : Cluster.run m₀ {} evs = some σ) {x : NodeId} {n : RaftNode}
    (hx : (σ.servers x).node = some n) :
    (∀ msgs t, Op.takeMessages.run ⟨n, (σ.servers x).disk, []⟩ = .ok (.messages msgs) t →
      ∀ env ∈ msgs, t.Durable env) ∧
    ∀ t, Path (.any (· ∈ σ.soup)) ⟨n, (σ.servers x).disk, []⟩ t → t.node.role = .leader →
      ∀ i, t.node.commitIndex < i → i ≤ t.node.lastIndex →
        t.node.termAt i = some t.node.hard.term → t.node.cfg.id ∈ RaftM.acksFor t.node i →
        ∃ e ∈ t.disk.synced, t.node.entry i = some e := by
  have hinit : GroupInv m₀ False noHistory {} := groupInv_init
  obtain ⟨H, hg, -⟩ := hinit.run False.elim hrun
  obtain ⟨-, hb, full, sure, g⟩ := hg.node hx
  have hup := upheld_standing.each hrun x n hx
  constructor
  · intro msgs t ht env henv
    have hpath : Path (.any (· ∈ σ.soup)) ⟨n, (σ.servers x).disk, []⟩ _ := flushed_path _
    obtain ⟨H', full', sure', -, g', -⟩ := (hpath.reaches g rfl).good
    obtain ⟨hst, hfr⟩ := upheld_standing.path g rfl hpath hup
    obtain ⟨hpend, hout⟩ := g'.flushed hb
    rw [takeMessages_run g.wf] at ht
    obtain ⟨hm, rfl⟩ := EStateM.Result.ok.inj ht
    obtain rfl := Reply.messages.inj hm
    exact durable_of_standing g' hst hfr hpend hb.flushed henv (hout env henv).1
  · intro t hpath hrole i hlt hle hterm hack
    obtain ⟨H', full', sure', -, g', -⟩ := (hpath.reaches g rfl).good
    exact g'.own_ack hrole hlt hle hterm hack

/-- `a` leads and `b` has taken its first entry, whose acknowledgement waits in `b`'s outbox. -/
def ackRun : List (Cluster → Event) :=
  let ids := ["a", "b", "c"]
  let ev (e : Event) : Cluster → Event := fun _ => e
  let trip (x y : NodeId) := Cluster.exchange x y ++ Cluster.exchange y x
  [ev (.start "a" (quickConfig ids "a")), ev (.start "b" (quickConfig ids "b")),
    ev (.call "a" .tick), ev (.call "a" .tick)] ++ trip "a" "b" ++ trip "a" "b" ++
  Cluster.exchange "a" "b"

theorem durable_before_acknowledged_follower : ∃ evs σ n,
    Cluster.run (votersOf ["a", "b", "c"]) {} evs = some σ ∧ (σ.servers "b").node = some n ∧
    (σ.servers "b").disk.pending ≠ [] ∧
    ∃ msgs t, Op.takeMessages.run ⟨n, (σ.servers "b").disk, []⟩ = .ok (.messages msgs) t ∧
      ∃ env ∈ msgs, (∃ term rs, env.msg = .appendEntriesResponse term true 1 rs) ∧
        t.Durable env := by
  have h : (Cluster.run trio {} (Cluster.follow trio {} ackRun)).any (fun σ =>
      (σ.servers "b").node.any fun n => !(σ.servers "b").disk.pending.isEmpty &&
        match RaftM.takeMessages ⟨n, (σ.servers "b").disk, []⟩ with
        | .ok msgs _ => msgs.any fun env => env.msg = .appendEntriesResponse env.msg.term true 1 0
        | .error .. => false) = true := by
    decide +kernel
  obtain ⟨σ, hσ, h⟩ := (any_eq_true _ _).mp h
  obtain ⟨n, hn, h⟩ := (any_eq_true _ _).mp h
  obtain ⟨hpend, h⟩ := Bool.and_eq_true_iff.mp h
  split at h
  · rename_i msgs t ht
    have ht : Op.takeMessages.run ⟨n, (σ.servers "b").disk, []⟩ = .ok (.messages msgs) t := Program.bind_ok ht
    obtain ⟨env, henv, hmsg⟩ := any_eq_true.mp h
    refine ⟨_, σ, n, hσ, hn, by simpa using hpend, msgs, t, ht, env, henv, ⟨_, _, of_decide_eq_true hmsg⟩, ?_⟩
    exact (durable_before_acknowledged hσ hn).1 msgs t ht env henv
  · cases h

/-- Calls of a node one after another, none of them refused. -/
def NodeState.after (s : NodeState) : List Op → Option NodeState
  | [] => some s
  | op :: ops => match op.run s with
    | .ok _ s' => s'.after ops
    | .error .. => none

/-- `a` takes an entry from the leader `b` of term 1, and then, as its next message, the vote of `c`
in term 2, for which it has not asked. -/
def unaskedVotes : List Op :=
  let step (sender : NodeId) (msg : Message) : Op := .step ⟨sender, "a", msg, 1⟩
  [step "b" (.appendEntries 1 0 0 [⟨1, 1, .noop⟩] 0 0), .tick, .tick,
    step "c" (.preVoteResponse 2 true), step "c" (.requestVoteResponse 2 true)]

/-- Elected by votes nobody cast, a leader hands over the acknowledgement of an entry it has not
synced. -/
theorem unasked_votes_release_early : ∃ s s' msgs t,
    RaftNode.open (quickConfig ["a", "b", "c"] "a") {} 1 = .ok s ∧
    s.after unaskedVotes = some s' ∧ Op.takeMessages.run s' = .ok (.messages msgs) t ∧
    ∃ env ∈ msgs, ∃ m rs, env.msg = .appendEntriesResponse 1 true m rs ∧
      ∃ e ∈ t.node.log, e.index ≤ m ∧ e.term = 1 ∧ e ∉ t.disk.synced := by
  have h : (RaftNode.open (quickConfig ["a", "b", "c"] "a") {} 1).toOption.any (fun s =>
      (s.after unaskedVotes).any fun s' => match RaftM.takeMessages s' with
        | .ok msgs t => msgs.any fun env =>
            env.msg = .appendEntriesResponse 1 true 1 0 &&
            t.node.log.any fun e => e.index ≤ 1 ∧ e.term = 1 ∧ e ∉ t.disk.synced
        | .error .. => false) = true := by
    decide +kernel
  obtain ⟨s, hs, h⟩ := (any_eq_true _ _).mp h
  obtain ⟨s', hs', h⟩ := (any_eq_true _ _).mp h
  split at h
  · rename_i msgs t ht
    obtain ⟨env, henv, h⟩ := any_eq_true.mp h
    obtain ⟨hmsg, h⟩ := Bool.and_eq_true_iff.mp h
    obtain ⟨e, he, h⟩ := any_eq_true.mp h
    refine ⟨s, s', msgs, t, ?_, hs', Program.bind_ok ht, env, henv, 1, 0, of_decide_eq_true hmsg, e, he, of_decide_eq_true h⟩
    cases hopen : RaftNode.open (quickConfig ["a", "b", "c"] "a") {} 1 with
    | error err => rw [hopen] at hs; cases hs
    | ok s0 => rw [hopen] at hs; cases hs; rfl
  · cases h

end AtlasNative
