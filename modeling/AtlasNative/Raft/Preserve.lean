import AtlasNative.Raft.Facts

/-!
# Actions keep the invariants: roles, votes and messages

Each action of a node extends the history by what it did (`Grows`), and what holds of the node keeps
holding. Actions that only touch timers, transfers and messages leave the history alone.
-/

namespace AtlasNative

open Consensus RaftNode List Function
open History (Ext Untouched)

/-- A node with everything that holds of it, of the history and of the messages. -/
structure Good (m₀ : Membership) (strict : Prop) (soup : Envelope → Prop) (H : History NodeId Entry)
    (created : List (Entry × Nat)) (s : NodeState) (full sure : List Entry) : Prop where
  valid : m₀.Valid
  msgs : ∀ env, soup env → MsgInv soup H env
  hist : HistInv m₀ H created
  wf : Wf s
  node : NodeInv m₀ strict soup H s.node.view s.disk full sure

/-- From `H` the node has gone on to `s`. -/
def Grows (m₀ : Membership) (strict : Prop) (soup : Envelope → Prop) (H : History NodeId Entry)
    (created : List (Entry × Nat)) (s : NodeState) : Prop :=
  ∃ H' full sure, Ext s.node.cfg.id H H' ∧ Good m₀ strict soup H' created s full sure

/-- From `H` node `x` has gone on to leave `d` on its disk. -/
def Image (m₀ : Membership) (strict : Prop) (H : History NodeId Entry) (created : List (Entry × Nat))
    (x : NodeId) (d : Disk) : Prop :=
  ∃ H' full sure base, Ext x H H' ∧ HistInv m₀ H' created ∧ DiskInv strict H' x d full sure base

variable {m₀ : Membership} {strict : Prop} {soup : Envelope → Prop} {H H' : History NodeId Entry}
  {created created' : List (Entry × Nat)} {s s' : NodeState} {full sure full' sure' : List Entry}

section

variable (g : Good m₀ strict soup H created s full sure)
include g

theorem Good.step (full' sure' : List Entry) (hext : Ext s'.node.cfg.id H H')
    (hist : HistInv m₀ H' created') (hwf : Wf s')
    (hnode : NodeInv m₀ strict soup H' s'.node.view s'.disk full' sure') :
    Grows m₀ strict soup H created' s' :=
  ⟨H', full', sure', hext, g.valid, fun env henv => (g.msgs env henv).ext g.hist.coherent hext, hist, hwf, hnode⟩

omit g in
theorem Wf.congr (h : Wf s) (hn : s'.node = s.node) (hd : s'.disk = s.disk) : Wf s' :=
  ⟨hn ▸ h.contiguous, hd ▸ hn ▸ h.records, hd ▸ hn ▸ h.hard, hn ▸ h.last, hd ▸ hn ▸ h.synced,
    hd ▸ hn ▸ h.store, hn ▸ h.applied, hn ▸ h.snapshot, hn ▸ h.led⟩

omit g in
/-- The trace of the call in progress does not matter. -/
theorem Grows.congr (h : Grows m₀ strict soup H created s) (hn : s'.node = s.node)
    (hd : s'.disk = s.disk) : Grows m₀ strict soup H created s' := by
  obtain ⟨H', full, sure, hext, g⟩ := h
  exact ⟨H', full, sure, hn ▸ hext, g.valid, g.msgs, g.hist, g.wf.congr hn hd, hn ▸ hd ▸ g.node⟩

omit g in
theorem Grows.after (h : Grows m₀ strict soup H' created s) (hext : Ext s.node.cfg.id H H') :
    Grows m₀ strict soup H created s := by
  obtain ⟨H'', full, sure, hext', g⟩ := h
  exact ⟨H'', full, sure, hext.trans hext', g⟩

theorem Good.same (full' sure' : List Entry) (hwf : Wf s')
    (hnode : NodeInv m₀ strict soup H s'.node.view s'.disk full' sure') :
    Grows m₀ strict soup H created s' := g.step full' sure' (Ext.refl _ _) g.hist hwf hnode

omit g in
/-- Only votes, acknowledgements, campaigns or commits were recorded. -/
theorem HistInv.of_elog (h : HistInv m₀ H created) (hco : H'.Coherent m₀)
    (hel : H'.elected = H.elected) (hst : H'.start = H.start) (hlog : H'.elog = H.elog) :
    HistInv m₀ H' created := by
  have hled : ∀ t, H'.Led t ↔ H.Led t := fun t => by rw [History.Led, hel, History.Led]
  refine ⟨hco, fun t ht => h.positive t ((hled t).mp ht), fun t ht => ?_,
    ⟨fun e t het => ?_, fun t ht p e hp hlen => ?_⟩⟩
  · rw [hlog]
    exact h.numbered t ((hled t).mp ht)
  · rw [hled, hlog, hst]
    exact h.created.sound e t het
  · rw [hlog] at hp
    rw [hst] at hlen
    exact h.created.complete t ((hled t).mp ht) p e hp hlen

/-! ### Messages and timers -/

omit g in
/-- Changes that the invariant of a node does not see, and messages it may send. -/
theorem NodeInv.outbox {v : View} {d : Disk} (h : NodeInv m₀ strict soup H v d full sure)
    (out : List Envelope) (hout : ∀ env ∈ out, OutInv soup H v d full env) :
    NodeInv m₀ strict soup H { v with outbox := out } d full sure where
  log := { h.log with }
  own := h.own
  cand hr := { h.cand hr with }
  lead := h.lead.keep rfl h.lead.matching
  mem := { h.mem with }
  transfer := { h.transfer with }
  out env henv := (hout env henv).imp rfl id fun _ _ hu => { hu with }

theorem Good.view (hwf : Wf s') (hview : s'.node.view = s.node.view) (hdisk : s'.disk = s.disk) :
    Grows m₀ strict soup H created s' := by
  refine g.same full sure hwf ?_
  rw [hview, hdisk]
  exact g.node

theorem Good.withSpec (spec : Option MemCatalog) :
    Good m₀ strict soup H created (s.withSpec spec) full sure :=
  { g with wf := g.wf.of_eq rfl rfl rfl rfl rfl rfl le_rfl g.wf.led }

theorem Good.send {f : RaftNode → RaftNode} (hwf : Wf (s.update f)) (out : List Envelope)
    (hview : (f s.node).view = { s.node.view with outbox := s.node.view.outbox ++ out })
    (hout : ∀ env ∈ out, OutInv soup H s.node.view s.disk full env) :
    Grows m₀ strict soup H created (s.update f) := by
  refine g.same full sure hwf ?_
  have := g.node.outbox _ (forall_mem_append.mpr ⟨g.node.out, hout⟩)
  rw [← hview] at this
  exact this

end

/-- What a node will look like once it follows the configuration its log calls for. -/
def RaftNode.settledView (n : RaftNode) : View := { n.view with membership := n.effective }

theorem NodeInv.refreshed (hwf : Wf s) (h : NodeInv m₀ strict soup H s.node.settledView s.disk full sure) :
    NodeInv m₀ strict soup H (s.update refreshMembership).node.view s.disk full sure := by
  obtain ⟨next, mtch, heq, hm⟩ := s.node.refreshMembership_eq
  simp only [NodeState.update, heq]
  exact
    { log := { h.log with }
      own := h.own
      cand := fun hr => { h.cand hr with }
      lead := h.lead.keep rfl fun hr p k hk => by
        rcases hm p k hk with hk | rfl
        · exact h.lead.matching hr p k hk
        · exact History.RespOk.zero ⟨_, (h.lead.led (hwf.led hr)).elected⟩
      mem := { h.mem with }
      transfer := { h.transfer with }
      out := fun env henv => (h.out env henv).imp rfl id fun _ _ hu => { hu with } }

theorem RaftNode.refreshMembership_cfg (n : RaftNode) : n.refreshMembership.cfg = n.cfg := by
  obtain ⟨next, mtch, heq, -⟩ := n.refreshMembership_eq
  rw [heq]

/-- The configuration of a leader is the one its log calls for: the log is clean. -/
theorem Good.effective (g : Good m₀ strict soup H created s full sure)
    (hrole : s.node.role = .leader) : s.node.effective = s.node.membership := by
  have hclean : sure <+: full := (g.node.lead.led (g.wf.led hrole)).clean
  have hold : s.node.membership = cfg m₀ full := g.node.mem.current.resolve_right fun h => h.1 hclean
  have hnew : s.node.effective = cfg m₀ full :=
    (g.node.log.effective g.hist.coherent g.valid g.wf g.node.mem.initial).resolve_right fun h => h.1 hclean
  rw [hnew, hold]

theorem Good.settled (g : Good m₀ strict soup H created s full sure) :
    NodeInv m₀ strict soup H s.node.settledView s.disk full sure where
  log := { g.node.log with }
  own := g.node.own
  cand hr := { g.node.cand hr with }
  lead := g.node.lead.keep rfl g.node.lead.matching
  mem := ⟨g.node.mem.initial, g.node.log.effective g.hist.coherent g.valid g.wf g.node.mem.initial⟩
  transfer := { g.node.transfer with }
  out env henv := by
    refine (g.node.out env henv).imp rfl id fun _ _ hu => { hu with leader := fun hr => ?_ }
    obtain ⟨hq, hc⟩ := hu.leader hr
    refine ⟨?_, hc⟩
    show s.node.effective.hasQuorum _ = true
    rw [g.effective hr]
    exact hq

theorem Good.refresh (g : Good m₀ strict soup H created s full sure) :
    Grows m₀ strict soup H created (s.update refreshMembership) :=
  g.same _ _ g.wf.refresh (g.settled.refreshed g.wf)

/-! ### The log reaches the disk -/

/-- What the node has answered ahead of its disk is acknowledged once the log is synced. -/
def acknowledged (H : History NodeId Entry) (v : View) (d : Disk) (full : List Entry) :
    History NodeId Entry := H.addAcks v.id {a | Unsynced H v d full a.1 a.2}

section Sync

variable {v : View} {d : Disk}

theorem ext_acknowledged : Ext v.id H (acknowledged H v d full) := History.ext_addAcks _ _

theorem HistInv.acknowledged (h : HistInv m₀ H created) : HistInv m₀ (acknowledged H v d full) created :=
  h.of_elog (h.coherent.addAcks fun _ _ ha => ⟨ha.led, ha.len, ha.votes⟩) rfl rfl rfl

theorem NodeInv.synced (hH : H.Coherent m₀) (h : NodeInv m₀ strict soup H v d full sure)
    (hlen : v.snapshotIndex + d.records.length = full.length) :
    NodeInv m₀ strict soup (acknowledged H v d full) v (d.perform .walSync) full sure where
  log := { h.log with
      ok := ext_acknowledged.logOk h.log.ok
      certified := h.log.certified.ext hH ext_acknowledged
      acks := by
        have htake : full.take (v.snapshotIndex + (d.perform .walSync).synced.length) = full :=
          take_of_length_le hlen.ge
        rw [htake]
        rintro t m (ha | ⟨-, ha⟩) n hn
        · exact h.log.acks.longer (List.take_prefix _ _) t m ha n hn
        · exact .inl ((take_prefix_take_left hn).trans ha.holds) }
  own := { h.own with
      ack := by
        rintro t m (ha | ⟨-, ha⟩)
        · exact h.own.ack t m ha
        · exact ha.le }
  cand hr := { h.cand hr with
      certified := (h.cand hr).certified.imp fun _ ht => ⟨ht.1, ht.2.ext hH ext_acknowledged⟩
      asked := fun _ => rfl
      sole := fun hp => absurd rfl hp }
  lead :=
    { led := fun hl => { h.lead.led hl with }
      past := h.lead.past
      matching := fun hr p k hk => (h.lead.matching hr p k hk).ext hH ext_acknowledged }
  mem := h.mem
  transfer := h.transfer.ext hH ext_acknowledged
  out env henv := by
    obtain ⟨hs, h'⟩ := h.out env henv
    refine ⟨hs, .inl ?_⟩
    rcases h' with hmsg | ⟨t, k, rs, hmsg, hu⟩
    · exact hmsg.ext hH ext_acknowledged
    · rw [MsgInv, hmsg]
      refine ⟨hu.led, hu.len, .inl ⟨k, le_rfl, .inr ⟨hs, hu⟩⟩⟩

end Sync

section

variable (g : Good m₀ strict soup H created s full sure)
include g

theorem Good.flush : Grows m₀ strict soup H created s.flush := by
  refine g.step _ _ (ext_acknowledged (v := s.node.view)) g.hist.acknowledged g.wf.flush
    (g.node.synced g.hist.coherent ?_)
  rw [g.wf.records]
  exact g.node.log.length

/-! ### Roles and terms -/

omit g in
theorem LogInv.raise {v : View} {d : Disk} (h : LogInv strict H v d full sure) (d' : Disk)
    (hard : HardState) (hterm : v.hard.term ≤ hard.term) (hstore : d'.store = d.store) (hsync : d'.synced = d.synced) :
    LogInv strict H { v with hard := hard } d' full sure :=
  { h with
    terms := fun e he => (h.terms e he).trans hterm
    certified := h.certified.mono hterm
    store := by
      rw [hstore]
      exact h.store
    acks := by
      rw [hsync]
      exact h.acks.later hterm }

omit g in
theorem TransferInv.raise {v : View} (h : TransferInv H v) (hard : HardState)
    (hterm : v.hard.term ≤ hard.term) : TransferInv H { v with hard := hard } where
  outgoing p o ho := by
    obtain ⟨c, l, h1, h2, h3⟩ := h.outgoing p o ho
    exact ⟨c, l, h1, h2, h3.mono hterm⟩
  incoming inc hinc := by
    obtain ⟨c, l, h1, h2, h3⟩ := h.incoming inc hinc
    exact ⟨c, l, h1, h2.mono hterm, h3⟩

theorem Good.prepare {v : BTreeSet NodeId} {f : RaftNode → RaftNode} (hwf : Wf (s.update f))
    (h : (f s.node).core = { s.node.core with role := .preCandidate, votes := v }) :
    Grows m₀ strict soup H created (s.update f) := by
  refine g.same full sure hwf ?_
  rw [show (s.update f).node.view = (f s.node).core.view from rfl, h]
  exact
    { log := { g.node.log with }
      own := g.node.own
      cand := fun hr => nomatch hr
      lead := g.node.lead.keep rfl fun hr => nomatch hr
      mem := { g.node.mem with }
      transfer := { g.node.transfer with }
      out := fun env henv => (g.node.out env henv).imp rfl id fun _ _ hu => { hu with
        follower := fun hr => nomatch hr
        leader := fun hr => nomatch hr } }

omit g in
theorem NodeState.raisedHard_term (s : NodeState) (term : Nat) : s.node.hard.term ≤ (s.raisedHard term).term ∧
      (s.raisedHard term = s.node.hard ∨ s.node.hard.term < (s.raisedHard term).term) := by
  unfold raisedHard
  split
  · exact ⟨by dsimp only; omega, .inr ‹_›⟩
  · exact ⟨le_rfl, .inl rfl⟩

theorem Good.follow (term : Nat) (leader : Option NodeId) (hpend : s.disk.pending = []) :
    Grows m₀ strict soup H created (s.followed term leader) := by
  obtain ⟨out, res, hnode, hout⟩ := s.followed_node term leader
  obtain ⟨hle, hraised⟩ := s.raisedHard_term term
  have hdisk : (s.followed term leader).disk.store = s.disk.store ∧
      (s.followed term leader).disk.synced = s.disk.synced := by
    rw [show (s.followed term leader).disk = (s.raiseTerm term).disk from rfl, NodeState.raiseTerm]
    split <;> exact ⟨rfl, rfl⟩
  refine g.same full sure (g.wf.followed term leader) ?_
  rw [hnode]
  have hlog := g.node.log.raise _ _ hle hdisk.1 hdisk.2
  exact
    { log := { hlog with }
      own := by
        rcases hraised with heq | hlt
        · rw [heq]
          exact g.node.own
        · refine ⟨fun t y l hv => ?_, fun t m ha => (g.node.own.ack t m ha).trans hle,
            fun t ht => (g.node.own.elected t ht).trans hle⟩
          have := (g.node.own.vote t y l hv).1
          change t ≤ s.node.hard.term at this
          change t ≤ (s.raisedHard term).term ∧ (t = (s.raisedHard term).term → _)
          omega
      cand := fun hr => by cases hr
      lead :=
        { led := fun hl => by
            have hpast := g.node.lead.past _ hl
            change (s.raisedHard term).term ≤ s.node.hard.term at hpast
            rcases hraised with heq | hlt
            · rw [heq] at hl ⊢
              exact { g.node.lead.led hl with }
            · omega
          past := fun t ht => (g.node.lead.past t ht).trans hle
          matching := fun hr => by cases hr }
      mem := { g.node.mem with }
      transfer := { (g.node.transfer.raise _ hle) with
          outgoing := fun p o ho => by
            change (∅ : BTreeMap NodeId (Outgoing MemTable MemEntries))[p]? = some o at ho
            simp at ho }
      out := fun env henv => by
        rcases mem_append.mp henv with henv | henv
        · exact (g.node.out env henv).imp rfl id fun _ _ hu => absurd hpend hu.pending
        · obtain ⟨hs, id, index, hmsg⟩ := hout env henv
          refine ⟨hs, .inl ?_⟩
          rw [MsgInv, hmsg]
          trivial }

/-! ### Elections -/

theorem Good.campaign (hwf : Wf s.campaigning) : Grows m₀ strict soup H created s.campaigning := by
  have hno : ∀ y l, ¬ H.vote s.node.cfg.id (s.node.hard.term + 1) y l := by
    intro y l hv
    have := (g.node.own.vote _ y l hv).1
    change s.node.hard.term + 1 ≤ s.node.hard.term at this
    omega
  have hel : H.elected (s.node.hard.term + 1) ≠ some s.node.cfg.id := by
    intro he
    have := g.node.own.elected _ he
    change s.node.hard.term + 1 ≤ s.node.hard.term at this
    omega
  have hack : H.AckOk s.node.cfg.id s.node.hard.term full := g.node.log.acks.longer (List.take_prefix _ _)
  have hH := g.hist.coherent
  have hext : Ext s.node.cfg.id H (H.campaign s.node.cfg.id (s.node.hard.term + 1) full) :=
    History.ext_campaign hno full
  have hle : s.node.view.hard.term ≤ s.node.hard.term + 1 := Nat.le_succ _
  have hlog := (g.node.log.ext hH hext fun _ _ ha => ha).raise s.campaigning.disk s.campaigning.node.hard hle rfl rfl
  refine g.step full sure hext (g.hist.of_elog (hH.campaign g.node.log.ok hno hel (hack.campaign _)) rfl rfl rfl) hwf ?_
  exact
    { log := { hlog with }
      own :=
        { vote := by
            rintro t y l (hv | ⟨-, rfl, rfl, -⟩)
            · have := (g.node.own.vote t y l hv).1
              change t ≤ s.node.hard.term at this
              change t ≤ s.node.hard.term + 1 ∧ (t = s.node.hard.term + 1 → _)
              omega
            · exact ⟨le_rfl, fun _ => rfl⟩
          ack := fun t m ha => (g.node.own.ack t m ha).trans hle
          elected := fun t ht => (g.node.own.elected t ht).trans hle }
      cand := fun _ =>
        { self := ⟨full, .inr ⟨rfl, rfl, rfl, rfl⟩⟩
          cand := if_pos ⟨rfl, rfl⟩
          fresh := hel
          votes := fun y hy => by
            have hy : y ∈ ({s.node.cfg.id} : BTreeSet NodeId) := hy
            obtain rfl : s.node.cfg.id = y := by simpa using hy
            exact ⟨full, .inr ⟨rfl, rfl, rfl, rfl⟩⟩
          terms := fun e he => Nat.lt_succ_of_le (g.node.log.terms e he)
          certified := ⟨_, Nat.lt_succ_self _, g.node.log.certified.ext hH hext⟩
          asked := by
            rintro ⟨env, li, lt, henv, hsend, hmsg⟩
            have := g.msgs env henv
            rw [MsgInv, hmsg] at this
            obtain ⟨⟨l, hl⟩, -⟩ := this
            rw [hsend] at hl
            exact absurd hl (hno _ _)
          sole := fun _ => rfl }
      lead :=
        { led := fun hl => by
            have := g.node.lead.past _ hl
            change s.node.hard.term + 1 ≤ s.node.hard.term at this
            omega
          past := fun t ht => (g.node.lead.past t ht).trans hle
          matching := fun hr => nomatch hr }
      mem := { g.node.mem with }
      transfer := { (g.node.transfer.ext hH hext).raise s.campaigning.node.hard hle with }
      out := fun env henv => by
        refine (g.node.out env henv).imp rfl (·.ext hH hext) fun _ _ hu => { hu with
          le := hu.le.trans hle
          follower := fun hr => nomatch hr
          leader := fun hr => nomatch hr
          votes := ?_ }
        rintro u y l (hv | ⟨-, -, -, rfl⟩) htu
        · exact hu.votes u y l hv htu
        · exact hu.holds }

theorem Good.ballot {env : Envelope} (hrole : s.node.role = .candidate) (henv : soup env)
    (hdest : env.dest = s.node.cfg.id) (hmsg : env.msg = .requestVoteResponse s.node.hard.term true)
    (hwf : Wf (s.update fun n => { n with votes := n.votes.insert env.sender })) :
    Grows m₀ strict soup H created (s.update fun n => { n with votes := n.votes.insert env.sender }) := by
  have hcand := g.node.cand hrole
  have h := g.msgs env henv
  rw [MsgInv, hmsg, hdest] at h
  obtain ⟨hvote, hasked⟩ := h
  have hvote := hvote.resolve_right hcand.fresh
  have hpend : s.disk.pending = [] := hcand.asked hasked
  refine g.same full sure hwf ?_
  exact
    { log := { g.node.log with }
      own := g.node.own
      cand := fun _ =>
        { hcand with
          votes := fun y hy => by
            rcases Std.ExtTreeSet.mem_insert.mp hy with hy | hy
            · rw [Std.compare_eq_iff_eq] at hy
              rw [← hy]
              exact hvote
            · exact hcand.votes y hy
          sole := fun hp => absurd hpend hp }
      lead := g.node.lead.keep rfl g.node.lead.matching
      mem := { g.node.mem with }
      transfer := { g.node.transfer with }
      out := fun env henv =>
        (g.node.out env henv).imp rfl id fun _ _ hu => absurd hpend hu.pending }

/-- A vote that is recorded, or one for the node already elected, which needs no record. -/
theorem Good.vote_node {env : Envelope} (hwf : Wf (s.vote env)) (hext : Ext s.node.cfg.id H H')
    (hist : HistInv m₀ H' created) (hold : ∀ u y l, H'.vote s.node.cfg.id u y l →
      H.vote s.node.cfg.id u y l ∨ u = s.node.hard.term ∧ y = env.sender ∧ l = full)
    (hack : H'.ack = H.ack) (helected : H'.elected = H.elected) (helog : H'.elog = H.elog)
    (hcommit : H'.commit = H.commit) (hfree : s.node.hard.votedFor.all (· = env.sender) = true)
    (hnew : (∃ l, H'.vote s.node.cfg.id s.node.hard.term env.sender l) ∨ H'.elected s.node.hard.term = some env.sender)
    (hasked : AskedVotes soup env.sender s.node.hard.term) :
    Grows m₀ strict soup H created (s.vote env) := by
  have hH := g.hist.coherent
  have hlog := (g.node.log.ext hH hext fun t m ha => by rw [← hack]; exact ha).raise
    (s.vote env).disk (s.vote env).node.hard le_rfl rfl rfl
  refine g.step full sure hext hist hwf ?_
  exact
    { log := { hlog with }
      own :=
        { vote := fun t y l hv => by
            rcases hold t y l hv with hv | ⟨rfl, rfl, -⟩
            · obtain ⟨hle, hy⟩ := g.node.own.vote t y l hv
              refine ⟨hle, fun ht => ?_⟩
              have hvf : s.node.hard.votedFor = some y := hy ht
              rw [hvf] at hfree
              have : y = env.sender := by simpa using hfree
              rw [this]
              rfl
            · exact ⟨le_rfl, fun _ => rfl⟩
          ack := fun t m ha => g.node.own.ack t m (by rw [← hack]; exact ha)
          elected := fun t ht => g.node.own.elected t (by rw [← helected]; exact ht) }
      cand := fun hr =>
        { (g.node.cand hr).ext hH hext (by rw [helected]; exact (g.node.cand hr).fresh) with }
      lead :=
        { led := fun hl =>
            have h := g.node.lead.led hl
            { elected := hext.elected _ _ h.elected
              elog := by rw [helog]; exact h.elog
              clean := h.clean
              commits := fun n k hc => h.commits n k (by rw [← hcommit]; exact hc) }
          past := g.node.lead.past
          matching := fun hr p k hk => (g.node.lead.matching hr p k hk).ext hH hext }
      mem := { g.node.mem with }
      transfer := { (g.node.transfer.ext hH hext) with }
      out := fun env' henv => by
        rcases mem_append.mp henv with henv | henv
        · refine (g.node.out env' henv).imp rfl (·.ext hH hext) fun t k hu => ?_
          have hu' := hu.ext hext (fun u y l hv _ => (hold u y l hv).imp id fun h => by
            rw [h.2.2]
            exact hu.holds) fun _ n k hc => by rw [← hcommit]; exact hc
          exact { hu' with }
        · obtain rfl := mem_singleton.mp henv
          exact ⟨rfl, .inl ⟨hnew, hasked⟩⟩ }

theorem Good.vote {env : Envelope} {li lt : Nat} (henv : soup env)
    (hmsg : env.msg = .requestVote s.node.hard.term li lt)
    (hfree : s.node.hard.votedFor.all (· = env.sender) = true)
    (hup : s.node.logUpToDate li lt = true) (hwf : Wf (s.vote env)) :
    Grows m₀ strict soup H created (s.vote env) := by
  have hH := g.hist.coherent
  have hasked : AskedVotes soup env.sender s.node.hard.term := ⟨env, li, lt, henv, rfl, hmsg⟩
  have h := g.msgs env henv
  rw [MsgInv, hmsg] at h
  obtain ⟨hself, rfl, rfl⟩ := h
  by_cases hel : H.elected s.node.hard.term = some env.sender
  · exact g.vote_node hwf (Ext.refl _ _) g.hist (fun _ _ _ hv => .inl hv) rfl rfl rfl rfl hfree (.inr hel) hasked
  · have hext : Ext s.node.cfg.id H (H.addVote s.node.cfg.id s.node.hard.term env.sender full) :=
      History.ext_addVote _ _ _ _
    have hupto : UpToDate (H.cand s.node.hard.term env.sender) full := by
      rw [logUpToDate, g.node.log.lastTerm g.wf, g.node.log.lastIndex g.wf] at hup
      simpa [UpToDate] using hup
    have huniq : ∀ z m, H.vote s.node.cfg.id s.node.hard.term z m → z = env.sender := by
      intro z m hv
      have hvf : s.node.hard.votedFor = some z := (g.node.own.vote _ z m hv).2 rfl
      rw [hvf] at hfree
      simpa using hfree
    have hack : H.AckOk s.node.cfg.id s.node.hard.term full := g.node.log.acks.longer (List.take_prefix _ _)
    refine g.vote_node hwf hext
      (g.hist.of_elog (hH.addVote g.node.log.ok hupto huniq (.inr hself) (hack.vote hel)) rfl rfl rfl)
      (fun u y l hv => hv.imp id (·.2)) rfl rfl rfl rfl hfree
      (.inl ⟨full, .inr ⟨rfl, rfl, rfl, rfl⟩⟩) hasked

omit g in
/-- The log a node is elected with is numbered, and no entry of it is new. -/
theorem HistInv.elect (h : HistInv m₀ H created) {x : NodeId} {t : Nat} (hno : H.elected t = none)
    (hpos : 0 < t) (hs : H.LogOk (H.cand t x)) (hco : (H.elect x t).Coherent m₀) :
    HistInv m₀ (H.elect x t) created := by
  have hext : Ext x H (H.elect x t) := History.ext_elect hno
  have hled : ∀ u, (H.elect x t).Led u → u = t ∨ u ≠ t ∧ H.Led u := by
    rintro u ⟨y, hy⟩
    by_cases hu : u = t
    · exact .inl hu
    · exact .inr ⟨hu, y, (update_of_ne hu _ _).symm.trans hy⟩
  have helog : (H.elect x t).elog t = H.cand t x := update_self ..
  have hstart : (H.elect x t).start t = H.cand t x := update_self ..
  have helog' : ∀ {u}, u ≠ t → (H.elect x t).elog u = H.elog u := fun hu => update_of_ne hu ..
  have hstart' : ∀ {u}, u ≠ t → (H.elect x t).start u = H.start u := fun hu =>
    update_of_ne hu ..
  refine ⟨hco, fun u hu => ?_, fun u hu => ?_, ⟨fun e u heu => ?_, fun u hu p e hp hlen => ?_⟩⟩
  · rcases hled u hu with rfl | ⟨-, hu⟩
    · exact hpos
    · exact h.positive u hu
  · rcases hled u hu with rfl | ⟨hne, hu⟩
    · rw [helog]
      exact h.numbered.log hs
    · rw [helog' hne]
      exact h.numbered u hu
  · obtain ⟨hl, p, hp, hlen, ht⟩ := h.created.sound e u heu
    exact ⟨hext.led hl, p, hp.trans (hext.elog _ hl), by rw [hext.start _ hl]; exact hlen, ht⟩
  · rcases hled u hu with rfl | ⟨hne, hu⟩
    · rw [helog] at hp
      rw [hstart] at hlen
      have := hp.length_le
      rw [length_append, length_singleton] at this
      omega
    · rw [helog' hne] at hp
      rw [hstart' hne] at hlen
      exact h.created.complete u hu p e hp hlen

section

variable (hrole : s.node.role = .candidate) (hq : s.node.membership.hasQuorum s.node.votes = true)
include hrole hq

/-- A candidate with a quorum: nobody else was elected, and its log has every commit before. -/
theorem Good.wins : H.elected s.node.hard.term = none ∧ sure <+: full ∧
      H.Wins s.node.hard.term s.node.cfg.id (cfg m₀ full) := by
  have hH := g.hist.coherent
  have hcand := g.node.cand hrole
  have hfull : H.cand s.node.hard.term s.node.cfg.id = full := hcand.cand
  have hs : H.LogOk (H.cand s.node.hard.term s.node.cfg.id) := hfull ▸ g.node.log.ok
  have hsu : ∀ e ∈ H.cand s.node.hard.term s.node.cfg.id, LogEntry.term e < s.node.hard.term := hfull ▸ hcand.terms
  have hwins : H.Wins s.node.hard.term s.node.cfg.id s.node.membership :=
    ⟨_, Membership.isQuorum_of_hasQuorum hq, hcand.votes⟩
  -- a node whose log misses its own snapshot would follow the snapshot's configuration and lose
  have hmem : s.node.membership = cfg m₀ full := by
    refine g.node.mem.current.resolve_right fun ⟨hdirty, hmem⟩ => hdirty ?_
    obtain ⟨u, hu, hcert⟩ := hcand.certified
    rcases hcert with rfl | ⟨t, n, k, hc, ht, hl⟩
    · exact nil_prefix
    · change s.node.membership = _ at hmem
      change u < s.node.hard.term at hu
      rw [hmem] at hwins
      rw [← hfull]
      exact hH.winner_contains_base hs hsu hwins hc (by omega) hl
  rw [hmem] at hwins
  have hwins' : H.Wins s.node.hard.term s.node.cfg.id (cfg m₀ (H.cand s.node.hard.term s.node.cfg.id)) := hfull ▸ hwins
  have hnone : H.elected s.node.hard.term = none := by
    rw [Option.eq_none_iff_forall_ne_some]
    intro z hz
    obtain rfl := hH.winner_unique hs hsu hwins' hz
    exact hcand.fresh hz
  refine ⟨hnone, ?_, hwins⟩
  obtain ⟨u, hu, hcert⟩ := hcand.certified
  rcases hcert with rfl | ⟨t, n, k, hc, ht, hl⟩
  · exact nil_prefix
  · change u < s.node.hard.term at hu
    rw [← hfull]
    refine hl.trans (hH.winner_contains (fun s _ => hH.carried s) (fun w hw => ?_) hs hsu hwins' hc (by omega))
    rw [hnone] at hw
    simp at hw

theorem Good.elect (hwf : Wf s.leading) : Grows m₀ strict soup H created s.leading := by
  have hH := g.hist.coherent
  have hcand := g.node.cand hrole
  have hfull : H.cand s.node.hard.term s.node.cfg.id = full := hcand.cand
  obtain ⟨hnone, hclean, hwins⟩ := g.wins hrole hq
  have hcommits : ∀ n k, ¬ H.commit s.node.hard.term n k := by
    intro n k hc
    obtain ⟨z, hz⟩ := hH.commit_led _ n k hc
    rw [hnone] at hz
    simp at hz
  have hpos : 0 < s.node.hard.term := by
    obtain ⟨u, hu, -⟩ := hcand.certified
    change u < s.node.hard.term at hu
    omega
  have hs : H.LogOk (H.cand s.node.hard.term s.node.cfg.id) := hfull ▸ g.node.log.ok
  have hext : Ext s.node.cfg.id H (H.elect s.node.cfg.id s.node.hard.term) := History.ext_elect hnone
  have hist := g.hist.elect hnone hpos hs (hH.elect hnone hs (hfull ▸ hcand.terms) (hfull ▸ hwins))
  have helected : (H.elect s.node.cfg.id s.node.hard.term).elected s.node.hard.term =
      some s.node.cfg.id := update_self ..
  have hlog := g.node.log.ext hH hext fun _ _ ha => ha
  refine g.step full sure hext hist hwf ?_
  exact
    { log := { hlog with }
      own :=
        { g.node.own with
          elected := fun t ht => by
            by_cases hteq : t = s.node.hard.term
            · exact hteq.le
            · exact g.node.own.elected t ((update_of_ne hteq _ _).symm.trans ht) }
      cand := fun hr => nomatch hr
      lead :=
        { led := fun _ =>
            { elected := helected
              elog := (update_self ..).trans hfull
              clean := hclean
              commits := fun n k hc => absurd hc (hcommits n k) }
          past := fun t ht => (Option.some.inj ht).ge
          matching := fun _ p k hk => by
            obtain rfl : k = 0 := getElem?_ofList_const hk
            exact History.RespOk.zero ⟨_, helected⟩ }
      mem := { g.node.mem with }
      transfer :=
        { outgoing := fun p o ho => by
            change (∅ : BTreeMap NodeId (Outgoing MemTable MemEntries))[p]? = some o at ho
            simp at ho
          incoming := fun _ h => nomatch h }
      out := fun env henv => by
        refine (g.node.out env henv).imp rfl (·.ext hH hext) fun t k hu => ?_
        have hu' := hu.ext hext (fun u y l hv _ => .inl hv) fun _ n k hc => hc
        have hvotes : s.node.votes = {s.node.cfg.id} := hcand.sole hu.pending
        exact { hu' with
          follower := fun hr => nomatch hr
          leader := fun _ => ⟨by rw [hvotes] at hq; exact hq, hcommits⟩ } }

end

end

end AtlasNative
