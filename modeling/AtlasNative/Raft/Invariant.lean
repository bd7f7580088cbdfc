import AtlasNative.Raft.Replay
import AtlasNative.Catalog.Stream

/-!
# What holds of every node

The invariants tie each node to a history of the group (`Consensus.History`). A node that has
compacted its log, or installed a snapshot, no longer holds all of it; `full` is the log it would
have without that, and `sure` the committed prefix it knows, the log its catalog was replayed from.
Normally `sure` is a prefix of `full`. A crash between the two steps that install a snapshot can
leave a log that disagrees with the snapshot (`LogInv.clean`); `strict` excludes this. Such a node
cannot win an election, and the next entries it takes from a leader repair it.

`soup` are the messages that have been released. A success response that is still in the outbox may
be ahead of the disk (`Unsynced`); it is released only after the log is synced.
-/

namespace AtlasNative

open Consensus List

/-- The part of a node the invariants of the group speak about. -/
structure View where
  id : NodeId
  membership : Membership
  initial : Membership
  role : Role
  hard : HardState
  log : List Entry
  snapshotIndex : Nat
  snapshotTerm : Nat
  commitIndex : Nat
  catalog : MemCatalog
  votes : BTreeSet NodeId
  matchIndex : BTreeMap NodeId Nat
  outgoing : BTreeMap NodeId (Outgoing MemTable MemEntries)
  incoming : Option (Incoming MemTable)
  outbox : List Envelope
  led : Option Nat

def RaftNode.Core.view (c : RaftNode.Core) : View := { c with }

def RaftNode.view (n : RaftNode) : View := n.core.view

section

variable (m₀ : Membership) (strict : Prop) (soup : Envelope → Prop) (H : History NodeId Entry)

/-- The node's log, catalog and store. -/
structure LogInv (v : View) (d : Disk) (full sure : List Entry) : Prop where
  ok : H.LogOk full
  log : v.log = full.drop v.snapshotIndex
  reach : v.snapshotIndex ≤ full.length
  terms : ∀ e ∈ full, e.term ≤ v.hard.term
  certified : H.Certified v.hard.term sure
  commit : sure.length = v.commitIndex
  catalog : Replay v.catalog (sure.take v.catalog.appliedIndex)
  store : ∃ c, d.store = some c ∧ Replay c (sure.take c.appliedIndex) ∧
    v.snapshotIndex ≤ c.appliedIndex
  snapshotTerm : v.snapshotTerm = lastTerm (sure.take v.snapshotIndex)
  clean : sure <+: full ∨ ¬ strict ∧ v.snapshotIndex = v.commitIndex ∧ sure.length < full.length
  acks : H.AckOk v.id v.hard.term (full.take (v.snapshotIndex + d.synced.length))

/-- What a node did is not ahead of the term and vote it has persisted. -/
structure OwnInv (x : NodeId) (hard : HardState) : Prop where
  vote : ∀ t y l, H.vote x t y l → t ≤ hard.term ∧ (t = hard.term → hard.votedFor = some y)
  ack : ∀ t m, H.ack x t m → t ≤ hard.term
  elected : ∀ t, H.elected t = some x → t ≤ hard.term

/-- `x` has asked for votes in `term`. -/
def AskedVotes (x : NodeId) (term : Nat) : Prop :=
  ∃ env li lt, soup env ∧ env.sender = x ∧ env.msg = .requestVote term li lt

structure CandInv (v : View) (d : Disk) (full sure : List Entry) : Prop where
  self : ∃ l, H.vote v.id v.hard.term v.id l
  cand : H.cand v.hard.term v.id = full
  fresh : H.elected v.hard.term ≠ some v.id
  votes : ∀ y ∈ v.votes, ∃ l, H.vote y v.hard.term v.id l
  terms : ∀ e ∈ full, e.term < v.hard.term
  certified : ∃ t < v.hard.term, H.Certified t sure
  asked : AskedVotes soup v.id v.hard.term → d.pending = []
  sole : d.pending ≠ [] → v.votes = {v.id}

/-- What holds of a node that was elected in its current term. -/
structure LedInv (v : View) (full sure : List Entry) : Prop where
  elected : H.elected v.hard.term = some v.id
  elog : H.elog v.hard.term = full
  clean : sure <+: full
  commits : ∀ n k, H.commit v.hard.term n k → n ≤ v.commitIndex

structure LeadInv (v : View) (full sure : List Entry) : Prop where
  led : v.led = some v.hard.term → LedInv H v full sure
  past : ∀ t, v.led = some t → t ≤ v.hard.term
  matching : v.role = .leader → ∀ (p : NodeId) k, v.matchIndex[p]? = some k →
    H.RespOk p v.hard.term k

/-- The node follows the last configuration of its log, or of its snapshot. -/
structure MemInv (v : View) (full sure : List Entry) : Prop where
  initial : v.initial = m₀
  current : v.membership = cfg m₀ full ∨ ¬ sure <+: full ∧ v.membership = cfg m₀ sure

/-- Transfers are of committed catalogs. -/
structure TransferInv (v : View) : Prop where
  outgoing : ∀ (p : NodeId) o, v.outgoing[p]? = some o →
    ∃ c l, Outgoing.Of c o ∧ Replay c l ∧ H.Certified v.hard.term l
  incoming : ∀ inc, v.incoming = some inc → ∃ c l, Replay c l ∧ H.Certified v.hard.term l ∧
    l.length = inc.index ∧ Outgoing.stagedNo c inc.seq = some inc.catalog

/-- What a released message guarantees. -/
def MsgInv (env : Envelope) : Prop := match env.msg with
  | .requestVote term li lt => (∃ l, H.vote env.sender term env.sender l) ∧
      li = (H.cand term env.sender).length ∧ lt = lastTerm (H.cand term env.sender)
  | .requestVoteResponse term true =>
      ((∃ l, H.vote env.sender term env.dest l) ∨ H.elected term = some env.dest) ∧
        AskedVotes soup env.dest term
  | .appendEntries term prev prevTerm entries lc _ => H.elected term = some env.sender ∧
      prev ≤ (H.elog term).length ∧ prevTerm = lastTerm ((H.elog term).take prev) ∧
      entries <+: (H.elog term).drop prev ∧ lc ≤ (H.elog term).length ∧
      H.Certified term ((H.elog term).take lc)
  | .appendEntriesResponse term true k _ => H.RespOk env.sender term k
  | .installSnapshot term index seq chunk => ∃ c l next, Replay c l ∧ H.Certified term l ∧
      l.length = index ∧ Outgoing.chunkNo c seq = some (chunk, next)
  | .installSnapshotResponse term m _ => ∃ l, H.Certified term l ∧ l.length = m
  | _ => True

/-- A success response for entries that may not be on disk yet. -/
structure Unsynced (v : View) (d : Disk) (full : List Entry) (t k : Nat) : Prop where
  pending : d.pending ≠ []
  le : t ≤ v.hard.term
  led : H.Led t
  len : k ≤ (H.elog t).length
  holds : (H.elog t).take k <+: full
  follower : v.role = .follower → t = v.hard.term
  leader : v.role = .leader → v.membership.hasQuorum {v.id} = true ∧
    ∀ n k, ¬ H.commit v.hard.term n k
  votes : ∀ u y l, H.vote v.id u y l → t < u → (H.elog t).take k <+: l

def OutInv (v : View) (d : Disk) (full : List Entry) (env : Envelope) : Prop :=
  env.sender = v.id ∧ (MsgInv soup H env ∨
    ∃ t k rs, env.msg = .appendEntriesResponse t true k rs ∧ Unsynced H v d full t k)

structure NodeInv (v : View) (d : Disk) (full sure : List Entry) : Prop where
  log : LogInv strict H v d full sure
  own : OwnInv H v.id v.hard
  cand : v.role = .candidate → CandInv soup H v d full sure
  lead : LeadInv H v full sure
  mem : MemInv m₀ v full sure
  transfer : TransferInv H v
  out : ∀ env ∈ v.outbox, OutInv soup H v d full env

/-- What a disk holds while its server is down, and after any prefix of a call's effects. -/
structure DiskInv (x : NodeId) (d : Disk) (full sure : List Entry) (base : Nat) : Prop where
  ok : H.LogOk full
  records : d.records = full.drop base
  reach : base ≤ full.length
  stored : base ≤ sure.length
  terms : ∀ e ∈ full, e.term ≤ d.hard.term
  certified : H.Certified d.hard.term sure
  store : Replay (d.store.getD {}) sure
  clean : strict → sure <+: full ∨ full.length ≤ sure.length
  acks : H.AckOk x d.hard.term (full.take (base + d.synced.length))
  own : OwnInv H x d.hard

/-- The entries leaders created, each with the term before it. -/
structure CreatedInv (created : List (Entry × Nat)) : Prop where
  sound : ∀ e t, (e, t) ∈ created → H.Led e.term ∧ ∃ p, p ++ [e] <+: H.elog e.term ∧
    (H.start e.term).length ≤ p.length ∧ t = lastTerm p
  complete : ∀ t, H.Led t → ∀ p e, p ++ [e] <+: H.elog t → (H.start t).length ≤ p.length →
    (e, lastTerm p) ∈ created

/-- What holds of the history itself. -/
structure HistInv (created : List (Entry × Nat)) : Prop where
  coherent : H.Coherent m₀
  positive : ∀ t, H.Led t → 0 < t
  numbered : Numbered H
  created : CreatedInv H created

/-- `e` is committed. -/
def AppliedInv (e : Entry) : Prop :=
  ∃ t l, H.Certified t l ∧ l[e.index - 1]? = some e ∧ e.index ≠ 0

end

/-! ### Other nodes' steps -/

section Ext

variable {m₀ : Membership} {strict : Prop} {soup soup' : Envelope → Prop}
  {H H' : History NodeId Entry} {v : View} {d : Disk} {full sure : List Entry} {x y : NodeId}

open History (Ext Untouched)

theorem OutInv.imp {v' : View} {d' : Disk} {full' : List Entry} {env : Envelope}
    (h : OutInv soup H v d full env) (hid : v'.id = v.id)
    (hmsg : MsgInv soup H env → MsgInv soup' H' env)
    (hu : ∀ t k, Unsynced H v d full t k → Unsynced H' v' d' full' t k) :
    OutInv soup' H' v' d' full' env := by
  obtain ⟨hs, h⟩ := h
  exact ⟨hs.trans hid.symm, h.imp hmsg fun ⟨t, k, rs, hm, h⟩ => ⟨t, k, rs, hm, hu t k h⟩⟩

theorem LeadInv.keep {v' : View} (h : LeadInv H v full sure)
    (hv : (v'.id, v'.hard, v'.led, v'.commitIndex) = (v.id, v.hard, v.led, v.commitIndex))
    (hm : v'.role = .leader → ∀ (p : NodeId) k, v'.matchIndex[p]? = some k →
      H.RespOk p v.hard.term k) : LeadInv H v' full sure := by
  simp only [Prod.mk.injEq] at hv
  obtain ⟨h1, h2, h3, h4⟩ := hv
  refine ⟨fun hl => ?_, fun t ht => ?_, h2 ▸ hm⟩
  · obtain ⟨a, b, c, e⟩ := h.led (h2 ▸ h3 ▸ hl)
    exact ⟨by rw [h1, h2, a], by rw [h2, b], c, h2 ▸ h4 ▸ e⟩
  · exact h2 ▸ h.past t (h3 ▸ ht)

section

variable (hH : H.Coherent m₀) (hext : Ext y H H')
include hH hext

theorem LogInv.ext (hack : ∀ t m, H'.ack v.id t m → H.ack v.id t m)
    (h : LogInv strict H v d full sure) : LogInv strict H' v d full sure :=
  { h with
    ok := hext.logOk h.ok
    certified := h.certified.ext hH hext
    acks := h.acks.ext hH hext hack }

omit hH hext in
theorem OwnInv.ext {hard : HardState} (hu : Untouched x H H') (h : OwnInv H x hard) : OwnInv H' x hard where
  vote t y l hv := h.vote t y l (hu.vote t y l hv)
  ack t m ha := h.ack t m (hu.ack t m ha)
  elected t ht := h.elected t (hu.elected t ht)

theorem CandInv.ext (hfresh : H'.elected v.hard.term ≠ some v.id) (h : CandInv soup H v d full sure) :
    CandInv soup H' v d full sure :=
  { h with
    self := h.self.imp fun _ hl => hext.vote _ _ _ _ hl
    cand := by
      obtain ⟨l, hl⟩ := h.self
      rw [hext.cand _ _ l hl]
      exact h.cand
    fresh := hfresh
    votes := fun z hz => (h.votes z hz).imp fun _ hl => hext.vote _ _ _ _ hl
    certified := h.certified.imp fun _ ht => ⟨ht.1, ht.2.ext hH hext⟩ }

omit hH hext in
theorem LedInv.ext (hext : Ext y H H') (hu : Untouched v.id H H') (h : LedInv H v full sure) :
    LedInv H' v full sure where
  elected := hext.elected _ _ h.elected
  elog := (hu.elog _ h.elected).trans h.elog
  clean := h.clean
  commits n k hc := h.commits n k (hu.commit _ n k h.elected hc)

theorem LeadInv.ext (hu : Untouched v.id H H') (h : LeadInv H v full sure) : LeadInv H' v full sure where
  led hl := (h.led hl).ext hext hu
  past := h.past
  matching hr p k hk := (h.matching hr p k hk).ext hH hext

theorem TransferInv.ext (h : TransferInv H v) : TransferInv H' v where
  outgoing p o ho := by
    obtain ⟨c, l, h1, h2, h3⟩ := h.outgoing p o ho
    exact ⟨c, l, h1, h2, h3.ext hH hext⟩
  incoming inc hinc := by
    obtain ⟨c, l, h1, h2, h3⟩ := h.incoming inc hinc
    exact ⟨c, l, h1, h2.ext hH hext, h3⟩

omit hH hext in
theorem AskedVotes.mono (hsoup : ∀ env, soup env → soup' env) {term : Nat}
    (h : AskedVotes soup x term) : AskedVotes soup' x term := by
  obtain ⟨env, li, lt, henv, h⟩ := h
  exact ⟨env, li, lt, hsoup env henv, h⟩

theorem MsgInv.ext {env : Envelope} (h : MsgInv soup H env) : MsgInv soup H' env := by
  unfold MsgInv at h ⊢
  split
  · rename_i hmsg
    simp only [hmsg] at h
    obtain ⟨⟨l, hl⟩, hli, hlt⟩ := h
    rw [hext.cand _ _ l hl]
    exact ⟨⟨l, hext.vote _ _ _ _ hl⟩, hli, hlt⟩
  · rename_i hmsg
    simp only [hmsg] at h
    refine ⟨h.1.imp ?_ (hext.elected _ _), h.2⟩
    exact fun ⟨l, hl⟩ => ⟨l, hext.vote _ _ _ _ hl⟩
  · rename_i hmsg
    simp only [hmsg] at h
    obtain ⟨h1, h2, h3, h4, h5, h6⟩ := h
    have hled : H.Led _ := ⟨_, h1⟩
    have hlen := hext.elog_length hled
    refine ⟨hext.elected _ _ h1, by omega, ?_, ?_, by omega, ?_⟩
    · rw [hext.take_elog hled h2]
      exact h3
    · obtain ⟨r, hr⟩ := hext.elog _ hled
      rw [← hr, drop_append_of_le_length h2]
      exact h4.trans (prefix_append _ _)
    · rw [hext.take_elog hled h5]
      exact h6.ext hH hext
  · rename_i hmsg
    simp only [hmsg] at h
    exact h.ext hH hext
  · rename_i hmsg
    simp only [hmsg] at h
    obtain ⟨c, l, next, h1, h2, h3⟩ := h
    exact ⟨c, l, next, h1, h2.ext hH hext, h3⟩
  · rename_i hmsg
    simp only [hmsg] at h
    obtain ⟨l, h1, h2⟩ := h
    exact ⟨l, h1.ext hH hext, h2⟩
  · trivial

omit hH hext in
theorem MsgInv.mono (hsoup : ∀ env, soup env → soup' env) {env : Envelope}
    (h : MsgInv soup H env) : MsgInv soup' H env := by
  unfold MsgInv at h ⊢
  split <;> rename_i hmsg <;> simp only [hmsg] at h
  case h_2 => exact ⟨h.1, h.2.mono hsoup⟩
  all_goals exact h

omit hH hext in
theorem Unsynced.ext (hext : Ext y H H') {t k : Nat}
    (hvote : ∀ u z l, H'.vote v.id u z l → t < u → H.vote v.id u z l ∨ (H.elog t).take k <+: l)
    (hcommit : v.role = .leader → ∀ n k, H'.commit v.hard.term n k → H.commit v.hard.term n k)
    (h : Unsynced H v d full t k) : Unsynced H' v d full t k :=
  { h with
    led := hext.led h.led
    len := h.len.trans (hext.elog_length h.led)
    holds := by
      rw [hext.take_elog h.led h.len]
      exact h.holds
    leader := fun hr => ⟨(h.leader hr).1, fun n k hc => (h.leader hr).2 n k (hcommit hr n k hc)⟩
    votes := fun u z l hv htu => by
      rw [hext.take_elog h.led h.len]
      rcases hvote u z l hv htu with hv | hl
      · exact h.votes u z l hv htu
      · exact hl }

theorem NodeInv.ext (hu : Untouched v.id H H') (hlead : v.role = .leader → v.led = some v.hard.term)
    (h : NodeInv m₀ strict soup H v d full sure) : NodeInv m₀ strict soup H' v d full sure where
  log := h.log.ext hH hext hu.ack
  own := h.own.ext hu
  cand hr := (h.cand hr).ext hH hext fun he => (h.cand hr).fresh (hu.elected _ he)
  lead := h.lead.ext hH hext hu
  mem := h.mem
  transfer := h.transfer.ext hH hext
  out env henv := (h.out env henv).imp rfl (·.ext hH hext) fun _ _ hk =>
    hk.ext hext (fun u z l hv _ => .inl (hu.vote u z l hv))
      fun hr n k hc => hu.commit _ n k (h.lead.led (hlead hr)).elected hc

omit hH hext in
theorem NodeInv.mono (hsoup : ∀ env, soup env → soup' env)
    (hnew : ∀ t, v.role = .candidate → AskedVotes soup' v.id t → AskedVotes soup v.id t)
    (h : NodeInv m₀ strict soup H v d full sure) : NodeInv m₀ strict soup' H v d full sure :=
  { h with
    cand := fun hr =>
      { h.cand hr with asked := fun ha => (h.cand hr).asked (hnew _ hr ha) }
    out := fun env henv => (h.out env henv).imp rfl (·.mono hsoup) fun _ _ hu => hu }

theorem DiskInv.ext {base : Nat} (hu : Untouched x H H') (h : DiskInv strict H x d full sure base) :
    DiskInv strict H' x d full sure base :=
  { h with
    ok := hext.logOk h.ok
    certified := h.certified.ext hH hext
    acks := h.acks.ext hH hext hu.ack
    own := h.own.ext hu }

theorem AppliedInv.ext {e : Entry} (h : AppliedInv H e) : AppliedInv H' e := by
  obtain ⟨t, l, hc, hl⟩ := h
  exact ⟨t, l, hc.ext hH hext, hl⟩

end

end Ext

/-! ### Disks -/

section Disk

variable {m₀ : Membership} {strict : Prop} {soup : Envelope → Prop}
  {H : History NodeId Entry} {s : NodeState} {full sure : List Entry} {x : NodeId}

theorem LogInv.disk (hwf : Wf s) (h : LogInv strict H s.node.view s.disk full sure)
    (hown : OwnInv H s.node.cfg.id s.node.hard) :
    ∃ l, DiskInv strict H s.node.cfg.id s.disk full l s.node.snapshotIndex := by
  obtain ⟨c, hc, hrep, hsi⟩ := h.store
  have hlen : (sure.take c.appliedIndex).length = c.appliedIndex := hrep.appliedIndex.symm
  have hpre : sure.take c.appliedIndex <+: sure := take_prefix _ _
  have hhard : s.node.view.hard = s.disk.hard := hwf.hard.symm
  refine ⟨sure.take c.appliedIndex, ⟨h.ok, hwf.records.trans h.log, h.reach, ?_, ?_, ?_, ?_, fun hs => ?_, ?_, ?_⟩⟩
  · rw [hlen]
    exact hsi
  · rw [← hhard]
    exact h.terms
  · rw [← hhard]
    exact h.certified.shorter hpre
  · rw [hc]
    exact hrep
  · rcases h.clean with hcl | ⟨hns, -⟩
    · exact .inl (hpre.trans hcl)
    · exact absurd hs hns
  · rw [← hhard]
    exact h.acks
  · rw [hwf.hard]
    exact hown

/-- A crash loses unsynced records. -/
theorem DiskInv.crash {d : Disk} {base : Nat} (h : DiskInv strict H x d full sure base) (kept : Nat) :
    ∃ full', DiskInv strict H x (d.crash kept) full' sure base := by
  obtain ⟨j, hj⟩ : ∃ j, j = d.synced.length + kept := ⟨_, rfl⟩
  have hpre : full.take (base + j) <+: full := take_prefix _ _
  have hrec : (d.crash kept).records = (full.take (base + j)).drop base := by
    rw [drop_take, show base + j - base = j by omega, ← h.records, hj]
    simp [Disk.crash, Disk.records, take_append, take_of_length_le]
  refine ⟨full.take (base + j), ⟨h.ok.mono hpre, hrec, ?_, h.stored,
    fun e he => h.terms e (hpre.subset he), h.certified, h.store, fun hs => ?_, ?_, h.own⟩⟩
  · have := h.reach
    simp
    omega
  · rcases h.clean hs with hcl | hlen
    · rcases prefix_or_prefix_of_prefix hcl hpre with h' | h'
      · exact .inl h'
      · exact .inr h'.length_le
    · exact .inr (hpre.length_le.trans hlen)
  · rw [take_take, min_eq_left (by simp [Disk.crash, hj])]
    exact h.acks

end Disk

end AtlasNative
