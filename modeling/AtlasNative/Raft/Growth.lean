import AtlasNative.Raft.Followers

/-!
# Actions keep the invariants: the catalog, its store and snapshots

The catalog is the replay of the committed prefix. A checkpoint stores it, after which the log up to
it may go; a snapshot brings a follower another node's catalog in place of entries.
-/

namespace AtlasNative

open Consensus RaftNode List Disk Option
open History (Ext Untouched)

variable {m₀ : Membership} {strict : Prop} {soup : Envelope → Prop} {H H' : History NodeId Entry}
  {created created' : List (Entry × Nat)} {s s' : NodeState} {full sure full' sure' : List Entry}

/-! ### Applying and checkpointing -/

/-- The next entry to apply is the next one known to be committed. -/
theorem LogInv.next_applied (h : LogInv strict H s.node.view s.disk full sure) {e : Entry}
    (hlt : s.node.catalog.appliedIndex < s.node.commitIndex)
    (he : s.node.entry (s.node.catalog.appliedIndex + 1) = some e) :
    sure[s.node.catalog.appliedIndex]? = some e := by
  obtain ⟨hsi, hfull⟩ := h.entry he
  rw [Nat.add_sub_cancel] at hfull
  have hcommit : sure.length = s.node.commitIndex := h.commit
  rcases h.clean with hcl | ⟨-, hdirty, -⟩
  · rw [← getElem?_longer hcl (by omega)]
    exact hfull
  · change s.node.snapshotIndex = s.node.commitIndex at hdirty
    omega

theorem NodeInv.store {v : View} {d d' : Disk} {c : MemCatalog} (h : NodeInv m₀ strict soup H v d full sure)
    (hlog : LogInv strict H { v with catalog := c } d' full sure) (hpend : d'.pending = d.pending) :
    NodeInv m₀ strict soup H { v with catalog := c } d' full sure where
  log := hlog
  own := h.own
  cand hr := { h.cand hr with
      asked := fun ha => hpend.trans ((h.cand hr).asked ha)
      sole := fun hp => (h.cand hr).sole (hpend ▸ hp) }
  lead := h.lead.keep rfl h.lead.matching
  mem := { h.mem with }
  transfer := { h.transfer with }
  out env henv := (h.out env henv).imp rfl id fun _ _ hu => { hu with pending := hpend ▸ hu.pending }

section

variable (g : Good m₀ strict soup H created s full sure)
include g

theorem Good.apply {e : Entry} {out : Outcome} {c : MemCatalog} (hlt : s.node.catalog.appliedIndex < s.node.commitIndex)
    (he : s.node.entry (s.node.catalog.appliedIndex + 1) = some e)
    (happ : s.node.catalog.applyCommitted e.term e.index e.command = (out, c))
    (hout : (∃ gc, out = .ok gc) ∨ ∃ err, out = .err err) (hwf : Wf (s.applied e c)) :
    Grows m₀ strict soup H created (s.applied e c) ∧ AppliedInv H e := by
  have hidx := entry_index g.wf.contiguous he
  have hnext := g.node.log.next_applied hlt he
  have happlied : s.node.catalog.appliedIndex =
      (sure.take s.node.catalog.appliedIndex).length := g.node.log.catalog.appliedIndex
  have hrep : Replay c (sure.take (s.node.catalog.appliedIndex + 1)) := by
    rw [take_succ_of_getElem? hnext]
    exact .concat g.node.log.catalog (by rw [hidx, ← happlied]) happ hout
  refine ⟨g.same full sure hwf (g.node.store (c := c) ?_ rfl),
    s.node.hard.term, sure, g.node.log.certified, ?_, by omega⟩
  · refine { g.node.log with catalog := ?_ }
    have hc := (MemCatalog.applyCommitted_stamp (by omega) happ hout).1
    rw [hc, hidx]
    exact hrep
  · rw [hidx, Nat.add_sub_cancel]
    exact hnext

theorem Good.checkpoint (hwf : Wf (s.emit (.checkpoint s.node.catalog))) :
    Grows m₀ strict soup H created (s.emit (.checkpoint s.node.catalog)) := by
  refine g.same full sure hwf (g.node.store (c := s.node.catalog) ?_ rfl)
  obtain ⟨c, hc, -, hsi⟩ := g.node.log.store
  obtain ⟨c', hc', hle⟩ := g.wf.store
  obtain rfl : c = c' := mem_unique hc hc'
  exact { g.node.log with store := ⟨_, rfl, g.node.log.catalog, hsi.trans hle⟩ }

/-! ### Compaction -/

omit g in
theorem NodeState.flush_compact (s : NodeState) (i t : Nat) : (s.flush.compact i t).node = (s.compact i t).node ∧
      (s.flush.compact i t).disk = (s.compact i t).disk := by
  refine ⟨rfl, ?_⟩
  simp [flush, compact, emit, update, perform, rewrite, records]

omit g in
theorem LogInv.compact (hwf : Wf s) (h : LogInv strict H s.node.view s.disk full sure) {i t : Nat}
    {c : MemCatalog} (hlo : s.node.snapshotIndex ≤ i) (hstore : s.disk.store = some c)
    (hi : i ≤ c.appliedIndex) (hterm : s.node.termAt i = some t) (hwf' : Wf (s.compact i t)) :
    LogInv strict H (s.compact i t).node.view (s.compact i t).disk full sure := by
  have hcommit : sure.length = s.node.commitIndex := h.commit
  have hlen := h.length
  obtain ⟨c', hc', hle⟩ := hwf.store
  obtain rfl : c = c' := mem_unique hstore hc'
  obtain ⟨c', hc', hrep, -⟩ := h.store
  obtain rfl : c = c' := mem_unique hstore hc'
  have hic : i ≤ s.node.commitIndex := hi.trans (hle.trans hwf.applied)
  have hbound := (termAt_bounds hterm).2
  have hlog : (s.compact i t).node.log = full.drop i := by
    show s.node.log.drop (i - s.node.snapshotIndex) = _
    rw [show s.node.log = full.drop s.node.snapshotIndex from h.log, drop_drop]
    congr 1
    omega
  exact { h with
      log := hlog
      reach := by
        show i ≤ full.length
        omega
      store := ⟨c, hstore, hrep, hi⟩
      snapshotTerm := by
        show t = Consensus.lastTerm (sure.take i)
        rcases h.clean with hcl | ⟨-, hdirty, -⟩
        · rw [(h.termAt hwf hcl hterm).2]
          obtain ⟨r, rfl⟩ := hcl
          rw [take_append_of_le_length (by omega)]
        · change s.node.snapshotIndex = s.node.commitIndex at hdirty
          obtain rfl : i = s.node.snapshotIndex := by omega
          rw [termAt_snapshot] at hterm
          rw [← some.inj hterm]
          exact h.snapshotTerm
      clean := h.clean.imp id fun ⟨h1, h2, h3⟩ => ⟨h1, by
        change s.node.snapshotIndex = s.node.commitIndex at h2
        show i = s.node.commitIndex
        omega, h3⟩
      acks := by
        have hsynced := hwf'.records
        have hpend : (s.compact i t).disk.pending = [] := rfl
        rw [records, hpend, append_nil, hlog] at hsynced
        show H.AckOk _ _ (full.take (i + (s.compact i t).disk.synced.length))
        rw [hsynced, length_drop, take_of_length_le (by omega)]
        exact h.acks.longer (List.take_prefix _ _) }

theorem Good.compact {i t : Nat} {c : MemCatalog} (hlo : s.node.snapshotIndex ≤ i)
    (hstore : s.disk.store = some c) (hi : i ≤ c.appliedIndex) (hterm : s.node.termAt i = some t)
    (hwf : Wf (s.compact i t)) : Grows m₀ strict soup H created (s.compact i t) := by
  -- rewriting the log file syncs it first
  obtain ⟨H1, full1, sure1, hext1, g1⟩ := g.flush
  obtain ⟨hnode, hdisk⟩ := s.flush_compact i t
  have hwf1 : Wf (s.flush.compact i t) := hwf.congr hnode hdisk
  have hlog := g1.node.log.compact g1.wf hlo hstore hi hterm hwf1
  refine ((g1.same full1 sure1 hwf1 ?_).after hext1).congr hnode.symm hdisk.symm
  exact
    { log := hlog
      own := g1.node.own
      cand := fun hr => { g1.node.cand hr with }
      lead := g1.node.lead.keep rfl g1.node.lead.matching
      mem := { g1.node.mem with }
      transfer := { g1.node.transfer with }
      out := fun env henv =>
        (g1.node.out env henv).imp rfl id fun _ _ hu => absurd rfl hu.pending }

/-! ### Transfers -/

omit g in
theorem NodeInv.transfers {v : View} {d : Disk} (h : NodeInv m₀ strict soup H v d full sure)
    (outgoing : BTreeMap NodeId (Outgoing MemTable MemEntries)) (incoming : Option (Incoming MemTable))
    (htr : TransferInv H { v with outgoing := outgoing, incoming := incoming }) :
    NodeInv m₀ strict soup H { v with outgoing := outgoing, incoming := incoming } d full sure where
  log := { h.log with }
  own := h.own
  cand hr := { h.cand hr with }
  lead := h.lead.keep rfl h.lead.matching
  mem := { h.mem with }
  transfer := htr
  out env henv := (h.out env henv).imp rfl id fun _ _ hu => { hu with }

/-- A chunk that arrives belongs to the transfer its index names. -/
theorem Good.chunk {env : Envelope} {T index seq : Nat} {chunk : Chunk} (henv : soup env)
    (hmsg : env.msg = .installSnapshot T index seq chunk) :
    ∃ c l next, Replay c l ∧ H.Certified T l ∧ l.length = index ∧ Outgoing.chunkNo c seq = some (chunk, next) := by
  have h := g.msgs env henv
  rw [MsgInv, hmsg] at h
  exact h

theorem Good.stage {env : Envelope} {index seq : Nat} {chunk : Chunk} {inc : Incoming MemTable}
    (henv : soup env) (hmsg : env.msg = .installSnapshot s.node.hard.term index seq chunk)
    (h : (∃ c, chunk = .header c ∧ seq = 0 ∧ inc = ⟨index, 0, c⟩) ∨
      ∃ inc' c, s.node.incoming = some inc' ∧ inc'.index = index ∧ seq = inc'.seq + 1 ∧
        inc'.catalog.stage chunk = .ok c ∧ inc = ⟨index, seq, c⟩)
    (hwf : Wf (s.update fun n => { n with incoming := some inc })) :
    Grows m₀ strict soup H created (s.update fun n => { n with incoming := some inc }) := by
  obtain ⟨c, l, next, hrep, hcert, hlen, hno⟩ := g.chunk henv hmsg
  refine g.same full sure hwf (g.node.transfers s.node.outgoing (some inc) ⟨g.node.transfer.outgoing, ?_⟩)
  intro inc1 hinc1
  obtain rfl : inc = inc1 := some.inj hinc1
  rcases h with ⟨c', rfl, rfl, rfl⟩ | ⟨inc', c', hinc', hidx, rfl, hstage, rfl⟩
  · refine ⟨c, l, hrep, hcert, hlen, ?_⟩
    obtain ⟨hc, -⟩ := Prod.mk.inj (some.inj hno)
    injection hc with hc
    exact congrArg some hc
  · obtain ⟨c0, l0, hrep0, hcert0, hlen0, hstaged⟩ := g.node.transfer.incoming inc' hinc'
    obtain rfl := hcert0.eq_of_length g.hist.coherent hcert (by omega)
    obtain rfl := hrep0.unique hrep
    refine ⟨c0, l0, hrep0, hcert0, hlen, ?_⟩
    simp [Outgoing.stagedNo, hstaged, hno, hstage, Except.toOption]

theorem Good.transfer {peer : NodeId} {o : Outgoing MemTable MemEntries}
    (h : s.node.NextChunk peer o) (hwf : Wf (s.update (·.sendChunk peer o))) :
    Grows m₀ strict soup H created (s.update (·.sendChunk peer o)) := by
  obtain ⟨c, l, hof, hrep, hcert⟩ : ∃ c l, Outgoing.Of c o ∧ Replay c l ∧ H.Certified s.node.hard.term l := by
    cases h with
    | start =>
      exact ⟨_, _, Outgoing.of_start _ _, g.node.log.catalog, g.node.log.certified.shorter (List.take_prefix _ _)⟩
    | again now h =>
      obtain ⟨c, l, hof, hrest⟩ := g.node.transfer.outgoing _ _ h
      exact ⟨c, l, { hof with }, hrest⟩
    | next now h hadv =>
      obtain ⟨c, l, hof, hrest⟩ := g.node.transfer.outgoing _ _ h
      exact ⟨c, l, hof.advance hadv, hrest⟩
  have htr : TransferInv H { s.node.view with
      outgoing := s.node.outgoing.insert peer o, incoming := s.node.incoming } := by
    refine ⟨fun p o' ho' => ?_, g.node.transfer.incoming⟩
    rcases Program.getElem?_of_insert ho' with ⟨-, rfl⟩ | ho'
    · exact ⟨c, l, hof, hrep, hcert⟩
    · exact g.node.transfer.outgoing p o' ho'
  have hnode := g.node.transfers _ _ htr
  refine g.same full sure hwf (hnode.outbox _ (forall_mem_append.mpr ⟨hnode.out, fun env henv => ?_⟩))
  rw [mem_singleton.mp henv]
  refine ⟨rfl, .inl ⟨c, l, o.next, hrep, hcert, ?_, hof.chunk⟩⟩
  rw [hof.index, hrep.appliedIndex]

theorem Good.endTransfer {peer : NodeId} (hwf : Wf (s.update fun n => { n with outgoing := n.outgoing.erase peer })) :
    Grows m₀ strict soup H created (s.update fun n => { n with outgoing := n.outgoing.erase peer }) := by
  refine g.same full sure hwf (g.node.transfers (s.node.outgoing.erase peer) s.node.incoming
    ⟨fun p o ho => ?_, g.node.transfer.incoming⟩)
  exact g.node.transfer.outgoing p o (Program.getElem?_of_erase ho)

end

/-! ### Installing a snapshot -/

/-- A crash between storing a snapshot and rewriting the log leaves a log that contradicts it: the
entry at the snapshot's index is of another term, and there are entries beyond it. -/
def Torn (x : Effect × Disk) : Prop := ∃ c, x.1 = .installStore c ∧
  ∃ e ∈ x.2.records, e.index = c.appliedIndex ∧ e.term ≠ c.currentTerm ∧
    ∃ e' ∈ x.2.records, c.appliedIndex < e'.index

/-- What has been staged when the last chunk arrives is the sender's catalog. -/
theorem Good.staged (g : Good m₀ strict soup H created s full sure) {env : Envelope} {seq : Nat}
    {inc : Incoming MemTable} (henv : soup env)
    (hmsg : env.msg = .installSnapshot s.node.hard.term inc.index seq .done)
    (hinc : s.node.incoming = some inc) (hseq : seq = inc.seq + 1) :
    ∃ l, Replay inc.catalog l ∧ H.Certified s.node.hard.term l ∧ l.length = inc.index := by
  obtain ⟨c, l, next, hrep, hcert, hlen, hno⟩ := g.chunk henv hmsg
  obtain ⟨c0, l0, hrep0, hcert0, hlen0, hstaged⟩ := g.node.transfer.incoming inc hinc
  obtain rfl := hcert0.eq_of_length g.hist.coherent hcert (by omega)
  obtain rfl := hrep0.unique hrep
  rw [hseq] at hno
  rw [Outgoing.staged_done hstaged hno]
  exact ⟨l0, hrep, hcert, hlen⟩

section Install

variable {c : MemCatalog} {l : List Entry}

/-- The log matches a snapshot exactly where it contains the log the snapshot replays. -/
theorem LogInv.prefix_of_termAt (hH : H.Coherent m₀) (h : LogInv strict H s.node.view s.disk full sure)
    (hcert : H.Certified s.node.hard.term l) (hnew : s.node.snapshotIndex < l.length) :
    s.node.termAt l.length = some (Consensus.lastTerm l) ↔ l <+: full := by
  obtain ⟨p, b, hb⟩ : ∃ p b, l = p ++ [b] := by
    rcases eq_nil_or_concat l with rfl | ⟨p, b, rfl⟩
    · simp at hnew
    · exact ⟨p, b, by simp⟩
  have hlast : l[l.length - 1]? = some b := by simp [hb]
  have hterm : Consensus.lastTerm l = b.term := by rw [hb, lastTerm_concat]; rfl
  have hlen : l.length - 1 + 1 = l.length := by omega
  constructor
  · intro ht
    obtain ⟨a, ha, hat⟩ := h.termAt_full hnew ht
    have htake := h.ok.take_eq (hcert.logOk hH) ha hlast (hat.trans hterm)
    rw [hlen, take_length] at htake
    rw [← htake]
    exact take_prefix _ _
  · intro hpre
    rw [termAt_of_lt hnew, h.getElem? hnew, getElem?_longer hpre (by omega), hlast, hterm]
    rfl

/-- The disk once the store is swapped and the log not yet rewritten. -/
theorem Good.swapStore (g : Good m₀ strict soup H created s full sure) (hrep : Replay c l)
    (hcert : H.Certified s.node.hard.term l) (hnew : s.node.commitIndex < l.length)
    (hkeep : strict → ¬ Torn (.installStore c, (s.swapStore c).disk)) :
    Image m₀ strict H created s.node.cfg.id (s.swapStore c).disk := by
  have hH := g.hist.coherent
  have hsi := g.wf.snapshot
  have hhard : s.disk.hard = s.node.hard := g.wf.hard
  have happ : c.appliedIndex = l.length := hrep.appliedIndex
  refine ⟨H, full, l, s.node.snapshotIndex, Ext.refl _ _, g.hist,
    ⟨g.node.log.ok, g.wf.records.trans g.node.log.log, g.node.log.reach, by omega, ?_, ?_, hrep, fun hs => ?_, ?_, ?_⟩⟩
  · show ∀ e ∈ full, e.term ≤ s.disk.hard.term
    rw [hhard]
    exact g.node.log.terms
  · show H.Certified s.disk.hard.term l
    rw [hhard]
    exact hcert
  · by_contra hbad
    rw [not_or, not_le] at hbad
    obtain ⟨hno, hlt⟩ := hbad
    -- entry `l.length` of the log is of another term, and there is one beyond it
    have hget : ∀ j, s.node.snapshotIndex ≤ j → j < full.length →
        ∃ e ∈ (s.swapStore c).disk.records, e.index = j + 1 ∧ full[j]? = some e := by
      intro j hj hjlt
      have hj' : s.node.log[j - s.node.snapshotIndex]? = full[j]? := by
        rw [show s.node.log = full.drop s.node.snapshotIndex from g.node.log.log,
          getElem?_drop, show s.node.snapshotIndex + (j - s.node.snapshotIndex) = j by omega]
      obtain ⟨e, he⟩ : ∃ e, full[j]? = some e := ⟨_, getElem?_eq_getElem hjlt⟩
      refine ⟨e, ?_, ?_, he⟩
      · show e ∈ s.disk.records
        rw [g.wf.records]
        exact mem_of_getElem? (hj'.trans he)
      · have := g.wf.contiguous _ _ (hj'.trans he)
        omega
    obtain ⟨e, hmem, hidx, he⟩ := hget (l.length - 1) (by omega) (by omega)
    obtain ⟨e', hmem', hidx', -⟩ := hget l.length (by omega) hlt
    refine hkeep hs ⟨c, rfl, e, hmem, by omega, fun hterm => hno ?_, e', hmem', by omega⟩
    refine (g.node.log.prefix_of_termAt hH hcert (by omega)).mp ?_
    rw [termAt_of_lt (by omega), g.node.log.getElem? (by omega), he, ← hrep.currentTerm, ← hterm]
    rfl
  · show H.AckOk _ s.disk.hard.term _
    rw [hhard]
    exact g.node.log.acks
  · show OwnInv H _ s.disk.hard
    rw [hhard]
    exact g.node.own

theorem NodeState.rebase_eq (s : NodeState) (c : MemCatalog) : ∃ log wal, (s.rebase c).node = { s.node with
      incoming := none, spec := none, catalog := c, log := log, wal := wal
      snapshotIndex := c.appliedIndex, snapshotTerm := c.currentTerm
      commitIndex := c.appliedIndex } ∧
    log = (if s.node.termAt c.appliedIndex = some c.currentTerm then
      s.node.log.drop (c.appliedIndex - s.node.snapshotIndex) else []) ∧
    (s.rebase c).disk.store = some c ∧ (s.rebase c).disk.pending = [] ∧
    (s.rebase c).disk.hard = s.disk.hard := by
  unfold rebase trimLog
  by_cases h : s.node.termAt c.appliedIndex = some c.currentTerm
  · rw [if_pos (show (s.swapStore c).node.termAt c.appliedIndex = _ from h), if_pos h]
    exact ⟨_, _, rfl, rfl, rfl, rfl, rfl⟩
  · rw [if_neg (show ¬ (s.swapStore c).node.termAt c.appliedIndex = _ from h), if_neg h]
    exact ⟨_, _, rfl, rfl, rfl, rfl, rfl⟩

/-- After the installation the log is the old one, if it matches, or the snapshot's. -/
theorem LogInv.rebase (hH : H.Coherent m₀) (hwf : Wf s)
    (h : LogInv strict H s.node.view s.disk full sure) (hrep : Replay c l)
    (hcert : H.Certified s.node.hard.term l) (hnew : s.node.commitIndex < l.length) :
    ∃ full', LogInv strict H (s.rebase c).node.view (s.rebase c).disk full' l ∧ (l <+: full → full' = full) := by
  have happ : c.appliedIndex = l.length := hrep.appliedIndex
  have hsi := hwf.snapshot
  have hiff := h.prefix_of_termAt hH hcert (by omega)
  rw [← happ, ← hrep.currentTerm] at hiff
  obtain ⟨log, wal, hnode, hlog, hstore, hpend, -⟩ := s.rebase_eq c
  have hrec := (hwf.rebase c).records
  rw [records, hpend, append_nil, hnode] at hrec
  -- both cases: the new log is `full'` above the snapshot, and `full'` keeps the acknowledgements
  have hmain : ∀ full', H.LogOk full' → (∀ e ∈ full', e.term ≤ s.node.hard.term) →
      log = full'.drop l.length → l <+: full' → H.AckOk s.node.cfg.id s.node.hard.term full' →
      LogInv strict H (s.rebase c).node.view (s.rebase c).disk full' l := by
    intro full' hok hterms hlog' hpre hack
    rw [hnode]
    exact
      { ok := hok
        log := by
          show log = full'.drop c.appliedIndex
          rw [happ, hlog']
        reach := by
          rw [happ]
          exact hpre.length_le
        terms := hterms
        certified := hcert
        commit := happ.symm
        catalog := by
          show Replay c (l.take c.appliedIndex)
          rwa [happ, take_length]
        store := ⟨c, hstore, by rwa [happ, take_length], le_rfl⟩
        snapshotTerm := by
          show c.currentTerm = Consensus.lastTerm (l.take c.appliedIndex)
          rw [happ, take_length, hrep.currentTerm]
        clean := .inl hpre
        acks := by
          rw [hrec]
          change H.AckOk _ _ (full'.take (c.appliedIndex + log.length))
          rw [hlog', length_drop, take_of_length_le (by omega)]
          exact hack }
  have hacks : H.AckOk s.node.cfg.id s.node.hard.term full := h.acks.longer (List.take_prefix _ _)
  by_cases hpre : l <+: full
  · refine ⟨full, hmain full h.ok h.terms ?_ hpre hacks, fun _ => rfl⟩
    rw [hlog, if_pos (hiff.mpr hpre), show s.node.log = full.drop s.node.snapshotIndex from h.log, drop_drop]
    congr 1
    omega
  · refine ⟨l, hmain l (hcert.logOk hH) (hcert.term_le hH) ?_ prefix_rfl ?_, fun h => absurd h hpre⟩
    · rw [hlog, if_neg (hiff.not.mpr hpre), drop_length]
    · exact hacks.of_certified hH hcert fun h => absurd h hpre

theorem NodeState.flush_rebase (s : NodeState) (c : MemCatalog) :
    (s.flush.rebase c).node = (s.rebase c).node ∧ (s.flush.rebase c).disk = (s.rebase c).disk := by
  unfold rebase trimLog
  by_cases h : s.node.termAt c.appliedIndex = some c.currentTerm
  · rw [if_pos (show (s.swapStore c).node.termAt c.appliedIndex = _ from h),
      if_pos (show (s.flush.swapStore c).node.termAt c.appliedIndex = _ from h)]
    refine ⟨rfl, ?_⟩
    simp [flush, swapStore, emit, update, perform, rewrite, records]
  · rw [if_neg (show ¬ (s.swapStore c).node.termAt c.appliedIndex = _ from h),
      if_neg (show ¬ (s.flush.swapStore c).node.termAt c.appliedIndex = _ from h)]
    refine ⟨rfl, ?_⟩
    simp [flush, swapStore, emit, update, perform, rewrite, records]

theorem Good.install (g : Good m₀ strict soup H created s full sure) (hrole : s.node.role = .follower)
    (hrep : Replay c l) (hcert : H.Certified s.node.hard.term l)
    (hnew : s.node.commitIndex < l.length) :
    Grows m₀ strict soup H created (s.adopt c) := by
  -- rewriting the log file syncs it first
  obtain ⟨H1, full1, sure1, hext1, g1⟩ := g.flush
  have hH := g1.hist.coherent
  have hcert1 : H1.Certified s.node.hard.term l := hcert.ext g.hist.coherent hext1
  obtain ⟨full2, hlog, hsame⟩ := g1.node.log.rebase hH g1.wf hrep hcert1 hnew
  have hwf : Wf (s.flush.rebase c) := g1.wf.rebase c
  obtain ⟨hnode, hdisk⟩ := s.flush_rebase c
  have hinit := g1.node.mem.initial
  obtain ⟨log, wal, heq, -, -, hpend, -⟩ := s.flush.rebase_eq c
  have heff := hlog.effective hH g1.valid hwf (by rw [heq]; exact hinit)
  have hinv : NodeInv m₀ strict soup H1 (s.flush.rebase c).node.settledView (s.flush.rebase c).disk
      full2 l := by
    rw [heq] at hlog heff ⊢
    exact
      { log := { hlog with }
        own := g1.node.own
        cand := fun hr => nomatch hrole.symm.trans hr
        lead :=
          { led := fun hl => by
              have h := g1.node.lead.led hl
              have helog : H1.elog s.node.hard.term = full1 := h.elog
              have hpre : l <+: full1 := helog ▸ hcert1.le_elog hH le_rfl ⟨_, h.elected⟩
              rw [hsame hpre]
              refine ⟨h.elected, h.elog, hpre, fun n k hc => ?_⟩
              have h1 : n ≤ s.node.commitIndex := h.commits n k hc
              show n ≤ c.appliedIndex
              rw [hrep.appliedIndex]
              omega
            past := g1.node.lead.past
            matching := fun hr => nomatch hrole.symm.trans hr }
        mem := ⟨hinit, heff⟩
        transfer := ⟨g1.node.transfer.outgoing, fun _ h => nomatch h⟩
        out := fun env henv =>
          (g1.node.out env henv).imp rfl id fun _ _ hu => absurd rfl hu.pending }
  have hgrow := g1.same _ _ hwf.refresh (hinv.refreshed hwf)
  refine (hgrow.after ?_).congr ?_ hdisk.symm
  · change Ext (refreshMembership _).cfg.id H H1
    rw [refreshMembership_cfg, heq]
    exact hext1
  · exact congrArg refreshMembership hnode.symm

end Install

/-!
## Every action keeps the invariants

`Action.grows` puts the actions together: from a good state every action leads to a good one, what
it applied is committed, and so is the disk good between the two effects of an action that has two,
unless they are those of a torn snapshot installation.
-/

open NodeState
open Relation (ReflTransGen)

/-! ### Sending -/

theorem LogInv.termAt_exists (h : LogInv strict H s.node.view s.disk full sure) {i : Nat}
    (hlo : s.node.snapshotIndex ≤ i) (hhi : i ≤ full.length) : ∃ t, s.node.termAt i = some t := by
  cases ht : s.node.termAt i with
  | some t => exact ⟨t, rfl⟩
  | none =>
    have := termAt_none hlo ht
    have := h.length
    omega

section

variable (g : Good m₀ strict soup H created s full sure)
include g

theorem Good.sendsAppend {dest : NodeId} {prev count : Nat}
    (hl : s.node.led = some s.node.hard.term) (hprev : s.node.snapshotIndex ≤ prev)
    (hlast : prev ≤ s.node.lastIndex) :
    MsgInv soup H ⟨s.node.cfg.id, dest, .appendEntries s.node.hard.term prev
      ((s.node.termAt prev).getD 0) ((s.node.log.drop (prev - s.node.snapshotIndex)).take count)
      s.node.commitIndex s.node.readSeq, s.node.epoch⟩ := by
  have hled := g.node.lead.led hl
  have helog : H.elog s.node.hard.term = full := hled.elog
  rw [g.node.log.lastIndex g.wf] at hlast
  have hsure := g.node.log.sure_eq hled.clean
  have hcommit : sure.length = s.node.commitIndex := g.node.log.commit
  obtain ⟨t, ht⟩ := g.node.log.termAt_exists hprev hlast
  refine ⟨hled.elected, ?_, ?_, ?_, ?_, ?_⟩
  · rw [helog]
    exact hlast
  · rw [helog, ht]
    exact (g.node.log.termAt g.wf hled.clean ht).2
  · rw [helog, show s.node.log = full.drop s.node.snapshotIndex from g.node.log.log, drop_drop,
      show s.node.snapshotIndex + (prev - s.node.snapshotIndex) = prev by omega]
    exact take_prefix _ _
  · rw [helog, ← hcommit]
    exact hled.clean.length_le
  · rw [helog, ← hsure]
    exact g.node.log.certified

theorem Good.sends {dest : NodeId} {epoch : Nat} {msg : Message} (h : s.node.Sends dest epoch msg)
    (hwf : Wf (s.update (·.reply dest epoch msg))) :
    Grows m₀ strict soup H created (s.update (·.reply dest epoch msg)) := by
  refine g.reply hwf ⟨rfl, .inl ?_⟩
  cases h with
  | requestVote hrole =>
    have hcand := g.node.cand hrole
    have hfull : H.cand s.node.hard.term s.node.cfg.id = full := hcand.cand
    refine ⟨hcand.self, ?_, ?_⟩
    · rw [hfull]
      exact g.node.log.lastIndex g.wf
    · rw [hfull]
      exact g.node.log.lastTerm g.wf
  | append prev count hl hprev hlast => exact g.sendsAppend hl hprev hlast
  | snapshotResponse => exact ⟨sure, g.node.log.certified, g.node.log.commit⟩
  | preVote | preVoteResponse | voteRefused | readIndex | readRefused => trivial

theorem Good.confirm {sender : Option NodeId} {seq : Nat} (hwf : Wf (s.update (·.confirmReads sender seq))) :
    Grows m₀ strict soup H created (s.update (·.confirmReads sender seq)) := by
  obtain ⟨reads, out, res, heq, hout⟩ := s.node.confirmReads_eq sender seq
  refine g.send hwf out (by rw [heq]; rfl) fun env henv => ?_
  obtain ⟨hs, id, index, hmsg⟩ := hout env henv
  refine ⟨hs, .inl ?_⟩
  rw [MsgInv, hmsg]
  trivial

end

/-! ### One action -/

/-- What one action does to the trace of the call in progress, and what holds after it and, where
it has two effects, between them. -/
structure Advances (m₀ : Membership) (strict : Prop) (soup : Envelope → Prop)
    (H : History NodeId Entry) (created : List (Entry × Nat)) (s s' : NodeState)
    (new : List (Effect × Disk)) : Prop where
  trace : s'.trace = s.trace ++ new
  grows : Grows m₀ strict soup H (created ++ createdOf new) s'
  applied : ∀ e ∈ appliedOf new, AppliedInv H e
  between : ∀ x y, new = [x, y] → (strict → ¬ Torn x) →
    appliedOf [x] = [] ∧ Image m₀ strict H (created ++ createdOf [x]) s.node.cfg.id x.2
  short : new.length ≤ 2
  last : ∀ x, new.getLast? = some x → s'.disk = x.2

/-- An action without effects, or with one that is neither an application nor a creation. -/
theorem Advances.nil (ht : s'.trace = s.trace) (h : Grows m₀ strict soup H created s') :
    Advances m₀ strict soup H created s s' [] where
  trace := by rw [ht, append_nil]
  grows := by
    rw [show createdOf [] = [] from rfl, append_nil]
    exact h
  applied e he := by simp [appliedOf] at he
  between x y h := by simp at h
  short := by simp
  last x h := by simp at h

theorem Advances.one {x : Effect × Disk} (ht : s'.trace = s.trace ++ [x])
    (hc : createdOf [x] = []) (ha : ∀ e ∈ appliedOf [x], AppliedInv H e) (hd : s'.disk = x.2)
    (h : Grows m₀ strict soup H created s') : Advances m₀ strict soup H created s s' [x] where
  trace := ht
  grows := by
    rw [hc, append_nil]
    exact h
  applied := ha
  between x y h := by simp at h
  short := by simp
  last y hy := by
    obtain rfl : x = y := by simpa using hy
    exact hd

section

variable (g : Good m₀ strict soup H created s full sure)
include g

theorem Good.createAdvances {command : MetaCommand} (hrole : s.node.role = .leader)
    (hcfg : ∀ m a, command = .changeMembership m a → s.node.MayChange m) :
    ∃ new, Advances m₀ strict soup H created s (s.create command) new := by
  have hgrow := g.create hrole hcfg
  obtain ⟨hdisk, htrace⟩ := s.create_disk command
  refine ⟨_, htrace, hgrow, by simp [appliedOf], ?_, by simp, ?_⟩
  · -- before the append the disk is as a crash that loses the record would leave it
    intro x y hxy _
    obtain ⟨rfl, -⟩ : _ ∧ _ := by simpa using hxy
    refine ⟨rfl, ?_⟩
    obtain ⟨H', full', sure', hext, g'⟩ := hgrow
    have hid : (s.create command).node.cfg.id = s.node.cfg.id := by
      obtain ⟨next, mtch, hnode, -⟩ := s.create_node command
      rw [hnode]
    obtain ⟨l, hl⟩ := g'.node.log.disk g'.wf g'.node.own
    obtain ⟨f, hf⟩ := hl.crash s.disk.pending.length
    rw [hid] at hext hf
    have hsame : (s.create command).disk.crash s.disk.pending.length = s.disk := by
      rw [hdisk]
      simp [Disk.crash, Disk.perform]
    rw [hsame] at hf
    exact ⟨H', f, l, _, hext, g'.hist, hf⟩
  · intro x hx
    obtain rfl : _ = x := by simpa using hx
    exact hdisk

theorem Good.followAdvances (term : Nat) (leader : Option NodeId) (hpend : s.disk.pending = []) :
    ∃ new, Advances m₀ strict soup H created s (s.followed term leader) new := by
  have hgrow := g.follow term leader hpend
  have htrace : (s.followed term leader).trace = (s.raiseTerm term).trace := rfl
  have hdisk : (s.followed term leader).disk = (s.raiseTerm term).disk := rfl
  unfold raiseTerm at htrace hdisk
  by_cases hlt : s.node.hard.term < term
  · rw [if_pos hlt] at htrace hdisk
    exact ⟨_, .one htrace rfl (by simp [appliedOf]) hdisk hgrow⟩
  · rw [if_neg hlt] at htrace
    exact ⟨_, .nil htrace hgrow⟩

omit g in
theorem Advances.takeOver {e : Entry} {i : Nat}
    (h : Grows m₀ strict soup H created (((s.cut i).push e).update refreshMembership) ∧
      Image m₀ strict H created s.node.cfg.id (s.cut i).disk) :
    ∃ new, Advances m₀ strict soup H created s (((s.cut i).push e).update refreshMembership) new := by
  refine ⟨[(.walKeepUpTo i, (s.cut i).disk), (.walAppend e, ((s.cut i).push e).disk)], ?_, ?_,
    by simp [appliedOf], ?_, by simp, ?_⟩
  · simp [cut, push, emit, update]
  · simpa [createdOf] using h.1
  · intro x y hxy _
    obtain ⟨rfl, -⟩ : _ ∧ _ := by simpa using hxy
    exact ⟨rfl, by simpa [createdOf] using h.2⟩
  · intro x hx
    obtain rfl : _ = x := by simpa using hx
    rfl

omit g in
theorem NodeState.adopt_trace (s : NodeState) (c : MemCatalog) : ∃ eff, (s.adopt c).trace =
      s.trace ++ [(.installStore c, (s.swapStore c).disk), (eff, (s.adopt c).disk)] ∧
    createdOf [(eff, (s.adopt c).disk)] = [] ∧ appliedOf [(eff, (s.adopt c).disk)] = [] := by
  unfold adopt rebase trimLog
  by_cases h : (s.swapStore c).node.termAt c.appliedIndex = some c.currentTerm
  · rw [if_pos h]
    exact ⟨.walKeepAbove c.appliedIndex, by simp [update, emit, swapStore], rfl, rfl⟩
  · rw [if_neg h]
    exact ⟨.walClear, by simp [update, emit, swapStore], rfl, rfl⟩

theorem Good.installAdvances {env : Envelope} {seq : Nat} {inc : Incoming MemTable}
    (henv : soup env) (hmsg : env.msg = .installSnapshot s.node.hard.term inc.index seq .done)
    (hrole : s.node.role = .follower) (hinc : s.node.incoming = some inc) (hseq : seq = inc.seq + 1)
    (hnew : s.node.commitIndex < inc.index) :
    ∃ new, Advances m₀ strict soup H created s (s.adopt inc.catalog) new := by
  obtain ⟨l, hrep, hcert, hlen⟩ := g.staged henv hmsg hinc hseq
  have hgrow := g.install hrole hrep hcert (by omega)
  obtain ⟨eff, htrace, hcr, hap⟩ := s.adopt_trace inc.catalog
  refine ⟨_, htrace, ?_, ?_, ?_, by simp, ?_⟩
  · have : createdOf [(.installStore inc.catalog, (s.swapStore inc.catalog).disk),
        (eff, (s.adopt inc.catalog).disk)] = createdOf [(eff, (s.adopt inc.catalog).disk)] := rfl
    rw [this, hcr, append_nil]
    exact hgrow
  · have : appliedOf [(.installStore inc.catalog, (s.swapStore inc.catalog).disk),
        (eff, (s.adopt inc.catalog).disk)] = appliedOf [(eff, (s.adopt inc.catalog).disk)] := rfl
    rw [this, hap]
    simp
  · intro x y hxy htorn
    obtain ⟨rfl, -⟩ : _ ∧ _ := by simpa using hxy
    exact ⟨rfl, by simpa [createdOf] using g.swapStore hrep hcert (by omega) htorn⟩
  · intro x hx
    obtain rfl : _ = x := by simpa using hx
    rfl

end

/-- Every action goes from a good state to a good one. -/
theorem Action.advances {w : Setting} (h : Action w s s') (g : Good m₀ strict w.soup H created s full sure) :
    ∃ new, Advances m₀ strict w.soup H created s s' new := by
  have hwf := h.wf g.wf
  cases h with
  | quiet f hcore =>
    exact ⟨_, .nil rfl (g.view hwf (congrArg Core.view hcore) rfl)⟩
  | refresh => exact ⟨_, .nil rfl g.refresh⟩
  | flush => exact ⟨_, .one rfl rfl (by simp [appliedOf]) rfl g.flush⟩
  | prepare v f hrole hcore => exact ⟨_, .nil rfl (g.prepare hwf hcore)⟩
  | campaign => exact ⟨_, .one rfl rfl (by simp [appliedOf]) rfl (g.campaign hwf)⟩
  | ballot env hrole henv hdest hmsg => exact ⟨_, .nil rfl (g.ballot hrole henv hdest hmsg hwf)⟩
  | elect hrole hq => exact ⟨_, .nil rfl (g.elect hrole hq hwf)⟩
  | follow term leader hterm hpend => exact g.followAdvances term leader hpend
  | vote env henv hdest hmsg hfree hlog =>
    exact ⟨_, .one rfl rfl (by simp [appliedOf]) rfl (g.vote henv hmsg hfree hlog hwf)⟩
  | speculate => exact ⟨_, .nil rfl (g.view hwf rfl rfl)⟩
  | create command spec hrole hcfg =>
    obtain ⟨new, h⟩ := (g.withSpec spec).createAdvances hrole hcfg
    exact ⟨new, h.trace, h.grows, h.applied, h.between, h.short, h.last⟩
  | matched env hrole henv hdest htell hk f hcore =>
    exact ⟨_, .nil rfl (g.matched hrole henv htell hk hcore hwf)⟩
  | commit i hrole hlt hle hterm hq hsolo =>
    exact ⟨_, .nil rfl (g.commit hrole hlt hle hterm hq hsolo hwf)⟩
  | takeNew env henv hrole hmsg hlink hlo hidx hterm =>
    exact ⟨_, .one rfl rfl (by simp [appliedOf]) rfl (g.takeNew henv hrole hmsg hlink hlo hidx hterm)⟩
  | takeOver env henv hrole hmsg hlink hlo hidx hterm hne hcommit =>
    exact Advances.takeOver (g.takeOver henv hrole hmsg hlink hlo hidx hterm hne hcommit)
  | learn env henv hrole hmsg hlink hc => exact ⟨_, .nil rfl (g.learn henv hrole hmsg hlink hc hwf)⟩
  | apply e out c hlt he happ hout =>
    obtain ⟨hgrow, happlied⟩ := g.apply hlt he happ hout hwf
    refine ⟨_, .one rfl rfl (fun a ha => ?_) rfl hgrow⟩
    obtain rfl : a = e := by simpa [appliedOf] using ha
    exact happlied
  | checkpoint => exact ⟨_, .one rfl rfl (by simp [appliedOf]) rfl (g.checkpoint hwf)⟩
  | compact i t c hlo hstore hi hterm =>
    exact ⟨_, .one rfl rfl (by simp [appliedOf]) rfl (g.compact hlo hstore hi hterm hwf)⟩
  | stage env inc henv hmsg hst => exact ⟨_, .nil rfl (g.stage henv hmsg hst hwf)⟩
  | unstage =>
    exact ⟨_, .nil rfl (g.same full sure hwf (g.node.transfers s.node.outgoing none
      ⟨g.node.transfer.outgoing, fun _ h => nomatch h⟩))⟩
  | install env inc henv hmsg hrole hinc hseq hnew =>
    exact g.installAdvances henv hmsg hrole hinc hseq hnew
  | transfer peer o hnext => exact ⟨_, .nil rfl (g.transfer hnext hwf)⟩
  | endTransfer peer => exact ⟨_, .nil rfl (g.endTransfer hwf)⟩
  | send dest epoch msg hsend => exact ⟨_, .nil rfl (g.sends hsend hwf)⟩
  | answer env msg henv hdest hans => exact ⟨_, .nil rfl (g.answer henv hans hwf)⟩
  | confirm sender seq => exact ⟨_, .nil rfl (g.confirm hwf)⟩
  | newRead | register | result | forget => exact ⟨_, .nil rfl (g.view hwf rfl rfl)⟩

/-! ### A call -/

/-- From `H` node `x` has gone on, applying `applied`, to leave `d` on its disk. -/
def Leaves (m₀ : Membership) (strict : Prop) (H : History NodeId Entry) (created : List (Entry × Nat))
    (applied : List Entry) (x : NodeId) (d : Disk) : Prop :=
  ∃ H' full sure base, Ext x H H' ∧ HistInv m₀ H' created ∧ (∀ e ∈ applied, AppliedInv H' e) ∧
    DiskInv strict H' x d full sure base

/-- What a sequence of actions from `s₀` has led to, with the disk after each of its effects. -/
structure Reaches (m₀ : Membership) (strict : Prop) (soup : Envelope → Prop)
    (H : History NodeId Entry) (created : List (Entry × Nat)) (s₀ s : NodeState)
    (fx : List (Effect × Disk)) : Prop where
  trace : s.trace = s₀.trace ++ fx
  id : s.node.cfg.id = s₀.node.cfg.id
  good : ∃ H' full sure, Ext s₀.node.cfg.id H H' ∧
    Good m₀ strict soup H' (created ++ createdOf fx) s full sure ∧ ∀ e ∈ appliedOf fx, AppliedInv H' e
  disks : ∀ k x, fx[k]? = some x → (strict → ¬ Torn x) →
    Leaves m₀ strict H (created ++ createdOf (fx.take (k + 1))) (appliedOf (fx.take (k + 1)))
      s₀.node.cfg.id x.2

theorem createdOf_append (a b : List (Effect × Disk)) :
    createdOf (a ++ b) = createdOf a ++ createdOf b := filterMap_append

theorem appliedOf_append (a b : List (Effect × Disk)) :
    appliedOf (a ++ b) = appliedOf a ++ appliedOf b := filterMap_append

theorem Reaches.refl (g : Good m₀ strict soup H created s full sure) : Reaches m₀ strict soup H created s s [] where
  trace := (append_nil _).symm
  id := rfl
  good := ⟨H, full, sure, Ext.refl _ _, by simpa [createdOf] using g, by simp [appliedOf]⟩
  disks k x h := by simp at h

theorem Reaches.step {w : Setting} {s0 : NodeState} {fx : List (Effect × Disk)}
    (h : Reaches m₀ strict w.soup H created s0 s fx) (ha : Action w s s')
    (hid : s'.node.cfg.id = s.node.cfg.id) :
    ∃ fx', Reaches m₀ strict w.soup H created s0 s' fx' := by
  obtain ⟨H1, full1, sure1, hext1, g1, happ1⟩ := h.good
  obtain ⟨new, hadv⟩ := ha.advances g1
  obtain ⟨H2, full2, sure2, hext2, g2⟩ := hadv.grows
  have hco1 := g1.hist.coherent
  rw [hid, h.id] at hext2
  have hid' : s'.node.cfg.id = s0.node.cfg.id := hid.trans h.id
  have happ2 : ∀ e ∈ appliedOf (fx ++ new), AppliedInv H2 e := by
    intro e he
    rw [appliedOf_append, mem_append] at he
    rcases he with he | he
    · exact (happ1 e he).ext hco1 hext2
    · exact (hadv.applied e he).ext hco1 hext2
  have hhist : HistInv m₀ H2 (created ++ createdOf (fx ++ new)) := by
    rw [createdOf_append, ← append_assoc]
    exact g2.hist
  refine ⟨fx ++ new, ?_, hid', ⟨H2, full2, sure2, hext1.trans hext2, ?_, happ2⟩, ?_⟩
  · rw [hadv.trace, h.trace, append_assoc]
  · exact ⟨g2.valid, g2.msgs, hhist, g2.wf, g2.node⟩
  · intro k x hx hnt
    rcases lt_or_ge k fx.length with hk | hk
    · rw [getElem?_append_left hk] at hx
      rw [take_append_of_le_length hk]
      exact h.disks k x hx hnt
    · rw [getElem?_append_right hk] at hx
      obtain ⟨hlt, -⟩ := List.getElem?_eq_some_iff.mp hx
      by_cases hlast : k + 1 = fx.length + new.length
      · -- the disk after the last effect is that of the state reached
        have hx' : new.getLast? = some x := by
          rw [getLast?_eq_getElem?, ← hx]
          congr 1
          omega
        rw [take_of_length_le (by simp; omega)]
        obtain ⟨l, hl⟩ := g2.node.log.disk g2.wf g2.node.own
        rw [hid', hadv.last x hx'] at hl
        exact ⟨H2, _, l, _, hext1.trans hext2, hhist, happ2, hl⟩
      · -- between two effects
        have hshort := hadv.short
        obtain ⟨a, b, rfl⟩ := length_eq_two.mp (show new.length = 2 by omega)
        obtain rfl : k = fx.length := by
          simp only [length_cons, length_nil] at hlt hlast
          omega
        obtain rfl : a = x := by simpa using hx
        obtain ⟨hnone, H3, full3, sure3, base, hext3, hist3, hd⟩ := hadv.between a b rfl hnt
        rw [h.id] at hext3 hd
        have htake : (fx ++ [a, b]).take (fx.length + 1) = fx ++ [a] := by
          simp [take_append]
        rw [htake]
        refine ⟨H3, full3, sure3, base, hext1.trans hext3, ?_, ?_, hd⟩
        · rw [createdOf_append, ← append_assoc]
          exact hist3
        · intro e he
          rw [appliedOf_append, hnone, append_nil] at he
          exact (happ1 e he).ext hco1 hext3

end AtlasNative
