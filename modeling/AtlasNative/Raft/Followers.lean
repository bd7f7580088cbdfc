import AtlasNative.Raft.Preserve

/-!
# Actions keep the invariants: the leader's log

A leader appends entries to the log of its term, learns what its peers hold, and counts an index of
its term as committed once a quorum holds it.
-/

namespace AtlasNative

open Consensus List Option Std.ExtTreeMap Std.ExtTreeSet LogEntry Function
open History (Ext Untouched)

variable {m₀ : Membership} {strict : Prop} {soup : Envelope → Prop} {H H' : History NodeId Entry}
  {created created' : List (Entry × Nat)} {s s' : NodeState} {full sure full' sure' : List Entry}

section

variable (g : Good m₀ strict soup H created s full sure) (hrole : s.node.role = .leader)
include g hrole

theorem Good.led : LedInv H s.node.view full sure := g.node.lead.led (g.wf.led hrole)

/-- A leader follows the configuration of its log. -/
theorem Good.membership : s.node.membership = cfg m₀ full :=
  g.node.mem.current.resolve_right fun h => h.1 (g.led hrole).clean

omit g hrole in
theorem LogInv.sure_eq (h : LogInv strict H s.node.view s.disk full sure) (hclean : sure <+: full) :
    sure = full.take s.node.commitIndex := by
  have hlen : sure.length = s.node.commitIndex := h.commit
  rw [← hlen]
  exact prefix_iff_eq_take.mp hclean

/-! ### Creating entries -/

omit g hrole in
theorem LogInv.plain_of_configIndex (hwf : Wf s) (h : LogInv strict H s.node.view s.disk full sure)
    (hcfg : s.node.configIndex.any (s.node.commitIndex < ·) = false) :
    Plain (full.drop s.node.commitIndex) := by
  have hsi := hwf.snapshot
  have hsplit := take_append_drop (s.node.commitIndex - s.node.snapshotIndex) s.node.log
  have hdrop : s.node.log.drop (s.node.commitIndex - s.node.snapshotIndex) = full.drop s.node.commitIndex := by
    rw [show s.node.log = full.drop s.node.snapshotIndex from h.log, drop_drop]
    congr 1
    omega
  rw [hdrop] at hsplit
  intro e he
  rw [← not_isSome_iff_eq_none]
  intro hsome
  -- the newest configuration would be at or above `e`
  obtain ⟨e', he'⟩ : ∃ e', (full.drop s.node.commitIndex).reverse.find? (fun e => (config e).isSome) = some e' :=
    isSome_iff_exists.mp (find?_isSome.mpr ⟨e, mem_reverse.mpr he, hsome⟩)
  have hmem : e' ∈ full.drop s.node.commitIndex := mem_reverse.mp (mem_of_find?_eq_some he')
  have hfind : s.node.configIndex = some e'.index := by
    rw [RaftNode.configIndex, ← hsplit, reverse_append, find?_append, he']
    rfl
  rw [hfind, any_some, decide_eq_false_iff_not] at hcfg
  refine hcfg ?_
  obtain ⟨j, hj⟩ := mem_iff_getElem?.mp hmem
  have hcont := hwf.contiguous.drop (s.node.commitIndex - s.node.snapshotIndex)
  rw [hdrop] at hcont
  have := hcont j e' hj
  omega

/-- A leader that has committed in its term knows the last such commit. -/
theorem Good.commit_of_termAt (hterm : s.node.termAt s.node.commitIndex = some s.node.hard.term) :
    ∃ k, H.commit s.node.hard.term s.node.commitIndex k := by
  have hH := g.hist.coherent
  have hled := g.led hrole
  obtain ⟨-, hlast⟩ := g.node.log.termAt g.wf hled.clean hterm
  rw [← g.node.log.sure_eq hled.clean] at hlast
  have hpos := g.hist.positive _ ⟨_, hled.elected⟩
  change 0 < s.node.hard.term at hpos
  have hne : sure ≠ [] := by
    rintro rfl
    rw [lastTerm_nil] at hlast
    omega
  obtain ⟨n, k, hc, hl⟩ := g.node.log.certified.commit_of_lastTerm hH hne hlast.symm
  have hle : n ≤ s.node.commitIndex := hled.commits n k hc
  have hge := hl.length_le
  have hcommit : sure.length = s.node.commitIndex := g.node.log.commit
  rw [length_take] at hge
  obtain rfl : n = s.node.commitIndex := by omega
  exact ⟨k, hc⟩

omit g hrole in
theorem HistInv.extend (h : HistInv m₀ H created) {x : NodeId} {t : Nat} {e : Entry}
    (hx : H.elected t = some x) (he : e.term = t) (hidx : e.index = (H.elog t).length + 1)
    (hco : (H.extend t e).Coherent m₀) :
    HistInv m₀ (H.extend t e) (created ++ [(e, lastTerm (H.elog t))]) := by
  have hext : Ext x H (H.extend t e) := History.ext_extend hx e
  have helog : (H.extend t e).elog t = H.elog t ++ [e] := update_self ..
  have helog' : ∀ {u}, u ≠ t → (H.extend t e).elog u = H.elog u := fun hu => update_of_ne hu ..
  have hstart := (h.coherent.start_prefix t ⟨x, hx⟩).length_le
  refine ⟨hco, h.positive, fun u hu => ?_, ⟨fun e' u heu => ?_, fun u hu p e' hp hlen => ?_⟩⟩
  · by_cases hut : u = t
    · subst hut
      rw [helog]
      exact (h.numbered u hu).concat (by omega)
    · rw [helog' hut]
      exact h.numbered u hu
  · rcases mem_append.mp heu with heu | heu
    · obtain ⟨hl, p, hp, hlen, ht⟩ := h.created.sound e' u heu
      exact ⟨hl, p, hp.trans (hext.elog _ hl), hlen, ht⟩
    · obtain ⟨rfl, rfl⟩ := Prod.mk.inj (mem_singleton.mp heu)
      rw [he]
      exact ⟨⟨x, hx⟩, H.elog t, by rw [helog], hstart, rfl⟩
  · by_cases hut : u = t
    · subst hut
      rw [helog] at hp
      rcases prefix_concat_iff.mp hp with heq | hp
      · obtain ⟨rfl, rfl⟩ := append_singleton_inj.mp heq
        exact mem_append_right _ (mem_singleton_self _)
      · exact mem_append_left _ (h.created.complete u hu p e' hp hlen)
    · rw [helog' hut] at hp
      exact mem_append_left _ (h.created.complete u hu p e' hp hlen)

theorem Good.create {command : MetaCommand} (hcfg : ∀ m a, command = .changeMembership m a → s.node.MayChange m) :
    Grows m₀ strict soup H (created ++ [(s.nextEntry command, s.node.lastTerm)]) (s.create command) := by
  have hH := g.hist.coherent
  have hled := g.led hrole
  have hel : H.elected s.node.hard.term = some s.node.cfg.id := hled.elected
  have helog : H.elog s.node.hard.term = full := hled.elog
  have hmem := g.membership hrole
  obtain ⟨e, he⟩ : ∃ e, s.nextEntry command = e := ⟨_, rfl⟩
  have hterm : e.term = s.node.hard.term := by rw [← he]; rfl
  have hidx : e.index = full.length + 1 := by
    rw [← he, ← g.node.log.lastIndex g.wf]
    rfl
  -- a configuration is only created when the last commit is of this term and covers the current one
  have hchange : ∀ m, config e = some m → s.node.membership.Follows m ∧
      ∃ n k, H.commit s.node.hard.term n k ∧ Plain (full.drop n) := by
    intro m hm
    have hcmd : ∃ a, command = .changeMembership m a := by
      rw [← he] at hm
      cases command <;> simp [config, NodeState.nextEntry] at hm
      exact ⟨_, by rw [hm]⟩
    obtain ⟨a, hcmd⟩ := hcmd
    obtain ⟨hfol, hat, hci⟩ := hcfg m a hcmd
    obtain ⟨k, hc⟩ := g.commit_of_termAt hrole hat
    exact ⟨hfol, _, k, hc, g.node.log.plain_of_configIndex g.wf hci⟩
  have hext : Ext s.node.cfg.id H (H.extend s.node.hard.term e) := History.ext_extend hel e
  have hco : (H.extend s.node.hard.term e).Coherent m₀ := by
    refine hH.extend hel hterm fun m hm => ?_
    obtain ⟨hfol, n, k, hc, hplain⟩ := hchange m hm
    rw [helog, ← hmem]
    exact ⟨hfol, n, k, hc, hplain⟩
  have hist := g.hist.extend hel hterm (by rw [helog]; exact hidx) hco
  rw [helog, ← g.node.log.lastTerm g.wf] at hist
  have helog' : (H.extend s.node.hard.term e).elog s.node.hard.term = full ++ [e] := by
    rw [← helog]
    exact update_self ..
  obtain ⟨next, mtch, hnode, hm⟩ := s.create_node command
  obtain ⟨hdisk, -⟩ := s.create_disk command
  have hreach : s.node.snapshotIndex ≤ full.length := g.node.log.reach
  have hsynced := g.node.log.synced_le g.wf
  have hpre : full <+: full ++ [e] := prefix_append _ _
  rw [he] at hnode hdisk ⊢
  refine g.step (full ++ [e]) sure (by rw [hnode]; exact hext) hist (g.wf.create command) ?_
  rw [hnode, hdisk]
  exact
    { log :=
        { g.node.log.ext hH hext fun _ _ ha => ha with
          ok := helog' ▸ hco.elog_ok ⟨_, hel⟩
          log := by
            show s.node.log ++ [e] = (full ++ [e]).drop s.node.snapshotIndex
            rw [drop_append_of_le_length hreach,
              show s.node.log = full.drop s.node.snapshotIndex from g.node.log.log]
          reach := g.node.log.reach.trans hpre.length_le
          terms := fun a ha => by
            rcases mem_append.mp ha with ha | ha
            · exact g.node.log.terms a ha
            · rw [mem_singleton.mp ha]
              exact hterm.le
          clean := .inl (hled.clean.trans hpre)
          acks := by
            show History.AckOk _ _ _ ((full ++ [e]).take (s.node.snapshotIndex + s.disk.synced.length))
            rw [take_append_of_le_length hsynced]
            exact g.node.log.acks.ext hH hext fun _ _ ha => ha }
      own := { g.node.own with }
      cand := fun hr => by
        rw [show s.node.role = .candidate from hr] at hrole
        exact nomatch hrole
      lead :=
        { led := fun _ => ⟨hel, helog', hled.clean.trans hpre, hled.commits⟩
          past := g.node.lead.past
          matching := fun _ p k hk => by
            rcases hm p k hk with hk | rfl
            · exact (g.node.lead.matching hrole p k hk).ext hH hext
            · exact History.RespOk.zero ⟨_, hel⟩ }
      mem :=
        { initial := g.node.mem.initial
          current := .inl (by
            show (config e).getD s.node.membership = _
            rw [cfg_concat, hmem]) }
      transfer := { (g.node.transfer.ext hH hext) with }
      out := fun env henv => by
        refine (g.node.out env henv).imp rfl (·.ext hH hext) fun t k hu => ?_
        have hu' := hu.ext hext (fun u y l hv _ => .inl hv) fun _ n k hc => hc
        obtain ⟨hq, hno⟩ := hu.leader hrole
        exact { hu' with
          pending := by simp [Disk.perform]
          holds := hu'.holds.trans hpre
          leader := fun _ => by
            refine ⟨?_, hno⟩
            cases hc : config e with
            | none => exact hq
            | some m =>
              obtain ⟨-, n, k, hc, -⟩ := hchange m hc
              exact absurd hc (hno n k) } }

/-! ### Counting what peers hold -/

theorem Good.tells {env : Envelope} (henv : soup env) {m : Nat}
    (htell : s.node.Tells env.sender env.msg m) : H.RespOk env.sender s.node.hard.term m := by
  have hled := g.led hrole
  have hLed : H.Led s.node.hard.term := ⟨_, hled.elected⟩
  have h := g.msgs env henv
  generalize hmsg : env.msg = msg at htell
  rw [MsgInv, hmsg] at h
  cases htell with
  | ack rs => exact h
  | installed m ack =>
    obtain ⟨l, hl, rfl⟩ := h
    have hpre := hl.le_elog g.hist.coherent le_rfl hLed
    have hle := hpre.length_le
    refine ⟨hLed, (min_le_left _ _).trans hle, .inr (hl.shorter ?_)⟩
    conv_rhs => rw [prefix_iff_eq_take.mp hpre]
    exact take_prefix_take_left (min_le_left _ _)

theorem Good.matched {env : Envelope} {m k : Nat} (henv : soup env) (htell : s.node.Tells env.sender env.msg m)
    (hk : k = max ((s.node.matchIndex[env.sender]?).getD 0) m) {f : RaftNode → RaftNode}
    (h : (f s.node).core = { s.node.core with matchIndex := s.node.matchIndex.insert env.sender k })
    (hwf : Wf (s.update f)) : Grows m₀ strict soup H created (s.update f) := by
  have hnew : H.RespOk env.sender s.node.hard.term k := by
    rcases le_total ((s.node.matchIndex[env.sender]?).getD 0) m with hle | hle
    · rw [hk, max_eq_right hle]
      exact g.tells hrole henv htell
    · rw [hk, max_eq_left hle]
      cases hold : s.node.matchIndex[env.sender]? with
      | none => exact History.RespOk.zero ⟨_, (g.led hrole).elected⟩
      | some j => exact g.node.lead.matching hrole _ j hold
  refine g.same full sure hwf ?_
  rw [show (s.update f).node.view = (f s.node).core.view from rfl, h]
  exact
    { log := { g.node.log with }
      own := g.node.own
      cand := fun hr => { g.node.cand hr with }
      lead := g.node.lead.keep rfl fun hr p j hj => by
        change (s.node.matchIndex.insert env.sender k)[p]? = some j at hj
        rcases Program.getElem?_of_insert hj with ⟨rfl, rfl⟩ | hj
        · exact hnew
        · exact g.node.lead.matching hr p j hj
      mem := { g.node.mem with }
      transfer := { g.node.transfer with }
      out := fun env henv => (g.node.out env henv).imp rfl id fun _ _ hu => { hu with } }

end

/-! ### Committing -/

theorem Wf.syncedIndex (h : Wf s) : s.node.wal.syncedIndex = s.node.snapshotIndex + s.disk.synced.length := by
  have hrec := congrArg length h.records
  rw [Disk.records, length_append] at hrec
  have h1 := h.synced
  have h2 := h.last
  omega

theorem mem_foldl_insert {l : List NodeId} {acc : BTreeSet NodeId} {x : NodeId}
    (h : x ∈ l.foldl (fun acc y => acc.insert y) acc) : x ∈ acc ∨ x ∈ l := by
  induction l generalizing acc with
  | nil => exact .inl h
  | cons y l ih =>
    rcases ih h with h | h
    · rcases mem_insert.mp h with h | h
      · rw [Std.compare_eq_iff_eq] at h
        exact .inr (by simp [h])
      · exact .inl h
    · exact .inr (mem_cons_of_mem _ h)

theorem RaftNode.mem_acksFor {n : RaftNode} {i : Nat} {x : NodeId} (h : x ∈ RaftM.acksFor n i) :
    (∃ m, n.matchIndex[x]? = some m ∧ i ≤ m) ∨ x = n.cfg.id ∧ i ≤ n.wal.syncedIndex := by
  have hpeer : x ∈ (n.matchIndex.filter fun _ m => i ≤ m).keys.foldl (fun acc y => acc.insert y)
      (∅ : BTreeSet NodeId) → ∃ m, n.matchIndex[x]? = some m ∧ i ≤ m := by
    intro h
    rcases mem_foldl_insert h with h | h
    · simp at h
    · obtain ⟨m, hm⟩ : ∃ m, (n.matchIndex.filter fun _ m => i ≤ m)[x]? = some m := by
        rw [← isSome_iff_exists, isSome_getElem?_iff_mem]
        exact mem_keys.mp h
      rw [getElem?_filter', filter_eq_some_iff] at hm
      exact ⟨m, hm.1, by simpa using hm.2⟩
  rw [RaftM.acksFor] at h
  split at h
  · rename_i hi
    rcases mem_insert.mp h with h | h
    · rw [Std.compare_eq_iff_eq] at h
      exact .inr ⟨h.symm, hi⟩
    · exact .inl (hpeer h)
  · exact .inl (hpeer h)

/-- What the leader records when it counts index `i`: its own acknowledgement, if its log is synced
that far, and the commit. -/
def committed (H : History NodeId Entry) (n : RaftNode) (i k : Nat) : History NodeId Entry :=
  (H.addAcks n.cfg.id {a | a = (n.hard.term, i) ∧ i ≤ n.wal.syncedIndex}).addCommit n.hard.term i k

section

variable {i : Nat} (g : Good m₀ strict soup H created s full sure) (hrole : s.node.role = .leader)
  (hlt : s.node.commitIndex < i)
include g hrole hlt

/-- The entry a leader commits is its own, and beyond what it has committed before. -/
theorem Good.new_commit (hle : i ≤ full.length) (hterm : s.node.termAt i = some s.node.hard.term) :
    (H.start s.node.hard.term).length < i ∧ ¬ H.Certified s.node.hard.term (full.take i) := by
  have hH := g.hist.coherent
  have hled := g.led hrole
  have hLed : H.Led s.node.hard.term := ⟨_, hled.elected⟩
  have helog : H.elog s.node.hard.term = full := hled.elog
  obtain ⟨-, hlast⟩ := g.node.log.termAt g.wf hled.clean hterm
  have hlen : (full.take i).length = i := by
    rw [length_take]
    omega
  have hne : full.take i ≠ [] := by
    intro h
    rw [h, length_nil] at hlen
    omega
  refine ⟨?_, fun hcert => ?_⟩
  · by_contra hge
    have hpre : full.take i <+: H.start s.node.hard.term :=
      prefix_of_prefix_length_le (List.take_prefix _ _) (helog ▸ hH.start_prefix _ hLed) (by omega)
    obtain ⟨e, he, hte⟩ := lastTerm_mem hne
    have := hH.start_terms _ hLed e (hpre.subset he)
    omega
  · obtain ⟨n, k, hc, hl⟩ := hcert.commit_of_lastTerm hH hne hlast.symm
    have h1 : n ≤ s.node.commitIndex := hled.commits n k hc
    have h2 := hl.length_le
    rw [hlen, length_take] at h2
    omega

omit g hrole hlt in
theorem LogInv.advance (hwf : Wf s) (h : LogInv strict H s.node.view s.disk full sure)
    (hpre : sure <+: sure') (hclean : sure' <+: full) (hcert : H.Certified s.node.hard.term sure') :
    LogInv strict H { s.node.view with commitIndex := sure'.length } s.disk full sure' := by
  have hcommit : sure.length = s.node.commitIndex := h.commit
  have htake : ∀ {i}, i ≤ s.node.commitIndex → sure'.take i = sure.take i := by
    intro i hi
    obtain ⟨r, rfl⟩ := hpre
    rw [take_append_of_le_length (by omega)]
  obtain ⟨c, hc, hrep, hsi⟩ := h.store
  obtain ⟨c', hc', hle⟩ := hwf.store
  obtain rfl : c = c' := mem_unique hc hc'
  exact
    { ok := h.ok
      log := h.log
      reach := h.reach
      terms := h.terms
      certified := hcert
      commit := rfl
      catalog := by
        show Replay s.node.catalog (sure'.take s.node.catalog.appliedIndex)
        rw [htake hwf.applied]
        exact h.catalog
      store := ⟨c, hc, by rw [htake (hle.trans hwf.applied)]; exact hrep, hsi⟩
      snapshotTerm := by
        show s.node.snapshotTerm = Consensus.lastTerm (sure'.take s.node.snapshotIndex)
        rw [htake hwf.snapshot]
        exact h.snapshotTerm
      clean := .inl hclean
      acks := h.acks }

theorem Good.commit (hle : i ≤ s.node.lastIndex) (hterm : s.node.termAt i = some s.node.hard.term)
    (hquorum : s.node.membership.hasQuorum (RaftM.acksFor s.node i) = true)
    (hsolo : s.node.Solo → s.disk.pending = [])
    (hwf : Wf (s.update fun n => { n with commitIndex := i })) :
    Grows m₀ strict soup H created (s.update fun n => { n with commitIndex := i }) := by
  have hH := g.hist.coherent
  have hled := g.led hrole
  have hel : H.elected s.node.hard.term = some s.node.cfg.id := hled.elected
  have helog : H.elog s.node.hard.term = full := hled.elog
  have hmem := g.membership hrole
  have hsync := g.wf.syncedIndex
  rw [g.node.log.lastIndex g.wf] at hle
  obtain ⟨hstart, hnew⟩ := g.new_commit hrole hlt hle hterm
  let H1 := H.addAcks s.node.cfg.id {a | a = (s.node.hard.term, i) ∧ i ≤ s.node.wal.syncedIndex}
  have hext1 : Ext s.node.cfg.id H H1 := History.ext_addAcks _ _
  have hco1 : H1.Coherent m₀ := by
    refine hH.addAcks fun t m ha => ?_
    obtain ⟨⟨rfl, rfl⟩, -⟩ : (t = s.node.hard.term ∧ m = i) ∧ _ := ⟨Prod.mk.inj ha.1, ha.2⟩
    refine ⟨⟨_, hel⟩, by rw [helog]; exact hle, fun u y l hv htu => ?_⟩
    have : u ≤ s.node.hard.term := (g.node.own.vote u y l hv).1
    omega
  have hext : Ext s.node.cfg.id H (committed H s.node i full.length) :=
    hext1.trans (History.ext_addCommit (H := H1) hel i full.length)
  have hco : (committed H s.node i full.length).Coherent m₀ := by
    refine hco1.addCommit ⟨_, hel⟩ ⟨hstart, hle, by rw [show H1.elog = H.elog from rfl, helog]⟩ ?_
    refine ⟨{x | x ∈ RaftM.acksFor s.node i}, ?_, fun x hx => ?_⟩
    · rw [show H1.elog = H.elog from rfl, helog, take_length, ← hmem]
      exact Membership.isQuorum_of_hasQuorum hquorum
    · rcases RaftNode.mem_acksFor hx with ⟨m, hm, him⟩ | ⟨rfl, hi⟩
      · obtain ⟨-, -, hresp⟩ := g.node.lead.matching hrole x m hm
        rcases hresp with ⟨k, hk, ha⟩ | hc
        · exact ⟨k, him.trans hk, .inl ha⟩
        · -- what peers hold only because it is committed is below the commit index
          rw [show H.elog s.node.view.hard.term = full from helog] at hc
          exact absurd (hc.shorter (take_prefix_take_left him)) hnew
      · exact ⟨i, le_rfl, .inr ⟨rfl, rfl, hi⟩⟩
  have hlog1 : LogInv strict (committed H s.node i full.length) s.node.view s.disk full sure := { g.node.log with
      ok := hext.logOk g.node.log.ok
      certified := g.node.log.certified.ext hH hext
      acks := by
        rintro t m (ha | ⟨-, ha, hi⟩) n hn
        · exact g.node.log.acks t m ha n hn
        · obtain ⟨rfl, rfl⟩ := Prod.mk.inj ha
          left
          rw [show (committed H s.node m full.length).elog = H.elog from rfl, helog]
          refine take_prefix_take_left ?_
          show n ≤ s.node.snapshotIndex + s.disk.synced.length
          omega }
  have hcommit : sure.length = s.node.commitIndex := g.node.log.commit
  have hlen : (full.take i).length = i := by
    rw [length_take]
    omega
  have hsure : sure <+: full.take i := prefix_of_prefix_length_le hled.clean (List.take_prefix _ _) (by omega)
  have hcert : (committed H s.node i full.length).Certified s.node.hard.term (full.take i) := by
    refine .inr ⟨s.node.hard.term, i, full.length, .inr ⟨rfl, rfl, rfl⟩, le_rfl, ?_⟩
    rw [show (committed H s.node i full.length).elog = H.elog from rfl, helog]
  have hlog := hlog1.advance g.wf hsure (List.take_prefix _ _) hcert
  rw [hlen] at hlog
  refine g.step full (full.take i) hext
    (g.hist.of_elog hco rfl rfl rfl) hwf ?_
  exact
    { log := hlog
      own := { g.node.own with
          ack := by
            rintro t m (ha | ⟨-, ha, -⟩)
            · exact g.node.own.ack t m ha
            · exact (Prod.mk.inj ha).1.le }
      cand := fun hr => by
        rw [show s.node.role = .candidate from hr] at hrole
        exact nomatch hrole
      lead :=
        { led := fun _ => ⟨hel, helog, take_prefix _ _, by
            rintro n k (hc | ⟨-, rfl, -⟩)
            · exact (hled.commits n k hc).trans hlt.le
            · exact le_rfl⟩
          past := g.node.lead.past
          matching := fun hr p k hk => (g.node.lead.matching hr p k hk).ext hH hext }
      mem := ⟨g.node.mem.initial, .inl hmem⟩
      transfer := { (g.node.transfer.ext hH hext) with }
      out := fun env henv => (g.node.out env henv).imp rfl (·.ext hH hext)
        fun _ _ hu => absurd (hsolo (hu.leader hrole).1) hu.pending }

end

/-!
## Actions keep the invariants: a follower's log

A follower takes entries from the leader of its term where its log meets the leader's, drops what
disagrees with them, and learns how much is committed. Where the logs meet, they agree on
everything before (`LogInv.agree`).
-/

open RaftNode

variable {prev prevTerm lc i : Nat} {entries : List Entry}

/-- What an `AppendEntries` message of term `T` says about its leader's log. -/
structure Shows (H : History NodeId Entry) (T prev prevTerm : Nat) (entries : List Entry)
    (lc : Nat) : Prop where
  led : H.Led T
  prev_le : prev ≤ (H.elog T).length
  prevTerm_eq : prevTerm = lastTerm ((H.elog T).take prev)
  entries : entries <+: (H.elog T).drop prev
  commit_le : lc ≤ (H.elog T).length
  certified : H.Certified T ((H.elog T).take lc)

variable {env : Envelope} {T rs : Nat}

theorem Good.shows (g : Good m₀ strict soup H created s full sure) (henv : soup env)
    (hmsg : env.msg = .appendEntries T prev prevTerm entries lc rs) :
    Shows H T prev prevTerm entries lc := by
  have h := g.msgs env henv
  rw [MsgInv, hmsg] at h
  obtain ⟨h1, h2, h3, h4, h5, h6⟩ := h
  exact ⟨⟨_, h1⟩, h2, h3, h4, h5, h6⟩

theorem Shows.leaderTerm {t : Nat} (h : Shows H T prev prevTerm entries lc) (hi : 0 < i)
    (ht : leaderTerm prev prevTerm entries i = some t) :
    ∃ e, (H.elog T)[i - 1]? = some e ∧ e.term = t := by
  unfold AtlasNative.leaderTerm at ht
  split at ht
  · simp at ht
  split at ht
  · rename_i hprev
    subst hprev
    have hlt : i - 1 < (H.elog T).length := by
      have := h.prev_le
      omega
    refine ⟨(H.elog T)[i - 1], getElem?_eq_getElem hlt, ?_⟩
    have htake := take_succ_of_getElem? (getElem?_eq_getElem hlt)
    rw [show i - 1 + 1 = i by omega] at htake
    rw [← some.inj ht, h.prevTerm_eq, htake, lastTerm_concat]
    rfl
  · obtain ⟨e, he, rfl⟩ := map_eq_some_iff.mp ht
    refine ⟨e, ?_, rfl⟩
    obtain ⟨r, hr⟩ := h.entries
    obtain ⟨hlt, -⟩ := List.getElem?_eq_some_iff.mp he
    have := congrArg (·[i - prev - 1]?) hr
    rw [getElem?_append_left hlt, he, getElem?_drop] at this
    rw [this]
    congr 1
    omega

variable {a b : List Entry} {e : Entry}

theorem Shows.entry (h : Shows H T prev prevTerm (a ++ e :: b) lc) : (H.elog T)[prev + a.length]? = some e := by
  obtain ⟨r, hr⟩ := h.entries
  have := congrArg (·[a.length]?) hr
  rw [getElem?_drop] at this
  rw [← this]
  simp

section

variable (hH : H.Coherent m₀) (h : LogInv strict H s.node.view s.disk full sure)
include hH h

/-- Where the node's log meets the leader's, both agree on what is before. -/
theorem LogInv.agree (hs : Shows H T prev prevTerm entries lc)
    (hlink : Linked s.node prev prevTerm entries i) (hi : s.node.snapshotIndex < i) :
    full.take i = (H.elog T).take i ∧ i ≤ full.length ∧ i ≤ (H.elog T).length := by
  obtain ⟨t, hat, hlt⟩ := hlink.resolve_left (by omega)
  obtain ⟨a, ha, hat⟩ := h.termAt_full hi hat
  obtain ⟨b, hb, hbt⟩ := hs.leaderTerm (by omega) hlt
  have htake := h.ok.take_eq (hH.elog_ok hs.led) ha hb (hat.trans hbt.symm)
  rw [show i - 1 + 1 = i by omega] at htake
  obtain ⟨h1, -⟩ := List.getElem?_eq_some_iff.mp ha
  obtain ⟨h2, -⟩ := List.getElem?_eq_some_iff.mp hb
  exact ⟨htake, by omega, by omega⟩

/-- What a node knows to be committed is in the log of its term's leader. -/
theorem LogInv.sure_elog (hled : H.Led s.node.hard.term) : sure <+: H.elog s.node.hard.term :=
  h.certified.le_elog hH le_rfl hled

end

/-! ### Taking entries -/

section Push

variable {e : Entry}

theorem LogInv.push (hH : H.Coherent m₀) (hwf : Wf s) (h : LogInv strict H s.node.view s.disk full sure)
    (hled : H.Led s.node.hard.term) (hpre : full ++ [e] <+: H.elog s.node.hard.term) :
    LogInv strict H (s.push e).node.view (s.push e).disk (full ++ [e]) sure where
  ok := (hH.elog_ok hled).mono hpre
  log := by
    have hreach : s.node.snapshotIndex ≤ full.length := h.reach
    show s.node.log ++ [e] = (full ++ [e]).drop s.node.snapshotIndex
    rw [drop_append_of_le_length hreach,
      show s.node.log = full.drop s.node.snapshotIndex from h.log]
  reach := h.reach.trans (prefix_append _ _).length_le
  terms a ha := hH.elog_term_le hled a (hpre.subset ha)
  certified := h.certified
  commit := h.commit
  catalog := h.catalog
  store := h.store
  snapshotTerm := h.snapshotTerm
  clean := by
    left
    rcases h.clean with hcl | ⟨-, -, hlt⟩
    · exact hcl.trans (prefix_append _ _)
    · exact prefix_of_prefix_length_le (h.sure_elog hH hled) hpre (by simp; omega)
  acks := by
    show H.AckOk _ _ ((full ++ [e]).take (s.node.snapshotIndex + s.disk.synced.length))
    rw [take_append_of_le_length (h.synced_le hwf)]
    exact h.acks

theorem NodeInv.push (hH : H.Coherent m₀) (hm0 : m₀.Valid) (hwf : Wf s) (hwf' : Wf (s.push e))
    (h : NodeInv m₀ strict soup H s.node.settledView s.disk full sure)
    (hrole : s.node.role = .follower) (hled : H.Led s.node.hard.term)
    (hpre : full ++ [e] <+: H.elog s.node.hard.term) :
    NodeInv m₀ strict soup H (s.push e).node.settledView (s.push e).disk (full ++ [e]) sure := by
  have hlog : LogInv strict H (s.push e).node.view (s.push e).disk (full ++ [e]) sure :=
    LogInv.push hH hwf { h.log with } hled hpre
  exact
    { log := { hlog with }
      own := h.own
      cand := fun hr => nomatch hrole.symm.trans hr
      lead :=
        { led := fun hl => by
            have helog : H.elog s.node.hard.term = full := (h.lead.led hl).elog
            have := hpre.length_le
            rw [helog, length_append, length_singleton] at this
            omega
          past := h.lead.past
          matching := fun hr => nomatch hrole.symm.trans hr }
      mem := ⟨h.mem.initial, hlog.effective hH hm0 hwf' h.mem.initial⟩
      transfer := { h.transfer with }
      out := fun env henv => (h.out env henv).imp rfl id fun _ _ hu => { hu with
        pending := by simp [NodeState.push, NodeState.update, NodeState.emit, Disk.perform]
        holds := hu.holds.trans (prefix_append _ _)
        leader := fun hr => nomatch hrole.symm.trans hr } }

end Push

/-! ### Dropping entries -/

theorem LogInv.cut (hH : H.Coherent m₀) (hwf : Wf s) (h : LogInv strict H s.node.view s.disk full sure)
    (hown : OwnInv H s.node.cfg.id s.node.hard) (hled : H.Led s.node.hard.term)
    (hsi : s.node.snapshotIndex ≤ i) (hi : i ≤ full.length)
    (hle : i ≤ (H.elog s.node.hard.term).length) (hcommit : s.node.commitIndex ≤ i)
    (hsame : (full.take i).drop s.node.snapshotIndex = ((H.elog s.node.hard.term).take i).drop s.node.snapshotIndex)
    (hmax : ∀ q, q <+: full → q <+: H.elog s.node.hard.term → q.length ≤ i) :
    LogInv strict H (s.cut i).node.view (s.cut i).disk ((H.elog s.node.hard.term).take i) sure := by
  have hpre : (H.elog s.node.hard.term).take i <+: H.elog s.node.hard.term := take_prefix _ _
  have hlen : ((H.elog s.node.hard.term).take i).length = i := by
    rw [length_take]
    omega
  have hlog : (s.cut i).node.log = ((H.elog s.node.hard.term).take i).drop s.node.snapshotIndex := by
    show s.node.log.take (i - s.node.snapshotIndex) = _
    rw [← hsame, drop_take, show s.node.log = full.drop s.node.snapshotIndex from h.log]
  have hsynced : s.node.snapshotIndex + (s.cut i).disk.synced.length = i := by
    have hrec := (hwf.cut hsi (by have := h.length; omega)).records
    have := congrArg List.length (hrec.trans hlog)
    rw [Disk.records, length_append, length_drop, hlen] at this
    have hpend : (s.cut i).disk.pending = [] := rfl
    rw [hpend, length_nil] at this
    omega
  exact
    { ok := (hH.elog_ok hled).mono hpre
      log := hlog
      reach := hsi.trans hlen.ge
      terms := fun a ha => hH.elog_term_le hled a (hpre.subset ha)
      certified := h.certified
      commit := h.commit
      catalog := h.catalog
      store := h.store
      snapshotTerm := h.snapshotTerm
      clean := .inl (prefix_of_prefix_length_le (h.sure_elog hH hled) hpre (by
        rw [hlen, h.commit]
        exact hcommit))
      acks := by
        show H.AckOk _ _ (((H.elog s.node.hard.term).take i).take (s.node.snapshotIndex + (s.cut i).disk.synced.length))
        rw [hsynced, take_take, min_self]
        refine (h.acks.longer (List.take_prefix _ _)).follow hH hled hown.ack fun q hq hqe => ?_
        exact prefix_of_prefix_length_le hqe hpre (by rw [hlen]; exact hmax q hq hqe) }

/-- A follower drops what disagrees with the leader's entry at `i + 1`; its log is synced. -/
theorem NodeInv.cut (hH : H.Coherent m₀) (hm0 : m₀.Valid) (hwf' : Wf (s.cut i))
    (h : NodeInv m₀ strict soup H s.node.view s.disk full sure) (hpend : s.disk.pending = [])
    (hrole : s.node.role = .follower)
    (hlog : LogInv strict H (s.cut i).node.view (s.cut i).disk ((H.elog s.node.hard.term).take i) sure)
    (hne : full ≠ H.elog s.node.hard.term) :
    NodeInv m₀ strict soup H (s.cut i).node.settledView (s.cut i).disk ((H.elog s.node.hard.term).take i) sure := by
  exact
    { log := { hlog with }
      own := h.own
      cand := fun hr => nomatch hrole.symm.trans hr
      lead :=
        { led := fun hl => absurd (h.lead.led hl).elog.symm hne
          past := h.lead.past
          matching := fun hr => nomatch hrole.symm.trans hr }
      mem := ⟨h.mem.initial, hlog.effective hH hm0 hwf' h.mem.initial⟩
      transfer := { h.transfer with }
      out := fun env henv => (h.out env henv).imp rfl id fun _ _ hu => absurd hpend hu.pending }

theorem NodeState.flush_cut (s : NodeState) (i : Nat) :
    (s.flush.cut i).node = (s.cut i).node ∧ (s.flush.cut i).disk = (s.cut i).disk := by
  refine ⟨rfl, ?_⟩
  simp [flush, cut, emit, update, Disk.perform, Disk.rewrite, Disk.records]

section

variable (g : Good m₀ strict soup H created s full sure)
include g

section

variable (henv : soup env) (hrole : s.node.role = .follower)
  (hmsg : env.msg = .appendEntries s.node.hard.term prev prevTerm (a ++ e :: b) lc rs)
  (hlink : Linked s.node prev prevTerm (a ++ e :: b) (prev + a.length))
  (hlo : s.node.snapshotIndex ≤ prev + a.length) (hidx : e.index = prev + a.length + 1)
include henv hrole hmsg hlink hlo hidx

theorem Good.takeNew (hterm : s.node.termAt e.index = none) :
    Grows m₀ strict soup H created ((s.push e).update refreshMembership) := by
  have hH := g.hist.coherent
  have hshow := g.shows henv hmsg
  have hlen := g.node.log.length
  have hend : full.length = prev + a.length := by
    have h1 := hlink.le
    have h2 := termAt_none (by omega) hterm
    omega
  have hfull : full = (H.elog s.node.hard.term).take (prev + a.length) := by
    rcases eq_or_lt_of_le hlo with hsi | hsi
    · -- the log ends with the snapshot
      have hsure := g.node.log.clean_of_le g.wf (by omega)
      rw [← hend]
      exact prefix_iff_eq_take.mp (hsure ▸ g.node.log.sure_elog hH hshow.led)
    · obtain ⟨htake, -⟩ := g.node.log.agree hH hshow hlink hsi
      rw [← htake, ← hend, take_length]
  have hpre : full ++ [e] <+: H.elog s.node.hard.term := by
    rw [hfull, ← take_succ_of_getElem? hshow.entry]
    exact take_prefix _ _
  have hwf : Wf (s.push e) := g.wf.push (by omega)
  exact g.same _ _ hwf.refresh ((g.settled.push hH g.valid g.wf hwf hrole hshow.led hpre).refreshed hwf)

theorem Good.takeOver {t : Nat} (hterm : s.node.termAt e.index = some t) (hne : t ≠ e.term)
    (hcommit : s.node.commitIndex < e.index) : Grows m₀ strict soup H created
      (((s.cut (e.index - 1)).push e).update refreshMembership) ∧
    Image m₀ strict H created s.node.cfg.id (s.cut (e.index - 1)).disk := by
  -- rewriting the log file syncs it first
  obtain ⟨H1, full1, sure1, hext1, g1⟩ := g.flush
  have hH := g1.hist.coherent
  have hshow := g1.shows henv hmsg
  obtain ⟨i, hi⟩ : ∃ i, i = prev + a.length := ⟨_, rfl⟩
  rw [← hi] at hlink hlo hidx
  have hentry := hshow.entry
  rw [← hi] at hentry
  obtain ⟨hile, -⟩ := List.getElem?_eq_some_iff.mp hentry
  obtain ⟨x, hx, hxt⟩ := g1.node.log.termAt_full (i := e.index) (t := t)
    (by change s.node.snapshotIndex < e.index; omega) hterm
  rw [show e.index - 1 = i by omega] at hx ⊢
  obtain ⟨hilt, -⟩ := List.getElem?_eq_some_iff.mp hx
  have hdiff : x ≠ e := by
    rintro rfl
    exact hne hxt.symm
  have hmax : ∀ q, q <+: full1 → q <+: H1.elog s.node.hard.term → q.length ≤ i := by
    intro q hq hqe
    by_contra hlen
    have h1 := getElem?_longer hq (i := i) (by omega)
    have h2 := getElem?_longer hqe (i := i) (by omega)
    exact hdiff (mem_unique hx (h1.trans (h2.symm.trans hentry)))
  have hsame : (full1.take i).drop s.node.snapshotIndex =
      ((H1.elog s.node.hard.term).take i).drop s.node.snapshotIndex := by
    rcases eq_or_lt_of_le hlo with hsi | hsi
    · rw [hsi, drop_eq_nil_of_le (by simp), drop_eq_nil_of_le (by simp)]
    · have := (g1.node.log.agree hH hshow hlink hsi).1
      exact congrArg _ this
  have hlog := g1.node.log.cut hH g1.wf g1.node.own hshow.led hlo hilt.le hile.le
    (by change s.node.commitIndex ≤ i; omega) hsame hmax
  have hwf : Wf (s.flush.cut i) := g1.wf.cut hlo (by
    have := g1.node.log.length
    omega)
  have hne' : full1 ≠ H1.elog s.node.hard.term := by
    intro h
    rw [h, show (H1.elog s.node.hard.term)[i]? = some e from hentry] at hx
    exact hdiff (some.inj hx).symm
  have hcut := g1.node.cut hH g1.valid hwf rfl hrole hlog hne'
  have hpre : (H1.elog s.node.hard.term).take i ++ [e] <+: H1.elog s.node.hard.term := by
    rw [← take_succ_of_getElem? hentry]
    exact take_prefix _ _
  have hwf' : Wf ((s.flush.cut i).push e) := hwf.push (by
    have := congrArg length hlog.log
    rw [length_drop, length_take] at this
    change (s.flush.cut i).node.log.length = min i (H1.elog s.node.hard.term).length - s.node.snapshotIndex at this
    change e.index = s.node.snapshotIndex + (s.flush.cut i).node.log.length + 1
    omega)
  have hpush := hcut.push hH g1.valid hwf hwf' hrole hshow.led hpre
  obtain ⟨hnode, hdisk⟩ := s.flush_cut i
  refine ⟨?_, ?_⟩
  · have hgrow := (g1.same _ _ hwf'.refresh (hpush.refreshed hwf')).after (H := H) (by
      change Ext (refreshMembership _).cfg.id H H1
      rw [refreshMembership_cfg]
      exact hext1)
    refine hgrow.congr rfl ?_
    exact congrArg (·.perform (.walAppend e)) hdisk.symm
  · obtain ⟨l, hl⟩ := hlog.disk hwf g1.node.own
    rw [hdisk] at hl
    exact ⟨H1, _, _, _, hext1, g1.hist, hl⟩

end

/-! ### Learning what is committed -/

theorem Good.learn {c : Nat} (henv : soup env) (hrole : s.node.role = .follower)
    (hmsg : env.msg = .appendEntries s.node.hard.term prev prevTerm entries lc rs)
    (hlink : Linked s.node prev prevTerm entries i) (hc : c = max (min lc i) s.node.commitIndex)
    (hwf : Wf (s.update fun n => { n with commitIndex := c })) :
    Grows m₀ strict soup H created (s.update fun n => { n with commitIndex := c }) := by
  have hH := g.hist.coherent
  have hshow := g.shows henv hmsg
  have hcommit : sure.length = s.node.commitIndex := g.node.log.commit
  by_cases hold : c = s.node.commitIndex
  · exact g.view hwf (by rw [hold]; rfl) rfl
  have hsnap := g.wf.snapshot
  obtain ⟨htake, hifull, hielog⟩ := g.node.log.agree hH hshow hlink (by omega)
  have hsure : (H.elog s.node.hard.term).take c = full.take c := by
    have := congrArg (take c) htake
    rw [take_take, take_take, min_eq_left (by omega)] at this
    exact this.symm
  have hlen : (full.take c).length = c := by
    rw [length_take]
    omega
  have hcert : H.Certified s.node.hard.term (full.take c) := by
    rw [← hsure]
    exact hshow.certified.shorter (take_prefix_take_left (by omega))
  have hpre : sure <+: full.take c := by
    rw [← hsure] at hlen ⊢
    exact prefix_of_prefix_length_le (g.node.log.sure_elog hH hshow.led) (List.take_prefix _ _) (by omega)
  have hlog := g.node.log.advance g.wf hpre (List.take_prefix _ _) hcert
  rw [hlen] at hlog
  have hclean : sure <+: full := hpre.trans (List.take_prefix _ _)
  refine g.same full (full.take c) hwf ?_
  exact
    { log := hlog
      own := g.node.own
      cand := fun hr => nomatch hrole.symm.trans hr
      lead :=
        { led := fun hl =>
            have h := g.node.lead.led hl
            ⟨h.elected, h.elog, take_prefix _ _, fun n k hk => by
              have h1 : n ≤ s.node.commitIndex := h.commits n k hk
              show n ≤ c
              omega⟩
          past := g.node.lead.past
          matching := g.node.lead.matching }
      mem := ⟨g.node.mem.initial, .inl (g.node.mem.current.resolve_right fun h => h.1 hclean)⟩
      transfer := { g.node.transfer with }
      out := fun env henv => (g.node.out env henv).imp rfl id fun _ _ hu => { hu with } }

/-! ### Answering -/

theorem Good.ack {k : Nat} (hled : H.Led s.node.hard.term) (hpend : s.disk.pending = [])
    (hk : k ≤ (H.elog s.node.hard.term).length) (hholds : (H.elog s.node.hard.term).take k <+: full) :
    ∃ H', Ext s.node.cfg.id H H' ∧ Good m₀ strict soup H' created s full sure ∧
      H'.RespOk s.node.cfg.id s.node.hard.term k := by
  have hH := g.hist.coherent
  have hext : Ext s.node.cfg.id H (H.addAcks s.node.cfg.id {(s.node.hard.term, k)}) := History.ext_addAcks _ _
  have hco : (H.addAcks s.node.cfg.id {(s.node.hard.term, k)}).Coherent m₀ := by
    refine hH.addAcks fun t m ha => ?_
    obtain ⟨rfl, rfl⟩ := Prod.mk.inj ha
    refine ⟨hled, hk, fun u y l hv htu => ?_⟩
    have : u ≤ s.node.hard.term := (g.node.own.vote u y l hv).1
    omega
  refine ⟨_, hext, ⟨g.valid, fun env henv => (g.msgs env henv).ext hH hext,
    g.hist.of_elog hco rfl rfl rfl, g.wf, ?_⟩, hled, hk, .inl ⟨k, le_rfl, .inr ⟨rfl, rfl⟩⟩⟩
  have hfull : full.take (s.node.snapshotIndex + s.disk.synced.length) = full := by
    refine take_of_length_le ?_
    have hlen := g.node.log.length
    have hrec := congrArg length g.wf.records
    rw [Disk.records, length_append, hpend, length_nil] at hrec
    omega
  exact
    { log :=
        { g.node.log with
          ok := hext.logOk g.node.log.ok
          certified := g.node.log.certified.ext hH hext
          acks := by
            rintro t m (ha | ⟨-, ha⟩) n hn
            · exact g.node.log.acks t m ha n hn
            · obtain ⟨rfl, rfl⟩ := Prod.mk.inj ha
              left
              rw [show full.take (s.node.view.snapshotIndex + s.disk.synced.length) = full from hfull]
              exact (take_prefix_take_left hn).trans hholds }
      own := { g.node.own with
          ack := by
            rintro t m (ha | ⟨-, ha⟩)
            · exact g.node.own.ack t m ha
            · exact (Prod.mk.inj ha).1.le }
      cand := fun hr => (g.node.cand hr).ext hH hext (g.node.cand hr).fresh
      lead :=
        { led := fun hl => { g.node.lead.led hl with }
          past := g.node.lead.past
          matching := fun hr p k hk => (g.node.lead.matching hr p k hk).ext hH hext }
      mem := g.node.mem
      transfer := g.node.transfer.ext hH hext
      out := fun env henv =>
        (g.node.out env henv).imp rfl (·.ext hH hext) fun _ _ hu => absurd hpend hu.pending }

theorem Good.reply {dest : NodeId} {epoch : Nat} {msg : Message} (hwf : Wf (s.update (·.reply dest epoch msg)))
    (h : OutInv soup H s.node.view s.disk full ⟨s.node.cfg.id, dest, msg, epoch⟩) :
    Grows m₀ strict soup H created (s.update (·.reply dest epoch msg)) :=
  g.send hwf [_] rfl fun env henv => by
    rw [mem_singleton.mp henv]
    exact h

theorem Good.accepts (hshow : Shows H s.node.hard.term prev prevTerm entries lc)
    (hlink : Linked s.node prev prevTerm entries i) :
    i ≤ (H.elog s.node.hard.term).length ∧ ((H.elog s.node.hard.term).take i <+: full ∨
      H.Certified s.node.hard.term ((H.elog s.node.hard.term).take i)) := by
  have hH := g.hist.coherent
  by_cases hi : i ≤ s.node.snapshotIndex
  · have hpre := g.node.log.sure_elog hH hshow.led
    have hlen : s.node.snapshotIndex ≤ sure.length := g.wf.snapshot.trans g.node.log.commit.ge
    refine ⟨hi.trans (hlen.trans hpre.length_le), .inr (g.node.log.certified.shorter ?_)⟩
    exact prefix_of_prefix_length_le (List.take_prefix _ _) hpre ((length_take_le _ _).trans (hi.trans hlen))
  · obtain ⟨htake, -, hle⟩ := g.node.log.agree hH hshow hlink (by omega)
    exact ⟨hle, .inl (htake ▸ take_prefix _ _)⟩

theorem Good.answer {msg : Message} (henv : soup env) (h : s.node.Answers env.msg msg)
    (hwf : Wf (s.update (·.reply env.sender env.epoch msg))) :
    Grows m₀ strict soup H created (s.update (·.reply env.sender env.epoch msg)) := by
  generalize hmsg : env.msg = ask at h
  cases h with
  | refuse m hterm => exact g.reply hwf ⟨rfl, .inl trivial⟩
  | accept i hrole hlink =>
    have hshow := g.shows henv hmsg
    obtain ⟨hle, hholds⟩ := g.accepts hshow hlink
    by_cases hpend : s.disk.pending = []
    · rcases hholds with hholds | hcert
      · obtain ⟨H', hext, g', hresp⟩ := g.ack hshow.led hpend hle hholds
        exact (g'.reply hwf ⟨rfl, .inl hresp⟩).after hext
      · exact g.reply hwf ⟨rfl, .inl ⟨hshow.led, hle, .inr hcert⟩⟩
    · rcases hholds with hholds | hcert
      · refine g.reply hwf ⟨rfl, .inr ⟨_, i, _, rfl, hpend, le_rfl, hshow.led, hle, hholds,
          fun _ => rfl, fun hr => ?_, fun u y l hv hlt => ?_⟩⟩
        · rw [show s.node.role = .leader from hr] at hrole
          exact nomatch hrole
        · have : u ≤ s.node.hard.term := (g.node.own.vote u y l hv).1
          omega
      · exact g.reply hwf ⟨rfl, .inl ⟨hshow.led, hle, .inr hcert⟩⟩

end

end AtlasNative
