import AtlasNative.Raft.Speculation

/-!
# What a leader accepts is not rejected later

`Accepting` says of a group's history that every entry its leaders created is accepted by the
catalog that replaying the entries before it gives. Along runs whose proposals are all or nothing,
every event keeps it, so that no entry is rejected wherever it is applied.
-/

namespace AtlasNative

open Consensus Program List Cluster Option Bool MemCatalog
open History (Ext)

/-! ### Catalogs that took every command -/

/-- `c` is what the entries of `l` give, none of them rejected. -/
inductive Unrejected : MemCatalog → List Entry → Prop
  | nil : Unrejected {} []
  | concat {c c' : MemCatalog} {l : List Entry} {e : Entry} {gc : List ExtentId}
      (h : Unrejected c l) (hidx : e.index = l.length + 1)
      (happ : c.applyCommitted e.term e.index e.command = (.ok gc, c')) : Unrejected c' (l ++ [e])

variable {c : MemCatalog}

theorem MemCatalog.apply_noop {term index : Nat} : ∃ gc c', c.apply term index .noop = (.ok gc, c') := by
  by_cases hidx : index ≤ c.appliedIndex
  · exact ⟨_, _, apply_stale hidx⟩
  · simp only [apply, Catalog.applyWith, if_neg hidx]
    exact ⟨_, _, rfl⟩

theorem MemCatalog.apply_changeMembership {term index : Nat} {m : Membership} (hm : m.Valid)
    (addrs : BTreeMap String String) :
    ∃ gc c', c.apply term index (.changeMembership m addrs) = (.ok gc, c') := by
  by_cases hidx : index ≤ c.appliedIndex
  · exact ⟨_, _, apply_stale hidx⟩
  · have hrun := CatM.changeMembership_run hm addrs (⟨c, (), []⟩ : World MemTable Unit)
    simp only [apply, Catalog.applyWith, if_neg hidx]
    rw [show CatM.runCommand term (.changeMembership m addrs) _ = _ from hrun]
    exact ⟨_, _, rfl⟩

variable {l : List Entry}

/-- A replay goes through the catalog of every shorter log. -/
theorem Replay.split {m : List Entry} (h : Replay c (l ++ m)) : ∃ c0, Replay c0 l ∧ c = m.foldl after c0 := by
  induction m using reverseRecOn generalizing c with
  | nil => exact ⟨c, by simpa using h, rfl⟩
  | append_singleton m e ih =>
    rw [← append_assoc] at h
    generalize hl : l ++ m ++ [e] = l' at h
    cases h with
    | nil => simp at hl
    | concat h _ happ =>
      obtain ⟨rfl, he⟩ := append_inj' hl rfl
      obtain rfl := singleton_inj.mp he
      obtain ⟨c0, h0, rfl⟩ := ih h
      refine ⟨c0, h0, ?_⟩
      rw [foldl_append, foldl_cons, foldl_nil, MemCatalog.after, happ]

/-! ### Histories of accepted entries -/

variable {e : Entry} {n : RaftNode} {created : List (Entry × Nat)}

section

variable {m₀ : Membership} {H H' : History NodeId Entry} {σ σ' : Cluster} {id y : NodeId}

/-- Every entry is accepted after those its leader created it on. -/
def Accepting (H : History NodeId Entry) : Prop :=
  ∀ t, H.Led t → ∀ p e, p ++ [e] <+: H.elog t → (H.start t).length ≤ p.length →
    ∀ c, Replay c p → ∃ gc c', c.apply e.term e.index e.command = (.ok gc, c')

/-- Nothing on a log of such a history is rejected. -/
theorem Accepting.unrejected (h : Accepting H) (hl : H.LogOk l) (hc : Replay c l) : Unrejected c l := by
  induction hc with
  | nil => exact .nil
  | concat hc hidx happ hout ih =>
    obtain ⟨hled, hpre, hstart⟩ := hl _ _ prefix_rfl
    obtain ⟨gc, c', hok⟩ := h _ hled _ _ hpre hstart _ hc
    have hok' := applyCommitted_of_ok hok
    rw [happ] at hok'
    obtain ⟨rfl, rfl⟩ := Prod.mk.inj hok'
    exact .concat (ih (hl.mono (prefix_append _ _))) hidx happ

/-- The catalog a leader's log leads to is the replay of that log. -/
theorem RaftNode.logged_eq {s : NodeState} {strict : Prop} {full sure : List Entry} (hwf : Wf s)
    (hlog : LogInv strict H s.node.view s.disk full sure) (hclean : sure <+: full)
    (hc : Replay c full) : s.node.logged = c := by
  have hsnap : s.node.snapshotIndex ≤ s.node.catalog.appliedIndex := by
    obtain ⟨d, hd, -, hsnap⟩ := hlog.store
    obtain ⟨d', hd', happ⟩ := hwf.store
    obtain rfl := mem_unique hd hd'
    exact hsnap.trans happ
  have hlen : (sure.take s.node.catalog.appliedIndex).length = s.node.catalog.appliedIndex :=
    hlog.catalog.appliedIndex.symm
  have htake : sure.take s.node.catalog.appliedIndex = full.take s.node.catalog.appliedIndex := by
    have hpre : sure.take s.node.catalog.appliedIndex <+: full := (List.take_prefix _ _).trans hclean
    rw [prefix_iff_eq_take.mp hpre, hlen]
  have hrest : s.node.log.filter (s.node.catalog.appliedIndex < ·.index) = full.drop s.node.catalog.appliedIndex := by
    rw [hwf.contiguous.filter_gt hsnap,
      show s.node.log = full.drop s.node.snapshotIndex from hlog.log, drop_drop,
      Nat.add_sub_cancel' hsnap]
  rw [← take_append_drop s.node.catalog.appliedIndex full] at hc
  obtain ⟨c0, h0, rfl⟩ := hc.split
  have hcat : Replay s.node.catalog (full.take s.node.catalog.appliedIndex) := htake ▸ hlog.catalog
  rw [RaftNode.logged, hrest, hcat.unique h0]

variable {p : List Entry}

theorem Numbered.index_eq (h : Numbered H) {t : Nat} (hled : H.Led t) (hp : p ++ [e] <+: H.elog t) :
    e.index = p.length + 1 := by
  obtain ⟨r, hr⟩ := hp
  have := h t hled p.length e (by rw [← hr]; simp)
  omega

theorem LedInv.before {v : View} {full sure : List Entry} (h : LedInv H v full sure)
    (hext : Ext y H H') (hnum : Numbered H') (hterm : e.term = v.hard.term)
    (hidx : e.index = full.length + 1) (hled : H'.Led e.term) (hp : p ++ [e] <+: H'.elog e.term) :
    p = full := by
  have hpos := hnum.index_eq hled hp
  have hfull : full <+: H'.elog e.term := by
    have := hext.elog _ ⟨_, h.elected⟩
    rw [h.elog] at this
    rwa [hterm]
  have hpre : p <+: H'.elog e.term := (prefix_append _ _).trans hp
  exact (prefix_of_prefix_length_le hpre hfull (by omega)).eq_of_length (by omega)

/-- What `n` meets in `σ` when it is asked for entries it accepts, or for what is all or nothing. -/
def Cluster.asking (σ : Cluster) (n : RaftNode) : Setting := ⟨(· ∈ σ.soup), n.Accepts, False⟩

theorem GroupInv.accepted (hg : GroupInv m₀ False H σ) (hn : (σ.servers id).node = some n)
    (hext : Ext y H H') (hist : HistInv m₀ H' created) (he : (σ.asking n).Checked e)
    (hled : H'.Led e.term) (hp : p ++ [e] <+: H'.elog e.term) (hc : Replay c p) :
    ∃ gc c', c.apply e.term e.index e.command = (.ok gc, c') := by
  obtain ⟨-, -, full, sure, g⟩ := hg.node hn
  rcases he with hnoop | hcfg | ⟨hrole, hterm, hidx, gc, c', happ⟩
  · rw [hnoop]
    exact apply_noop
  · obtain ⟨m, hm⟩ := isSome_iff_exists.mp hcfg
    have hok := (hist.coherent.elog_ok hled).mono hp
    have hvalid := (config_valid hist.coherent g.valid hok).1 e (by simp) m hm
    cases hcmd : e.command with
    | changeMembership m' addrs =>
      obtain rfl : m' = m := by simpa [LogEntry.config, hcmd] using hm
      exact apply_changeMembership hvalid addrs
    | _ => simp [LogEntry.config, hcmd] at hm
  · have hlead := g.node.lead.led (g.wf.led hrole)
    have hlast : n.lastIndex = full.length := g.node.log.lastIndex g.wf
    obtain rfl := hlead.before hext hist.numbered hterm (hlast ▸ hidx) hled hp
    have hlogged : n.logged = c := RaftNode.logged_eq g.wf g.node.log hlead.clean hc
    exact ⟨gc, c', hlogged ▸ happ⟩

theorem Accepting.ext (h : Accepting H) {created' : List (Entry × Nat)}
    (hist : HistInv m₀ H created) (hist' : HistInv m₀ H' created') (hext : Ext y H H')
    (hnew : ∀ e t, (e, t) ∈ created' → (e, t) ∈ created ∨
      ∀ p, H'.Led e.term → p ++ [e] <+: H'.elog e.term → ∀ c, Replay c p →
        ∃ gc c', c.apply e.term e.index e.command = (.ok gc, c')) : Accepting H' := by
  intro t hled p e hp hstart c hc
  have hmem := hist'.created.complete t hled p e hp hstart
  have hterm : e.term = t := by
    refine hist'.coherent.elog_terms t hled e ?_
    obtain ⟨r, hr⟩ := hp
    rw [← hr, append_assoc, drop_append_of_le_length hstart]
    simp
  subst hterm
  rcases hnew e _ hmem with hold | hnew
  · -- the entry stands at its index, in the old log as in the new one
    obtain ⟨hled0, q, hq, hqs, -⟩ := hist.created.sound e _ hold
    have hq' : q ++ [e] <+: H'.elog e.term := hq.trans (hext.elog _ hled0)
    have hlen : p.length = q.length := by
      have := hist'.numbered.index_eq hled hp
      have := hist'.numbered.index_eq hled hq'
      omega
    have hpq : p = q := (prefix_of_prefix_length_le ((prefix_append _ _).trans hp)
        ((prefix_append _ _).trans hq') hlen.le).eq_of_length hlen
    subst hpq
    exact h _ hled0 p e hq hqs c hc
  · exact hnew p hled hp c hc

end

/-! ### Runs -/

section

variable {m₀ : Membership} {H : History NodeId Entry} {σ σ' : Cluster} {id : NodeId}

/-- The call an event makes, finished or not. -/
def Event.op : Event → Option (NodeId × Op)
  | .call id op | .crashCall id op _ _ => some (id, op)
  | _ => none

/-- The event's proposal, if it has one, is all or nothing. -/
def Event.Whole (σ : Cluster) (ev : Event) : Prop :=
  ∀ x ∈ ev.op, ∀ n ∈ (σ.servers x.1).node, x.2.Whole n

instance (σ : Cluster) (ev : Event) : Decidable (ev.Whole σ) :=
  inferInstanceAs (Decidable (∀ x ∈ ev.op, ∀ n ∈ (σ.servers x.1).node, x.2.Whole n))

theorem mem_createdOf_take {fx : List (Effect × Disk)} {k : Nat} {x : Entry × Nat}
    (h : x ∈ createdOf (fx.take k)) : x ∈ createdOf fx :=
  ((take_sublist k fx).filterMap _).subset h

theorem Cluster.call_created (σ : Cluster) (id : NodeId) (n : RaftNode) (op : Op) :
    (σ.call id n op).created = σ.created ++ createdOf (σ.callEffects id n op) := by
  unfold call callEffects
  cases op.run ⟨n, (σ.servers id).disk, []⟩ with
  | ok r s => cases r <;> rfl
  | error e s =>
    dsimp only
    split <;> rfl

variable {ev : Event}

/-- Entries are created by calls. -/
theorem Cluster.exec_created (hev : σ.exec m₀ ev = some σ') {x : Entry × Nat}
    (hx : x ∈ σ'.created) : x ∈ σ.created ∨ ∃ id op n, ev.op = some (id, op) ∧
      (σ.servers id).node = some n ∧ σ.Deliverable id op ∧ x ∈ createdOf (σ.callEffects id n op) := by
  cases ev with
  | start id cfg =>
    obtain ⟨s, ho, rfl⟩ := exec_opening hev
    obtain ⟨-, -, hinit, hopen⟩ := opening_eq ho
    obtain ⟨tr, rfl, hcr, -⟩ := open_eq hinit hopen
    left
    change x ∈ σ.created ++ createdOf tr at hx
    rwa [hcr, append_nil] at hx
  | call id op =>
    obtain ⟨n, hn, hop, rfl⟩ := exec_node hev
    rw [call_created, mem_append] at hx
    exact hx.imp_right fun hx => ⟨id, op, n, rfl, hn, hop, hx⟩
  | crash id kept =>
    obtain rfl := some.inj hev
    exact .inl (by simpa [lose, record, setServer, createdOf] using hx)
  | crashStart id cfg done kept =>
    obtain ⟨s, ho, rfl⟩ := exec_opening hev
    obtain ⟨-, -, hinit, hopen⟩ := opening_eq ho
    obtain ⟨tr, rfl, hcr, -⟩ := open_eq hinit hopen
    left
    change x ∈ σ.created ++ createdOf (tr.take done) at hx
    refine (mem_append.mp hx).resolve_right fun h => ?_
    have := mem_createdOf_take h
    rw [hcr] at this
    cases this
  | crashCall id op done kept =>
    obtain ⟨n, hn, hop, rfl⟩ := exec_node hev
    change x ∈ σ.created ++ createdOf ((σ.callEffects id n op).take done) at hx
    rw [mem_append] at hx
    exact hx.imp_right fun hx => ⟨id, op, n, rfl, hn, hop, mem_createdOf_take hx⟩

/-- Every speculative catalog is current. -/
abbrev Cluster.Current (σ : Cluster) : Prop := σ.Each (·.node.SpecCurrent)

section

variable (h : σ.Current) (hg : GroupInv m₀ False H σ)
include h hg

theorem Cluster.Current.call (hn : (σ.servers id).node = some n) {op : Op} (hop : op.Whole n)
    (hdel : σ.Deliverable id op) :
    (σ.call id n op).Current ∧ ∀ x ∈ createdOf (σ.callEffects id n op), (σ.asking n).Checked x.1 := by
  obtain ⟨-, -, full, sure, g⟩ := hg.node hn
  have hcur := h id n hn
  have hpath : ∀ {s}, Path (σ.asking n) ⟨n, (σ.servers id).disk, []⟩ s → s.node.SpecCurrent ∧
      ∀ x ∈ createdOf s.trace, (σ.asking n).Checked x.1 := fun hp => hp.current g.wf False.elim hcur nofun
  by_cases htake : op = .takeMessages
  · subst htake
    have hflushed := hpath (NodeState.flushed_path _)
    rw [Cluster.call, Cluster.callEffects, takeMessages_run g.wf]
    refine ⟨Each.answer (Each.goOn h ?_) _, hflushed.2⟩
    exact hflushed.1
  have hready : ∀ command, op = .propose command → n.role = .leader →
      (σ.asking n).Ready ⟨n, (σ.servers id).disk, []⟩ command := by
    rintro command rfl hrole
    have hspec := hcur.speculative hrole
    refine ⟨fun gc c' happ => ?_, .inl ?_⟩
    · exact .inr (.inr ⟨hrole, rfl, rfl, gc, c', hspec ▸ happ⟩)
    · exact hspec ▸ hop hrole
  have hrun := hg.runs hn hdel htake (w := σ.asking n) rfl hready g.wf
  unfold Cluster.call Cluster.callEffects
  cases hres : op.run ⟨n, (σ.servers id).disk, []⟩ with
  | ok r s =>
    rw [hres] at hrun
    exact ⟨(Each.goOn h (hpath hrun.1).1).answer r, (hpath hrun.1).2⟩
  | error e s =>
    rw [hres] at hrun
    obtain ⟨t, hp, -, htrace, href⟩ := hrun
    dsimp only
    refine ⟨?_, htrace ▸ (hpath hp).2⟩
    split
    · rename_i hrefusal
      obtain ⟨rfl, -⟩ := href hrefusal
      exact Each.goOn h (hpath hp).1
    · exact Each.stop h

theorem Cluster.Current.exec (hwhole : ev.Whole σ) (hev : σ.exec m₀ ev = some σ') : σ'.Current := by
  refine Each.exec h (fun cfg d epoch => ?_) (fun id op n heq hn hop => ?_) hev
  · -- an opened node follows
    exact fun hrole => nomatch hrole
  · subst heq
    exact (h.call hg hn (hwhole (id, op) rfl n hn) hop).1

end

section

variable (ha : Accepting H) (h : σ.Current) (hg : GroupInv m₀ False H σ)
include ha h hg

/-- What every event keeps, as long as proposals are all or nothing. -/
theorem Accepting.exec (hwhole : ev.Whole σ) (hev : σ.exec m₀ ev = some σ') :
    ∃ H', GroupInv m₀ False H' σ' ∧ Accepting H' := by
  obtain ⟨H', y, hext, hg'⟩ := hg.exec hev False.elim
  refine ⟨H', hg', ha.ext hg.hist hg'.hist hext fun e t he => ?_⟩
  refine (exec_created hev he).imp_right ?_
  rintro ⟨id, op, n, hop, hn, hdel, hcr⟩ p hled hp c hc
  exact hg.accepted hn hext hg'.hist ((h.call hg hn (hwhole (id, op) hop n hn) hdel).2 _ hcr) hled hp hc

theorem Accepting.run {evs : List Event}
    (hwhole : Along m₀ (fun σ ev => ev.Whole σ) σ evs) (hrun : σ.run m₀ evs = some σ') :
    ∃ H', GroupInv m₀ False H' σ' ∧ Accepting H' ∧ σ'.Current := by
  induction evs generalizing H σ with
  | nil =>
    obtain rfl := some.inj hrun
    exact ⟨H, hg, ha, h⟩
  | cons ev evs ih =>
    simp only [run, bind_eq_bind, bind_eq_some_iff] at hrun
    obtain ⟨τ, hev, hrun⟩ := hrun
    obtain ⟨H', hg', ha'⟩ := ha.exec h hg hwhole.1 hev
    exact ih ha' (h.exec hg hwhole.1 hev) hg' (hwhole.2 τ hev) hrun

end

theorem accepting_init : Accepting noHistory := by
  rintro t ⟨x, hx⟩
  cases hx

/-- Two entries of one term and index are the same. -/
theorem HistInv.entry_unique (hist : HistInv m₀ H created) {e' : Entry} {t : Nat}
    (he : (e, t) ∈ created) (hl : H.LogOk l) (he' : l[e.index - 1]? = some e')
    (hterm : e'.term = e.term) : e' = e := by
  obtain ⟨hled, p, hp, -⟩ := hist.created.sound e t he
  have hidx := hist.numbered.index_eq hled hp
  have hpre : l.take (e.index - 1) ++ [e'] <+: l := take_succ_of_getElem? he' ▸ take_prefix _ _
  have hq : l.take (e.index - 1) ++ [e'] <+: H.elog e.term := hterm ▸ (hl _ _ hpre).2.1
  have hlen : (l.take (e.index - 1)).length = p.length := by
    obtain ⟨hlt, -⟩ := List.getElem?_eq_some_iff.mp he'
    rw [length_take]
    omega
  have heq : l.take (e.index - 1) ++ [e'] = p ++ [e] :=
    (prefix_of_prefix_length_le hq hp (by simp [hlen])).eq_of_length (by simp [hlen])
  exact singleton_inj.mp (append_inj heq hlen).2

/-- A leader's speculative catalog is what its log says, and what it accepts into its log is never
rejected: every node's catalog took each of the entries that were applied to it, and at the index of
an accepted one this is the accepted one or one of another term. -/
theorem speculation_current {evs : List Event}
    (hwhole : Cluster.Along m₀ (fun σ ev => ev.Whole σ) {} evs)
    (hrun : Cluster.run m₀ {} evs = some σ) :
    (∀ id n, (σ.servers id).node = some n → n.SpecCurrent) ∧
    (∀ id n command index t, (σ.servers id).node = some n →
      RaftM.appendValidated command ⟨n, (σ.servers id).disk, []⟩ = .ok index t →
      ∃ before, (⟨n.hard.term, index, command⟩, before) ∈ createdOf t.trace) ∧
    ∀ id n, (σ.servers id).node = some n → ∃ l, Unrejected n.catalog l ∧ σ.AppliedLog l ∧
      ∀ e before, (e, before) ∈ σ.created → e.index ≤ n.catalog.appliedIndex →
        ∃ e', l[e.index - 1]? = some e' ∧ (e' = e ∨ e'.term ≠ e.term) := by
  have hinit : GroupInv m₀ False noHistory {} := groupInv_init
  have hdown : Current {} := fun _ _ hn => nomatch hn
  obtain ⟨H, hg, ha, hcur⟩ := accepting_init.run hdown hinit hwhole hrun
  refine ⟨fun id n hn => hcur id n hn, fun id n command index t hn hok => ?_, fun id n hn => ?_⟩
  · obtain ⟨-, -, full, sure, g⟩ := hg.node hn
    rcases appendValidated_run command g.wf.contiguous g.wf.last with
      ⟨gc, c', -, h⟩ | ⟨e, c', -, h⟩ | ⟨err, t', -, h, -⟩ <;> rw [h] at hok
    · obtain ⟨rfl, rfl⟩ := EStateM.Result.ok.inj hok
      rw [createdOf_create]
      exact ⟨_, mem_append_right _ (mem_singleton_self _)⟩
    · cases hok
    · cases hok
  · obtain ⟨-, -, full, sure, g⟩ := hg.node hn
    have hcat : Replay n.catalog (sure.take n.catalog.appliedIndex) := g.node.log.catalog
    have hcert := g.node.log.certified.shorter (List.take_prefix n.catalog.appliedIndex sure)
    have hok : H.LogOk (sure.take n.catalog.appliedIndex) := hcert.logOk hg.hist.coherent
    refine ⟨_, ha.unrejected hok hcat, fun p hp hle => hg.applied_agree hcert hp hle, fun e before he hle => ?_⟩
    have hpos : 0 < e.index := by
      obtain ⟨hled, p, hp, -⟩ := hg.hist.created.sound e before he
      rw [hg.hist.numbered.index_eq hled hp]
      omega
    have hlt : e.index - 1 < (sure.take n.catalog.appliedIndex).length := by
      rw [← hcat.appliedIndex]
      omega
    refine ⟨_, getElem?_eq_getElem hlt, ?_⟩
    exact or_iff_not_imp_right.mpr fun hterm =>
      hg.hist.entry_unique he hok (getElem?_eq_getElem hlt) (not_not.mp hterm)

/-- A group of one that takes a volume. -/
def volumeRun : List Event := aloneRun ++ [.call "a" (.propose (.createVolume "v" "v" 4096))]

theorem speculation_current_volume :
    let e : Entry := ⟨1, 2, .createVolume "v" "v" 4096⟩
    ∃ σ n l e', Cluster.run (votersOf ["a"]) {} volumeRun = some σ ∧ (σ.servers "a").node = some n ∧
      n.spec = some n.logged ∧ Unrejected n.catalog l ∧ σ.AppliedLog l ∧ l[1]? = some e' ∧
      (e' = e ∨ e'.term ≠ 1) := by
  intro e
  have hwhole : Along (votersOf ["a"]) (fun σ ev => ev.Whole σ) {} volumeRun := by
    decide +kernel
  have h : (run (votersOf ["a"]) {} volumeRun).any (fun σ => (e, 1) ∈ σ.created ∧ (σ.servers "a").node.any
      fun n => n.role = .leader ∧ n.spec.isSome ∧ 2 ≤ n.catalog.appliedIndex) = true := by decide +kernel
  obtain ⟨σ, hσ, h⟩ := (any_eq_true _ _).mp h
  obtain ⟨he, h⟩ := of_decide_eq_true h
  obtain ⟨n, hn, h⟩ := (any_eq_true _ _).mp h
  obtain ⟨hrole, hspec, hle⟩ := of_decide_eq_true h
  obtain ⟨c, hc⟩ := isSome_iff_exists.mp hspec
  obtain ⟨hcurrent, -, hlogs⟩ := speculation_current hwhole hσ
  obtain ⟨l, hl, hagree, hcreated⟩ := hlogs "a" n hn
  obtain ⟨e', he'⟩ := hcreated e 1 he hle
  exact ⟨σ, n, l, e', hσ, hn, hcurrent "a" n hn hrole c hc ▸ hc, hl, hagree, he'⟩

/-- An inode of a replication stream, all of its attributes zero. -/
def plainReplica (ino : Nat) (nodeType : NodeType) (entries : List (String × Option Nat)) :
    ReplicaInode :=
  ⟨ino, nodeType, 0, 0, 0, 1, 0, 0, 0, ∅, 0, [], 1, entries, none, 0⟩

/-- A replica holds a file, loses it in one increment and gets a directory of the same inode in
another try of it. The next increment starts over from the snapshot, where the inode is a file
again, and is rejected for it: but only after the restart. -/
def restartRun : List Event :=
  let apply (fromSnap : Option String) (toSnap : String) (inodes : List ReplicaInode)
      (removed : List Nat) : Event := .call "a" (.propose (.fs (.replicaApply "f" fromSnap toSnap inodes removed)))
  aloneRun ++ [.call "a" (.propose (.fs (.createReplica "f" "f" 0 4096))),
    apply none "s0" [plainReplica 5 .file [], plainReplica 1 .dir [("l", some 5)]] [],
    .call "a" (.propose (.fs (.replicaCommit "f" none "s0" "L0" "n" 6 0))),
    apply (some "s0") "s1" [] [5],
    apply (some "s0") "s1" [plainReplica 5 .dir []] [],
    apply (some "s0") "s2" [plainReplica 5 .dir [("k", some 7)]] []]

/-- What a leader then accepts. -/
def acceptedLate : MetaCommand := .fs (.replicaApply "f" (some "s0") "s3" [plainReplica 5 .file []] [])

theorem restartRun_accepts : (run (votersOf ["a"]) {} restartRun).any (fun σ => (σ.servers "a").node.any
    fun n => n.role = .leader && n.spec.any fun c => c ≠ n.logged &&
      match RaftM.appendValidated acceptedLate ⟨n, (σ.servers "a").disk, []⟩ with
      | .ok index _ => match n.logged.applyCommitted n.hard.term index acceptedLate with
        | (.err _, _) => true
        | _ => false
      | .error .. => false) = true := by decide +kernel

/-- After a proposal that was rejected halfway, a leader's speculative catalog is not what its log
says, and it accepts a command that is rejected when it is applied. -/
theorem rejected_halfway_lingers : ∃ σ n c command index t,
    Cluster.run (votersOf ["a"]) {} restartRun = some σ ∧ (σ.servers "a").node = some n ∧
    n.role = .leader ∧ n.spec = some c ∧ c ≠ n.logged ∧
    RaftM.appendValidated command ⟨n, (σ.servers "a").disk, []⟩ = .ok index t ∧
    ∃ e c', n.logged.applyCommitted n.hard.term index command = (.err e, c') := by
  obtain ⟨σ, hσ, h⟩ := (any_eq_true _ _).mp restartRun_accepts
  obtain ⟨n, hn, h⟩ := (any_eq_true _ _).mp h
  obtain ⟨hrole, h⟩ := and_eq_true_iff.mp h
  obtain ⟨c, hc, h⟩ := (any_eq_true _ _).mp h
  obtain ⟨hne, h⟩ := and_eq_true_iff.mp h
  split at h
  · rename_i index t hok
    split at h
    · rename_i e c' herr
      exact ⟨σ, n, c, _, index, t, hσ, hn, of_decide_eq_true hrole, hc, of_decide_eq_true hne, hok, e, c', herr⟩
    · cases h
  · cases h

end

end AtlasNative
