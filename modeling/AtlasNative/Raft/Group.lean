import AtlasNative.Raft.Opening
import AtlasNative.Raft.Calls

/-!
# What holds of a group in every state it reaches

`GroupInv` puts the invariants of the servers, the messages and the history together. Every event of
the group keeps it, for a history that goes on from the one before.
-/

namespace AtlasNative

open Consensus RaftM List Function Cluster Option
open Relation (ReflTransGen)
open History (Ext Untouched)

section

variable (m₀ : Membership) (strict : Prop) (soup : Envelope → Prop) (H : History NodeId Entry)

/-- A server that is up, or its disk while it is down. -/
def ServerInv (id : NodeId) (srv : Server) : Prop := match srv.node with
  | none => ∃ full sure base, DiskInv strict H id srv.disk full sure base
  | some n => n.cfg.id = id ∧ m₀.Valid ∧ Boundary ⟨n, srv.disk, []⟩ ∧ Wf ⟨n, srv.disk, []⟩ ∧
      ∃ full sure, NodeInv m₀ strict soup H n.view srv.disk full sure

structure GroupInv (σ : Cluster) : Prop where
  hist : HistInv m₀ H σ.created
  msgs : ∀ env ∈ σ.soup, MsgInv (· ∈ σ.soup) H env
  applied : ∀ p ∈ σ.applied, AppliedInv H p.2
  servers : ∀ id, ServerInv m₀ strict (· ∈ σ.soup) H id (σ.servers id)

end

variable {m₀ : Membership} {strict : Prop} {soup soup' : Envelope → Prop}
  {H H' : History NodeId Entry} {σ σ' : Cluster} {id y : NodeId} {srv : Server}

/-! ### Servers -/

theorem ServerInv.disk (h : ServerInv m₀ strict soup H id srv) :
    ∃ full sure base, DiskInv strict H id srv.disk full sure base := by
  unfold ServerInv at h
  split at h
  · exact h
  · obtain ⟨hid, -, -, hwf, full, sure, hinv⟩ := h
    obtain ⟨l, hl⟩ := hinv.log.disk hwf hinv.own
    rw [← hid]
    exact ⟨_, _, _, hl⟩

theorem ServerInv.ext (hH : H.Coherent m₀) (hext : Ext y H H') (hne : id ≠ y)
    (h : ServerInv m₀ strict soup H id srv) : ServerInv m₀ strict soup H' id srv := by
  have hu := hext.untouched hne
  unfold ServerInv at h ⊢
  split at h
  · obtain ⟨full, sure, base, hd⟩ := h
    exact ⟨full, sure, base, hd.ext hH hext hu⟩
  · obtain ⟨hid, hv, hb, hwf, full, sure, hinv⟩ := h
    rw [← hid] at hu
    exact ⟨hid, hv, hb, hwf, full, sure, hinv.ext hH hext hu hwf.led⟩

theorem ServerInv.mono (hsoup : ∀ env, soup env → soup' env) (hnew : ∀ t, AskedVotes soup' id t → AskedVotes soup id t)
    (h : ServerInv m₀ strict soup H id srv) : ServerInv m₀ strict soup' H id srv := by
  unfold ServerInv at h ⊢
  split at h
  · exact h
  · obtain ⟨hid, hv, hb, hwf, full, sure, hinv⟩ := h
    refine ⟨hid, hv, hb, hwf, full, sure, hinv.mono hsoup fun t _ ht => ?_⟩
    have hid' : (RaftNode.view _).id = id := hid
    rw [hid'] at ht ⊢
    exact hnew t ht

/-! ### Events at one server -/

/-- Server `id` has gone on, or gone down, and the group's records with it. -/
theorem GroupInv.update (h : GroupInv m₀ strict H σ) {applied : List Entry}
    (hext : Ext id H H') (hist : HistInv m₀ H' σ'.created)
    (happ : ∀ e ∈ applied, AppliedInv H' e) (happ' : σ'.applied = σ.applied ++ applied.map (id, ·))
    (hsoup : σ'.soup = σ.soup)
    (hservers : ∀ y, y ≠ id → σ'.servers y = σ.servers y)
    (hserver : ServerInv m₀ strict (· ∈ σ.soup) H' id (σ'.servers id)) :
    GroupInv m₀ strict H' σ' where
  hist := hist
  msgs env henv := by
    rw [hsoup] at henv ⊢
    exact (h.msgs env henv).ext h.hist.coherent hext
  applied p hp := by
    rw [happ'] at hp
    rcases mem_append.mp hp with hp | hp
    · exact (h.applied p hp).ext h.hist.coherent hext
    · obtain ⟨e, he, rfl⟩ := mem_map.mp hp
      exact happ e he
  servers y := by
    rw [hsoup]
    by_cases hy : y = id
    · subst hy
      exact hserver
    · rw [hservers y hy]
      exact (h.servers y).ext h.hist.coherent hext hy

variable {n : RaftNode}

theorem GroupInv.node (h : GroupInv m₀ strict H σ) (hn : (σ.servers id).node = some n) :
    n.cfg.id = id ∧ Boundary ⟨n, (σ.servers id).disk, []⟩ ∧
      ∃ full sure, Good m₀ strict (· ∈ σ.soup) H σ.created ⟨n, (σ.servers id).disk, []⟩ full sure := by
  have hs := h.servers id
  rw [ServerInv, hn] at hs
  obtain ⟨hid, hv, hb, hwf, full, sure, hinv⟩ := hs
  exact ⟨hid, hb, full, sure, hv, h.msgs, h.hist, hwf, hinv⟩

variable {s s' : NodeState} {full sure : List Entry}

variable {w : Setting}

theorem Path.reaches {created : List (Entry × Nat)} (h : Path w s s')
    (g : Good m₀ strict w.soup H created s full sure) (ht : s.trace = []) :
    Reaches m₀ strict w.soup H created s s' s'.trace := by
  suffices hex : ∃ fx, Reaches m₀ strict w.soup H created s s' fx by
    obtain ⟨fx, hfx⟩ := hex
    have := hfx.trace
    rw [ht, nil_append] at this
    rwa [this]
  induction h with
  | refl => exact ⟨_, .refl g⟩
  | tail _ ha ih =>
    obtain ⟨fx, hfx⟩ := ih
    exact hfx.step ha (congrArg Prod.fst ha.identity)

/-! ### Crashes -/

/-- The disk a crash leaves, before unsynced records are lost. -/
def diskAfter (d : Disk) (fx : List (Effect × Disk)) : Disk := (fx.getLast?.map Prod.snd).getD d

section

variable (h : GroupInv m₀ strict H σ)
include h

theorem GroupInv.lose {fx : List (Effect × Disk)} {done : Nat}
    (hl : Leaves m₀ strict H (σ.created ++ createdOf (fx.take done)) (appliedOf (fx.take done)) id
      (diskAfter (σ.servers id).disk (fx.take done))) (kept : Nat) :
    ∃ H', Ext id H H' ∧ GroupInv m₀ strict H' (σ.lose id fx done kept) := by
  obtain ⟨H', full, sure, base, hext, hist, happ, hd⟩ := hl
  refine ⟨H', hext, h.update hext hist happ rfl rfl (fun y hy => update_of_ne hy _ _) ?_⟩
  obtain ⟨full', hd'⟩ := hd.crash kept
  have hsrv : (σ.lose id fx done kept).servers id = { σ.servers id with
      disk := (diskAfter (σ.servers id).disk (fx.take done)).crash kept, node := none } :=
    update_self ..
  rw [hsrv]
  exact ⟨full', sure, base, hd'⟩

theorem GroupInv.leaves : Leaves m₀ strict H (σ.created ++ createdOf []) (appliedOf []) id (σ.servers id).disk := by
  obtain ⟨full, sure, base, hd⟩ := (h.servers id).disk
  refine ⟨H, full, sure, base, Ext.refl _ _, ?_, by simp [appliedOf], hd⟩
  rw [show createdOf [] = [] from rfl, append_nil]
  exact h.hist

theorem GroupInv.leaves_take {fx : List (Effect × Disk)} (hfx : ∀ k x, fx[k]? = some x → (strict → ¬ Torn x) →
      Leaves m₀ strict H (σ.created ++ createdOf (fx.take (k + 1))) (appliedOf (fx.take (k + 1)))
        id x.2) (done : Nat) (htorn : ∀ x, (fx.take done).getLast? = some x → strict → ¬ Torn x) :
    Leaves m₀ strict H (σ.created ++ createdOf (fx.take done)) (appliedOf (fx.take done)) id
      (diskAfter (σ.servers id).disk (fx.take done)) := by
  cases hlast : (fx.take done).getLast? with
  | none =>
    rw [getLast?_eq_none_iff] at hlast
    rw [hlast]
    exact h.leaves
  | some x =>
    have hne : 0 < (fx.take done).length := by
      rw [length_pos_iff]
      rintro hnil
      simp [hnil] at hlast
    have hlen := length_take (i := done) (l := fx)
    rw [diskAfter, hlast]
    rw [getLast?_eq_getElem?, getElem?_take_of_lt (by omega)] at hlast
    have := hfx _ x hlast (htorn x (by
      rw [getLast?_eq_getElem?, getElem?_take_of_lt (by omega)]
      exact hlast))
    have htake : fx.take ((fx.take done).length - 1 + 1) = fx.take done := by
      rw [show (fx.take done).length - 1 + 1 = min done fx.length by omega]
      exact take_eq_take_iff.mpr (by omega)
    rwa [htake] at this

/-! ### Calls -/

theorem GroupInv.contiguous {env : Envelope} (henv : env ∈ σ.soup) {term pi pt lc rs : Nat}
    {entries : List Entry} (hmsg : env.msg = .appendEntries term pi pt entries lc rs) :
    Contiguous pi entries := by
  have hm := h.msgs env henv
  rw [MsgInv, hmsg] at hm
  obtain ⟨hel, -, -, hent, -⟩ := hm
  have hdrop := (h.hist.numbered term ⟨_, hel⟩).drop pi
  rw [zero_add] at hdrop
  rw [prefix_iff_eq_take.mp hent]
  exact hdrop.take _

section

variable {s₀ : NodeState} (hr : Reaches m₀ strict (· ∈ σ.soup) H σ.created s₀ s s.trace)
  (hid : s₀.node.cfg.id = id)
include hr hid

theorem GroupInv.goOn (hb : Boundary s) : ∃ H', Ext id H H' ∧ GroupInv m₀ strict H' (σ.goOn id s) := by
  obtain ⟨H', full, sure, hext, g, happ⟩ := hr.good
  rw [hid] at hext
  refine ⟨H', hext, h.update hext g.hist happ rfl rfl (fun y hy => update_of_ne hy _ _) ?_⟩
  have hsrv : (σ.goOn id s).servers id = { σ.servers id with disk := s.disk, node := some s.node } := update_self ..
  rw [hsrv]
  exact ⟨hr.id.trans hid, g.valid, hb, g.wf.congr rfl rfl, full, sure, g.node⟩

theorem GroupInv.stop : ∃ H', Ext id H H' ∧ GroupInv m₀ strict H' ((σ.record id s.trace).setServer id
      { σ.servers id with disk := s.disk, node := none }) := by
  obtain ⟨H', full, sure, hext, g, happ⟩ := hr.good
  rw [hid] at hext
  refine ⟨H', hext, h.update hext g.hist happ rfl rfl (fun y hy => update_of_ne hy _ _) ?_⟩
  obtain ⟨l, hl⟩ := g.node.log.disk g.wf g.node.own
  have hsrv : ((σ.record id s.trace).setServer id { σ.servers id with disk := s.disk, node := none }).servers id =
      { σ.servers id with disk := s.disk, node := none } := update_self ..
  rw [hsrv]
  rw [hr.id, hid] at hl
  exact ⟨_, l, _, hl⟩

end

omit h in
theorem RaftM.map_ok {α β : Type} {x : RaftM α} {f : α → β} {r : β}
    (h : (x >>= fun a => pure (f a)) s = .ok r s') : ∃ a, r = f a := by
  cases hx : x s with
  | error e t =>
    rw [bind_error hx] at h
    simp at h
  | ok a t =>
    rw [bind_ok hx] at h
    obtain ⟨rfl, -⟩ := EStateM.Result.ok.inj h
    exact ⟨a, rfl⟩

variable {op : Op}

omit h in
/-- Only `takeMessages` releases messages. -/
theorem Op.run_messages {msgs : List Envelope} (h : op.run s = .ok (.messages msgs) s') : op = .takeMessages := by
  cases op with
  | takeMessages => rfl
  | tick | step | propose | changeMembership | readIndex | readResult | forgetRead =>
    obtain ⟨a, ha⟩ := map_ok h
    simp at ha

section

variable (hn : (σ.servers id).node = some n) (hop : σ.Deliverable id op)
  (htake : op ≠ .takeMessages)
include hn hop htake

theorem GroupInv.runs (hw : w.soup = (· ∈ σ.soup)) (hready : ∀ command, op = .propose command →
      n.role = .leader → w.Ready ⟨n, (σ.servers id).disk, []⟩ command) :
    Whole w op.run ⟨n, (σ.servers id).disk, []⟩ := by
  obtain ⟨hid, hb, -⟩ := h.node hn
  refine runs_call hb htake ?_ hready
  rintro env rfl
  rw [hw]
  exact ⟨hop.1, hop.2.trans hid.symm, fun _ _ _ _ _ _ hmsg => h.contiguous hop.1 hmsg⟩

theorem GroupInv.callRuns : Whole (.any (· ∈ σ.soup)) op.run ⟨n, (σ.servers id).disk, []⟩ :=
  h.runs hn hop htake rfl fun _ _ _ => ⟨fun _ _ _ => .inr (.inr trivial), .inr trivial⟩

omit hn hop htake in
theorem GroupInv.answer {r : Reply} (hr : ∀ msgs, r ≠ .messages msgs) :
    GroupInv m₀ strict H (σ.answer r) := by
  cases r with
  | messages msgs => exact absurd rfl (hr msgs)
  | nothing | index | barrier | result => exact { h with }

theorem GroupInv.call : ∃ H', Ext id H H' ∧ GroupInv m₀ strict H' (σ.call id n op) := by
  obtain ⟨hid, hb, full, sure, g⟩ := h.node hn
  have hrun := h.callRuns hn hop htake g.wf
  unfold Cluster.call
  cases hres : op.run ⟨n, (σ.servers id).disk, []⟩ with
  | ok r s =>
    rw [hres] at hrun
    obtain ⟨H', hext, hinv⟩ := h.goOn (hrun.1.reaches g rfl) hid hrun.2
    exact ⟨H', hext, hinv.answer fun msgs hr => htake (Op.run_messages (hr ▸ hres))⟩
  | error e s =>
    rw [hres] at hrun
    obtain ⟨t, hpath, hdisk, htrace, href⟩ := hrun
    dsimp only
    split
    · rename_i hrefusal
      obtain ⟨rfl, hb'⟩ := href hrefusal
      exact h.goOn (hpath.reaches g rfl) hid hb'
    · rw [← hdisk, ← htrace]
      exact h.stop (hpath.reaches g rfl) hid

theorem GroupInv.callDisks {k : Nat} {x : Effect × Disk} (hx : (σ.callEffects id n op)[k]? = some x)
    (htorn : strict → ¬ Torn x) :
    Leaves m₀ strict H (σ.created ++ createdOf ((σ.callEffects id n op).take (k + 1)))
      (appliedOf ((σ.callEffects id n op).take (k + 1))) id x.2 := by
  obtain ⟨hid, hb, full, sure, g⟩ := h.node hn
  have hrun := h.callRuns hn hop htake g.wf
  unfold callEffects at hx ⊢
  cases hres : op.run ⟨n, (σ.servers id).disk, []⟩ with
  | ok r s =>
    rw [hres] at hrun hx
    have := (hrun.1.reaches g rfl).disks k x hx htorn
    rwa [hid] at this
  | error e s =>
    rw [hres] at hrun hx
    obtain ⟨t, hpath, -, htrace, -⟩ := hrun
    dsimp only at hx ⊢
    rw [← htrace] at hx ⊢
    have := (hpath.reaches g rfl).disks k x hx htorn
    rwa [hid] at this

end

end

/-! ### Releasing messages -/

theorem NodeInv.released {v : View} {d : Disk} (h : NodeInv m₀ strict soup H v d full sure)
    (hsoup : ∀ env, soup env → soup' env) (hpend : v.role = .candidate → d.pending = []) :
    NodeInv m₀ strict soup' H v d full sure :=
  { h with
    cand := fun hr => { h.cand hr with asked := fun _ => hpend hr }
    out := fun env henv => (h.out env henv).imp rfl (·.mono hsoup) fun _ _ hu => hu }

theorem ServerInv.released (h : ServerInv m₀ strict soup H id srv) (hsoup : ∀ env, soup env → soup' env)
    (hpend : ∀ n, srv.node = some n → n.role = .candidate → srv.disk.pending = []) :
    ServerInv m₀ strict soup' H id srv := by
  unfold ServerInv at h ⊢
  split at h
  · exact h
  · rename_i n hn
    obtain ⟨hid, hv, hb, hwf, full, sure, hinv⟩ := h
    exact ⟨hid, hv, hb, hwf, full, sure, hinv.released hsoup (hpend n hn)⟩

/-- Messages of server `x` that are true are released. -/
theorem GroupInv.release (h : GroupInv m₀ strict H σ) {x : NodeId} {out : List Envelope}
    (hout : ∀ env ∈ out, env.sender = x ∧ MsgInv (· ∈ σ.soup) H env)
    (hpend : ∀ n, (σ.servers x).node = some n → n.role = .candidate → (σ.servers x).disk.pending = []) :
    GroupInv m₀ strict H { σ with soup := σ.soup ++ out } := by
  have hsoup : ∀ env, env ∈ σ.soup → env ∈ σ.soup ++ out := fun env henv =>
    mem_append_left _ henv
  refine { h with msgs := fun env henv => ?_, servers := fun y => ?_ }
  · rcases mem_append.mp henv with henv | henv
    · exact (h.msgs env henv).mono hsoup
    · exact (hout env henv).2.mono hsoup
  · by_cases hy : y = x
    · subst hy
      exact (h.servers y).released hsoup hpend
    · refine (h.servers y).mono hsoup ?_
      rintro t ⟨env, li, lt, henv, hsend, hmsg⟩
      rcases mem_append.mp henv with henv | henv
      · exact ⟨env, li, lt, henv, hsend, hmsg⟩
      · exact absurd (hsend.symm.trans (hout env henv).1) hy

/-- The state in which `takeMessages` hands over the outbox. -/
def NodeState.flushed (s : NodeState) : NodeState :=
  if s.node.role ≠ .leader then s.synced else s

theorem NodeState.flushed_path (s : NodeState) : Path w s s.flushed := by
  unfold flushed
  split
  · exact s.synced_path
  · exact Path.refl

theorem Boundary.flushed (h : Boundary s) : Boundary s.flushed := by
  intro hlead hsolo
  unfold NodeState.flushed at hlead hsolo ⊢
  split
  · exact s.synced_pending
  · rename_i hr
    rw [if_neg hr] at hlead hsolo
    exact h hlead hsolo

/-- Nothing in the outbox is ahead of the disk when it is handed over. -/
theorem Good.flushed {created : List (Entry × Nat)}
    (g : Good m₀ strict soup H created s.flushed full sure) (hb : Boundary s) :
    (s.flushed.node.role ≠ .leader → s.flushed.disk.pending = []) ∧
    ∀ env ∈ s.flushed.node.outbox, env.sender = s.flushed.node.cfg.id ∧ MsgInv soup H env := by
  have hpend : s.flushed.node.role ≠ .leader → s.flushed.disk.pending = [] := by
    unfold NodeState.flushed
    split
    · exact fun _ => s.synced_pending
    · rename_i hr
      exact fun h => absurd h hr
  refine ⟨hpend, fun env henv => ?_⟩
  obtain ⟨hs, h⟩ := g.node.out env henv
  refine ⟨hs, h.resolve_right ?_⟩
  rintro ⟨t, k, rs, -, hu⟩
  by_cases hr : s.flushed.node.role = .leader
  · -- a leader that alone is a quorum has synced
    have hsame : s.flushed = s := by
      unfold NodeState.flushed at hr ⊢
      split
      · rename_i hne
        obtain ⟨w, hw⟩ := s.synced_node
        rw [if_pos hne, hw] at hr
        exact absurd hr hne
      · rfl
    rw [hsame] at hr hu
    exact hu.pending (hb hr (hu.leader hr).1)
  · exact hu.pending (hpend hr)

theorem takeMessages_run (hwf : Wf s) : Op.takeMessages.run s =
    .ok (.messages s.flushed.node.outbox) (s.flushed.update fun n => { n with outbox := [] }) := by
  show (takeMessages >>= fun msgs => pure (Reply.messages msgs)) s = _
  rw [bind_ok (takeMessages_eq hwf)]
  rfl

section

variable (h : GroupInv m₀ strict H σ) (hn : (σ.servers id).node = some n)
include h hn

theorem GroupInv.takeMessages : ∃ H', Ext id H H' ∧ GroupInv m₀ strict H' (σ.call id n .takeMessages) := by
  obtain ⟨hid, hb, full, sure, g⟩ := h.node hn
  generalize hs : (⟨n, (σ.servers id).disk, []⟩ : NodeState) = s at hb g
  have hr := (NodeState.flushed_path (w := .any (· ∈ σ.soup)) s).reaches g (by rw [← hs])
  have hsid : s.node.cfg.id = id := by rw [← hs]; exact hid
  obtain ⟨H', full', sure', hext, g', happ⟩ := hr.good
  rw [hsid] at hext
  obtain ⟨hpend, hout⟩ := g'.flushed hb
  let u := s.flushed.update fun n => { n with outbox := [] }
  have hsrv : (σ.goOn id u).servers id = { σ.servers id with disk := u.disk, node := some u.node } := update_self ..
  have hgo : GroupInv m₀ strict H' (σ.goOn id u) := by
    refine h.update hext g'.hist happ rfl rfl (fun y hy => update_of_ne hy _ _) ?_
    rw [hsrv]
    exact ⟨hr.id.trans hsid, g'.valid, hb.flushed, g'.wf.of_eq rfl rfl rfl rfl rfl rfl le_rfl g'.wf.led,
      full', sure', g'.node.outbox [] nofun⟩
  refine ⟨H', hext, ?_⟩
  rw [Cluster.call, hs, takeMessages_run g.wf]
  refine hgo.release (x := id) (fun env henv => ?_) fun n' hn' hr' => ?_
  · obtain ⟨hsend, hmsg⟩ := hout env henv
    exact ⟨hsend.trans (hr.id.trans hsid), hmsg⟩
  · rw [hsrv] at hn' ⊢
    obtain rfl := some.inj hn'
    refine hpend fun hl => ?_
    rw [show s.flushed.node.role = .candidate from hr'] at hl
    exact nomatch hl

theorem GroupInv.takeMessagesDisks {k : Nat} {x : Effect × Disk}
    (hx : (σ.callEffects id n .takeMessages)[k]? = some x) (htorn : strict → ¬ Torn x) :
    Leaves m₀ strict H (σ.created ++ createdOf ((σ.callEffects id n .takeMessages).take (k + 1)))
      (appliedOf ((σ.callEffects id n .takeMessages).take (k + 1))) id x.2 := by
  obtain ⟨hid, hb, full, sure, g⟩ := h.node hn
  rw [callEffects, takeMessages_run g.wf] at hx ⊢
  have := ((NodeState.flushed_path (w := .any (· ∈ σ.soup)) _).reaches g rfl).disks k x hx htorn
  rwa [hid] at this

end

/-! ### Every event -/

/-- A crash between storing a snapshot and rewriting a log that contradicts it. -/
def Cluster.Tears (σ : Cluster) : Event → Prop
  | .crashCall id op done _ => ∃ n, (σ.servers id).node = some n ∧
      ∃ x, ((σ.callEffects id n op).take done).getLast? = some x ∧ Torn x
  | _ => False

variable {cfg : RaftConfig}

theorem RaftConfig.initial_valid (h : cfg.initial = .ok m₀) : m₀.Valid := by
  have hne : ∀ {l : List NodeId}, l ≠ [] → Membership.Valid (.stable (.ofList l)) := by
    intro l hl he
    obtain ⟨a, ha⟩ := exists_mem_of_ne_nil l hl
    have : a ∈ (Std.ExtTreeSet.ofList l : BTreeSet NodeId) := by simp [ha]
    rw [he] at this
    simp at this
  unfold RaftConfig.initial at h
  split at h
  · split at h
    · simp at h
    · rename_i hb
      rw [← Except.ok.inj h]
      exact hne fun hnil => hb (.inl hnil)
  · rw [← Except.ok.inj h]
    exact hne (by simp)

theorem Cluster.opening_eq (ho : σ.opening m₀ id cfg = some s) : cfg.id = id ∧ m₀.Valid ∧ cfg.initial = .ok m₀ ∧
      RaftNode.open cfg (σ.servers id).disk ((σ.servers id).epoch + 1) = .ok s := by
  unfold opening at ho
  split at ho
  · simp at ho
  rename_i hcond
  rw [not_or, not_not] at hcond
  split at ho
  · simp at ho
  rename_i m hm
  split at ho
  · simp at ho
  rename_i hm0
  rw [not_not] at hm0
  subst hm0
  refine ⟨hcond.2, ?_, hm, ?_⟩
  · exact RaftConfig.initial_valid hm
  · cases hopen : RaftNode.open cfg (σ.servers id).disk ((σ.servers id).epoch + 1) with
    | error e => simp [hopen, Except.toOption] at ho
    | ok t =>
      rw [hopen] at ho
      exact congrArg _ (some.inj ho)

theorem GroupInv.start (h : GroupInv m₀ strict H σ) (ho : σ.opening m₀ id cfg = some s) :
    GroupInv m₀ strict H (σ.goOn id s) ∧ ∀ k x, s.trace[k]? = some x → (strict → ¬ Torn x) →
      Leaves m₀ strict H (σ.created ++ createdOf (s.trace.take (k + 1))) (appliedOf (s.trace.take (k + 1))) id x.2 := by
  obtain ⟨rfl, hv, hinit, hopen⟩ := opening_eq ho
  obtain ⟨full, sure, base, hd⟩ := (h.servers cfg.id).disk
  obtain ⟨⟨full', hwf, hinv⟩, hsid, -, hrole, hcr, hap, htr⟩ := hd.opens h.hist (· ∈ σ.soup) hv hinit hopen
  have hist : HistInv m₀ H (σ.created ++ createdOf s.trace) := by
    rw [hcr, append_nil]
    exact h.hist
  have happ : ∀ e ∈ appliedOf s.trace, AppliedInv H e := by simp [hap]
  refine ⟨h.update (Ext.refl cfg.id H) hist happ rfl rfl (fun y hy => update_of_ne hy _ _) ?_, fun k x hx _ => ?_⟩
  · have hsrv : (σ.goOn cfg.id s).servers cfg.id =
        { σ.servers cfg.id with disk := s.disk, node := some s.node } := update_self ..
    rw [hsrv]
    exact ⟨hsid, hv, Boundary.of_ne hrole, hwf.congr rfl rfl, full', sure, hinv⟩
  · obtain ⟨f, l, b, hx⟩ := htr x (mem_of_getElem? hx)
    have hcr' : createdOf (s.trace.take (k + 1)) = [] := by
      have := createdOf_append (s.trace.take (k + 1)) (s.trace.drop (k + 1))
      rw [take_append_drop, hcr] at this
      exact (append_eq_nil_iff.mp this.symm).1
    have hap' : appliedOf (s.trace.take (k + 1)) = [] := by
      have := appliedOf_append (s.trace.take (k + 1)) (s.trace.drop (k + 1))
      rw [take_append_drop, hap] at this
      exact (append_eq_nil_iff.mp this.symm).1
    rw [hcr', hap', append_nil]
    exact ⟨H, f, l, b, Ext.refl _ _, h.hist, by simp, hx⟩

theorem GroupInv.setEpoch (h : GroupInv m₀ strict H σ) (epoch : Nat) :
    GroupInv m₀ strict H (σ.setServer id { σ.servers id with epoch := epoch }) := by
  refine { h with servers := fun y => ?_ }
  show ServerInv m₀ strict (· ∈ σ.soup) H y (Function.update σ.servers id _ y)
  by_cases hy : y = id
  · subst hy
    rw [update_self]
    exact h.servers y
  · rw [update_of_ne hy]
    exact h.servers y

theorem Cluster.exec_opening {k : NodeState → Cluster} (h : (do let s ← σ.opening m₀ id cfg; return k s) = some σ') :
    ∃ s, σ.opening m₀ id cfg = some s ∧ k s = σ' := by
  obtain ⟨s, hs, h⟩ := bind_eq_some_iff.mp h
  exact ⟨s, hs, some.inj h⟩

theorem Cluster.exec_node {op : Op} {k : RaftNode → Cluster}
    (h : (do let n ← (σ.servers id).node; if σ.Deliverable id op then return k n else none) =
      some σ') : ∃ n, (σ.servers id).node = some n ∧ σ.Deliverable id op ∧ k n = σ' := by
  obtain ⟨n, hn, h⟩ := bind_eq_some_iff.mp h
  split at h
  · exact ⟨n, hn, ‹_›, some.inj h⟩
  · cases h

/-- Every event keeps the invariant. -/
theorem GroupInv.exec (h : GroupInv m₀ strict H σ) {ev : Event} (hev : σ.exec m₀ ev = some σ')
    (htear : strict → ¬ σ.Tears ev) : ∃ H' y, Ext y H H' ∧ GroupInv m₀ strict H' σ' := by
  cases ev with
  | start id cfg =>
    obtain ⟨s, ho, rfl⟩ := exec_opening hev
    exact ⟨H, id, Ext.refl _ _, (h.start ho).1.setEpoch _⟩
  | call id op =>
    obtain ⟨n, hn, hop, rfl⟩ := exec_node hev
    by_cases htake : op = .takeMessages
    · subst htake
      obtain ⟨H', hext, h'⟩ := h.takeMessages hn
      exact ⟨H', id, hext, h'⟩
    · obtain ⟨H', hext, h'⟩ := h.call hn hop htake
      exact ⟨H', id, hext, h'⟩
  | crash id kept =>
    obtain rfl := some.inj hev
    have hl : Leaves m₀ strict H (σ.created ++ createdOf ([].take 0)) (appliedOf ([].take 0)) id
        (diskAfter (σ.servers id).disk ([].take 0)) := h.leaves
    obtain ⟨H', hext, h'⟩ := h.lose hl kept
    exact ⟨H', id, hext, h'⟩
  | crashStart id cfg done kept =>
    obtain ⟨s, ho, rfl⟩ := exec_opening hev
    obtain ⟨-, -, hinit, hopen⟩ := opening_eq ho
    obtain ⟨tr, rfl, -, -, -, htr⟩ := open_eq hinit hopen
    have hl := h.leaves_take (h.start ho).2 done (by
      rintro x hx - ⟨c, hc, -⟩
      exact (htr x (mem_of_mem_take (mem_of_getLast? hx))).1 c hc)
    obtain ⟨H', hext, h'⟩ := h.lose hl kept
    exact ⟨H', id, hext, h'⟩
  | crashCall id op done kept =>
    obtain ⟨n, hn, hop, rfl⟩ := exec_node hev
    have htorn : ∀ x, ((σ.callEffects id n op).take done).getLast? = some x → strict → ¬ Torn x :=
      fun x hx hs ht => htear hs ⟨n, hn, x, hx, ht⟩
    have hl := h.leaves_take (fun k x hx ht => by
      by_cases htake : op = .takeMessages
      · subst htake
        exact h.takeMessagesDisks hn hx ht
      · exact h.callDisks hn hop htake hx ht) done htorn
    obtain ⟨H', hext, h'⟩ := h.lose hl kept
    exact ⟨H', id, hext, h'⟩

end AtlasNative
