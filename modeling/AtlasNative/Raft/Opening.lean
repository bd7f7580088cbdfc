import AtlasNative.Raft.Growth

/-!
# Opening a node

A server that went down at any moment left a disk that `DiskInv` describes. Opening it drops from
the log what the stored catalog covers and starts a follower that satisfies the invariants of a
running node; so does the disk after each effect of the opening.
-/

namespace AtlasNative

open Consensus List NodeState
open History (Ext Untouched)

variable {m₀ : Membership} {strict : Prop} {H : History NodeId Entry}
  {created : List (Entry × Nat)} {full sure : List Entry} {x : NodeId} {d : Disk} {base epoch : Nat}

/-- The disk once the stored catalog is certain and the log rewritten. -/
def Disk.opened (d : Disk) : Disk :=
  (d.perform (.checkpoint (d.store.getD {}))).perform (.walKeepAbove (d.store.getD {}).appliedIndex)

/-- The log a node opens with. -/
def Disk.openLog (d : Disk) : List Entry :=
  d.records.filter ((d.store.getD {}).appliedIndex < ·.index)

section

variable (hist : HistInv m₀ H created) (hd : DiskInv strict H x d full sure base)

include hd

theorem DiskInv.applied : (d.store.getD {}).appliedIndex = sure.length := hd.store.appliedIndex

include hist

theorem DiskInv.contiguous : Contiguous base d.records := by
  rw [hd.records]
  have := (hist.numbered.log hd.ok).drop base
  rwa [zero_add] at this

theorem DiskInv.openLog : d.openLog = full.drop sure.length := by
  rw [Disk.openLog, hd.applied, (hd.contiguous hist).filter_gt hd.stored, hd.records, drop_drop]
  congr 1
  have := hd.stored
  omega

theorem DiskInv.opened_records : d.opened.synced = full.drop sure.length ∧ d.opened.pending = [] :=
  ⟨hd.openLog hist, rfl⟩

/-- The term of the stored catalog is not ahead of the one persisted. -/
theorem DiskInv.currentTerm_le : (d.store.getD {}).currentTerm ≤ d.hard.term := by
  rw [hd.store.currentTerm]
  by_cases hne : sure = []
  · rw [hne]
    exact Nat.zero_le _
  · obtain ⟨e, he, hte⟩ := lastTerm_mem hne
    rw [← hte]
    exact hd.certified.term_le hist.coherent e he

theorem DiskInv.lastRecord : max ((d.records.getLast?.map Entry.index).getD 0) sure.length =
    sure.length + (full.drop sure.length).length := by
  have hc := hd.contiguous hist
  have hrec := congrArg length hd.records
  have hstored := hd.stored
  rw [length_drop] at hrec ⊢
  rcases eq_nil_or_concat d.records with hnil | ⟨l, e, hl⟩
  · rw [hnil] at hrec ⊢
    simp at hrec ⊢
    omega
  · have hidx := hc l.length e (by simp [hl])
    rw [hl] at hrec ⊢
    simp at hrec ⊢
    omega

/-- The log a node opens with, or the one its catalog replays if that reaches further, is clean
unless a snapshot installation was torn. -/
theorem DiskInv.reopened : ∃ full', H.LogOk full' ∧ (∀ e ∈ full', e.term ≤ d.hard.term) ∧
    full.drop sure.length = full'.drop sure.length ∧ sure.length ≤ full'.length ∧
    (sure <+: full' ∨ ¬ strict ∧ sure.length < full'.length) ∧ H.AckOk x d.hard.term full' := by
  have hH := hist.coherent
  rcases lt_or_ge sure.length full.length with hlt | hge
  · refine ⟨full, hd.ok, hd.terms, rfl, hlt.le, ?_, hd.acks.longer (List.take_prefix _ _)⟩
    by_cases hpre : sure <+: full
    · exact .inl hpre
    · refine .inr ⟨fun hs => ?_, hlt⟩
      rcases hd.clean hs with h | h
      · exact hpre h
      · omega
  · refine ⟨sure, hd.certified.logOk hH, hd.certified.term_le hH, ?_, le_rfl, .inl prefix_rfl, ?_⟩
    · rw [drop_of_length_le hge, drop_length]
    · refine hd.acks.of_certified hH hd.certified fun _ => ?_
      exact (length_take_le' _ _).trans hge

end

/-! ### The node -/

section Node

variable {cfg : RaftConfig}

/-- The state `open` ends with, before the node settles on a configuration. -/
def openState (cfg : RaftConfig) (m₀ : Membership) (d : Disk) (epoch : Nat)
    (tr : List (Effect × Disk)) : NodeState where
  node := RaftNode.unsettled cfg m₀ d.hard (d.store.getD {}) d.openLog
    ((d.records.getLast?.map Entry.index).getD 0) epoch
  disk := d.opened
  trace := tr

theorem open_eq {s : NodeState} (hinit : cfg.initial = .ok m₀) (h : RaftNode.open cfg d epoch = .ok s) :
    ∃ tr, s = (openState cfg m₀ d epoch tr).update (fun n => n.refreshMembership.resetElectionTimer) ∧
      createdOf tr = [] ∧ appliedOf tr = [] ∧ tr ≠ [] ∧
      ∀ y ∈ tr, (∀ c, y.1 ≠ .installStore c) ∧ (y.2 = d.perform (.checkpoint (d.store.getD {})) ∨ y.2 = d.opened) := by
  unfold RaftNode.open at h
  rw [hinit] at h
  split at h
  · simp at h
  · dsimp only at h
    split at h
    · simp at h
    · obtain rfl := Except.ok.inj h
      refine ⟨_, rfl, ?_, ?_, by simp, ?_⟩
      · split <;> rfl
      · split <;> rfl
      · intro y hy
        rcases mem_append.mp hy with hy | hy
        · split at hy
          · rw [mem_singleton.mp hy]
            exact ⟨by simp, .inl rfl⟩
          · simp at hy
        · rw [mem_singleton.mp hy]
          exact ⟨by simp, .inr rfl⟩

variable (hist : HistInv m₀ H created) (hd : DiskInv strict H cfg.id d full sure base)

include hist hd

theorem DiskInv.open_wf (epoch : Nat) (tr : List (Effect × Disk)) : Wf (openState cfg m₀ d epoch tr) := by
  have happ := hd.applied
  have hlog := hd.openLog hist
  have hlast := hd.lastRecord hist
  obtain ⟨hsync, hpend⟩ := hd.opened_records hist
  have hcont : Contiguous sure.length (full.drop sure.length) := by
    have := (hist.numbered.log hd.ok).drop sure.length
    rwa [zero_add] at this
  refine ⟨?_, ?_, ?_, ?_, ?_, ⟨_, rfl, le_rfl⟩, le_rfl, le_rfl, fun h => nomatch h⟩
  · show Contiguous (d.store.getD {}).appliedIndex d.openLog
    rw [happ, hlog]
    exact hcont
  · show d.opened.records = d.openLog
    rw [Disk.records, hpend, append_nil, hsync, hlog]
  · show d.hard = { d.hard with term := max d.hard.term (d.store.getD {}).currentTerm }
    rw [max_eq_left (hd.currentTerm_le hist)]
  · show max _ (d.store.getD {}).appliedIndex = (d.store.getD {}).appliedIndex + d.openLog.length
    rw [happ, hlog, hlast]
  · show max _ (d.store.getD {}).appliedIndex + d.opened.pending.length = max _ _
    rw [hpend]
    rfl

theorem DiskInv.open_log (epoch : Nat) (tr : List (Effect × Disk)) : ∃ full',
    LogInv strict H (openState cfg m₀ d epoch tr).node.view (openState cfg m₀ d epoch tr).disk full' sure := by
  have happ := hd.applied
  have hlog := hd.openLog hist
  obtain ⟨hsync, -⟩ := hd.opened_records hist
  have hterm : max d.hard.term (d.store.getD {}).currentTerm = d.hard.term := max_eq_left (hd.currentTerm_le hist)
  obtain ⟨full', hok, hterms, hdrop, hle, hclean, hacks⟩ := hd.reopened hist
  have hrep : Replay (d.store.getD {}) (sure.take (d.store.getD {}).appliedIndex) := by
    rw [happ, take_length]
    exact hd.store
  refine ⟨full', hok, ?_, ?_, ?_, ?_, happ.symm, hrep, ⟨_, rfl, hrep, le_rfl⟩, ?_, ?_, ?_⟩
  · show d.openLog = full'.drop (d.store.getD {}).appliedIndex
    rw [hlog, happ, hdrop]
  · show (d.store.getD {}).appliedIndex ≤ full'.length
    rw [happ]
    exact hle
  · show ∀ e ∈ full', e.term ≤ max d.hard.term (d.store.getD {}).currentTerm
    rw [hterm]
    exact hterms
  · show H.Certified (max d.hard.term (d.store.getD {}).currentTerm) sure
    rw [hterm]
    exact hd.certified
  · show (d.store.getD {}).currentTerm = lastTerm (sure.take (d.store.getD {}).appliedIndex)
    rw [happ, take_length]
    exact hd.store.currentTerm
  · exact hclean.imp id fun ⟨h1, h2⟩ => ⟨h1, rfl, h2⟩
  · show H.AckOk cfg.id (max d.hard.term (d.store.getD {}).currentTerm)
      (full'.take ((d.store.getD {}).appliedIndex + d.opened.synced.length))
    rw [hterm, happ, hsync, hdrop, length_drop, take_of_length_le (by omega)]
    exact hacks

/-- A node opens in order, and so does the disk after each effect on the way. -/
theorem DiskInv.opens (soup : Envelope → Prop) (hm0 : m₀.Valid) (hinit : cfg.initial = .ok m₀) {s : NodeState}
    (h : RaftNode.open cfg d epoch = .ok s) :
    (∃ full', Wf s ∧ NodeInv m₀ strict soup H s.node.view s.disk full' sure) ∧
      s.node.cfg.id = cfg.id ∧ s.node.epoch = epoch ∧ s.node.role ≠ .leader ∧
      createdOf s.trace = [] ∧ appliedOf s.trace = [] ∧
      ∀ y ∈ s.trace, ∃ f l b, DiskInv strict H cfg.id y.2 f l b := by
  obtain ⟨tr, rfl, hcr, hap, -, htr⟩ := open_eq hinit h
  have hwf := hd.open_wf hist epoch tr
  obtain ⟨full', hlog⟩ := hd.open_log hist epoch tr
  have hown : OwnInv H cfg.id (openState cfg m₀ d epoch tr).node.hard := by
    rw [← hwf.hard]
    exact hd.own
  have hinv : NodeInv m₀ strict soup H (openState cfg m₀ d epoch tr).node.settledView
      (openState cfg m₀ d epoch tr).disk full' sure :=
    { log := { hlog with }
      own := hown
      cand := fun hr => by cases hr
      lead := ⟨fun hl => (by cases hl), fun _ hl => (by cases hl), fun hr => by cases hr⟩
      mem := ⟨rfl, hlog.effective hist.coherent hm0 hwf rfl⟩
      transfer := ⟨fun p o ho => by
        change (∅ : BTreeMap NodeId (Outgoing MemTable MemEntries))[p]? = some o at ho
        simp at ho, fun _ h => by cases h⟩
      out := fun _ h => by
        change _ ∈ ([] : List Envelope) at h
        simp at h }
  obtain ⟨next, mtch, heq, -⟩ := (openState cfg m₀ d epoch tr).node.refreshMembership_eq
  refine ⟨⟨full', ?_, hinv.refreshed hwf⟩, ?_, ?_, ?_, hcr, hap, fun y hy => ?_⟩
  · exact (hwf.refresh).of_eq rfl rfl rfl rfl rfl rfl le_rfl (hwf.refresh).led
  · simp only [update, heq]
    rfl
  · simp only [update, heq]
    rfl
  · simp only [update, heq]
    exact fun h => by cases h
  · obtain ⟨l, hl⟩ := hlog.disk hwf hown
    rcases (htr y hy).2 with hy | hy
    · rw [hy]
      exact ⟨full, sure, base, { hd with }⟩
    · rw [hy]
      exact ⟨_, _, _, hl⟩

end Node

end AtlasNative
