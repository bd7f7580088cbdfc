import AtlasNative.Raft.Invariant

/-!
# Reading a node through its invariant

What a node reads off its log (terms, its last index, its configuration) is what the full log says.
-/

namespace AtlasNative

open Consensus RaftNode List Option

variable {m₀ : Membership} {strict : Prop} {soup : Envelope → Prop} {H : History NodeId Entry}
  {s : NodeState} {full sure : List Entry}

section Log

variable (hwf : Wf s) (h : LogInv strict H s.node.view s.disk full sure)

include h

theorem LogInv.length : s.node.snapshotIndex + s.node.log.length = full.length := by
  have h1 := h.reach
  have h2 := congrArg List.length h.log
  rw [length_drop] at h2
  change s.node.log.length = full.length - s.node.snapshotIndex at h2
  change s.node.snapshotIndex ≤ full.length at h1
  omega

theorem LogInv.getElem? {i : Nat} (hi : s.node.snapshotIndex < i) :
    s.node.log[i - s.node.snapshotIndex - 1]? = full[i - 1]? := by
  rw [show s.node.log = full.drop s.node.snapshotIndex from h.log, getElem?_drop]
  congr 1
  omega

theorem LogInv.entry {i : Nat} {e : Entry} (he : s.node.entry i = some e) :
    s.node.snapshotIndex < i ∧ full[i - 1]? = some e := by
  rw [RaftNode.entry] at he
  split at he
  · simp at he
  · exact ⟨by omega, by rw [← h.getElem? (by omega)]; exact he⟩

theorem LogInv.termAt_full {i t : Nat} (hi : s.node.snapshotIndex < i)
    (ht : s.node.termAt i = some t) : ∃ e, full[i - 1]? = some e ∧ e.term = t := by
  rw [termAt_of_lt hi, h.getElem? hi] at ht
  exact map_eq_some_iff.mp ht

include hwf

theorem LogInv.lastIndex : s.node.lastIndex = full.length := by
  rw [lastIndex_eq hwf.contiguous]
  exact h.length

theorem LogInv.synced_le : s.node.snapshotIndex + s.disk.synced.length ≤ full.length := by
  have hlen := h.length
  have hrec := congrArg List.length hwf.records
  rw [Disk.records, length_append] at hrec
  omega

/-- A node whose log and snapshot disagree has entries above its snapshot. -/
theorem LogInv.clean_of_le (hlen : full.length ≤ s.node.snapshotIndex) : full = sure := by
  have hsi : s.node.snapshotIndex ≤ s.node.commitIndex := hwf.snapshot
  have hcommit : sure.length = s.node.commitIndex := h.commit
  rcases h.clean with hcl | ⟨-, -, hlt⟩
  · exact (hcl.eq_of_length (le_antisymm hcl.length_le (by omega))).symm
  · omega

theorem LogInv.lastTerm : s.node.lastTerm = lastTerm full := by
  rw [RaftNode.lastTerm, show s.node.log = full.drop s.node.snapshotIndex from h.log, getLast?_drop]
  split
  · rename_i hlen
    have hsnap : s.node.snapshotTerm = Consensus.lastTerm (sure.take s.node.snapshotIndex) := h.snapshotTerm
    have hfull := h.clean_of_le hwf hlen
    rw [hsnap, ← hfull, take_of_length_le hlen]
    rfl
  · rename_i hlen
    have hne : full ≠ [] := by
      rintro rfl
      simp at hlen
    rw [Consensus.lastTerm, getLast?_eq_some_getLast hne]
    rfl

/-- The term a node has at an index of its clean log. -/
theorem LogInv.termAt (hclean : sure <+: full) {i t : Nat} (ht : s.node.termAt i = some t) :
    i ≤ full.length ∧ t = Consensus.lastTerm (full.take i) := by
  obtain ⟨hlo, hhi⟩ := termAt_bounds ht
  have hlen := h.length
  refine ⟨by omega, ?_⟩
  have hsi : s.node.snapshotIndex ≤ s.node.commitIndex := hwf.snapshot
  have hcommit : sure.length = s.node.commitIndex := h.commit
  rcases eq_or_lt_of_le hlo with rfl | hlt
  · rw [termAt_snapshot] at ht
    have hsnap : s.node.snapshotTerm = Consensus.lastTerm (sure.take s.node.snapshotIndex) := h.snapshotTerm
    obtain ⟨r, hr⟩ := hclean
    rw [← some.inj ht, hsnap, ← hr, take_append_of_le_length (by omega)]
  · obtain ⟨e, he, rfl⟩ := h.termAt_full hlt ht
    have := take_succ_of_getElem? he
    rw [show i - 1 + 1 = i by omega] at this
    rw [this, lastTerm_concat]
    rfl

end Log

/-! ### The configuration -/

theorem LogInv.effective (hH : H.Coherent m₀) (hm0 : m₀.Valid) (hwf : Wf s)
    (h : LogInv strict H s.node.view s.disk full sure) (hinit : s.node.initial = m₀) :
    s.node.effective = cfg m₀ full ∨ ¬ sure <+: full ∧ s.node.effective = cfg m₀ sure := by
  have hlog : s.node.log = full.drop s.node.snapshotIndex := h.log
  have hcat : s.node.catalog.membership = lastConfig (sure.take s.node.catalog.appliedIndex) :=
    h.catalog.membership (config_valid hH hm0 ((h.certified.logOk hH).mono (List.take_prefix _ _))).1
  have heff : s.node.effective = ((lastConfig s.node.log).or
      (lastConfig (sure.take s.node.catalog.appliedIndex))).getD m₀ := by
    rw [← hcat, ← hinit]
    rfl
  obtain ⟨c, hc, -, hsi⟩ := h.store
  obtain ⟨c', hc', hle⟩ := hwf.store
  obtain rfl : c = c' := mem_unique hc hc'
  have happ : s.node.snapshotIndex ≤ s.node.catalog.appliedIndex := le_trans hsi hle
  have hcommit : sure.length = s.node.commitIndex := h.commit
  have happc := hwf.applied
  by_cases hclean : sure <+: full
  · left
    -- what the catalog has beyond the snapshot is also in the log
    have htake : sure.take s.node.catalog.appliedIndex = full.take s.node.catalog.appliedIndex := by
      obtain ⟨r, hr⟩ := hclean
      rw [← hr, take_append_of_le_length (by omega)]
    rw [heff, htake, hlog, lastConfig_cover _ happ, cfg_eq_lastConfig]
  · obtain ⟨-, hsc, -⟩ := h.clean.resolve_left hclean
    change s.node.snapshotIndex = s.node.commitIndex at hsc
    rw [take_of_length_le (by omega)] at heff
    cases hlast : lastConfig s.node.log with
    | some m =>
      left
      rw [heff, hlast, cfg_eq_lastConfig, ← lastConfig_cover full le_rfl, ← hlog, hlast]
      rfl
    | none =>
      right
      rw [heff, hlast, cfg_eq_lastConfig]
      exact ⟨hclean, rfl⟩

end AtlasNative
