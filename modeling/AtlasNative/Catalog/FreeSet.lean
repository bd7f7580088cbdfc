import AtlasNative.Catalog.FreeSpace

/-!
# The free list as a set of bytes

A free list is determined by the bytes that are free: its ranges are the longest runs of free bytes,
in order. `find`, `reserve` and `release` are read off that set.
-/

namespace AtlasNative

open List FreeRange Bool

namespace FreeList

variable {f g : FreeList} {R : FreeRange}

open FreeRange (Until Before)

/-! ### One list for one set -/

theorem eq_of_subset_of_subset {r s : FreeRange} (hr : 0 < r.len) (hs : 0 < s.len)
    (h : r.bytes ⊆ s.bytes) (h' : s.bytes ⊆ r.bytes) : r = s := by
  obtain ⟨hdev, hlo, hhi⟩ := (subset_iff hr).mp h
  obtain ⟨-, hlo', hhi'⟩ := (subset_iff hs).mp h'
  simp only [device, EmbeddingLike.apply_eq_iff_eq, Prod.mk.injEq] at hdev
  have hoff : r.offset = s.offset := by omega
  have hlen : r.len = s.len := by omega
  cases r
  cases s
  simp_all

theorem Wf.eq_of_subset (h : f.Wf) {r s : FreeRange} (hr : r ∈ f.ranges) (hs : s ∈ f.ranges)
    (hsub : r.bytes ⊆ s.bytes) : r = s := by
  by_contra hne
  have hdisj : Disjoint r.bytes s.bytes :=
    (h.apart hr hs hne).elim (fun hb => hb.until.disjoint) fun hb => hb.until.disjoint.symm
  have hfirst : (⟨r.nodeId, r.deviceIndex, r.offset⟩ : Byte) ∈ r.bytes :=
    mem_bytes.mpr ⟨rfl, le_rfl, Nat.lt_add_of_pos_right (h.nonempty r hr)⟩
  exact Set.disjoint_left.mp hdisj hfirst (hsub hfirst)

theorem subset_bytes {r : FreeRange} (hr : r ∈ f.ranges) : r.bytes ⊆ f.bytes := fun _ hb => ⟨r, hr, hb⟩

/-- The ranges are the longest runs of free bytes. -/
theorem Wf.mem_of_bytes_eq (hf : f.Wf) (hg : g.Wf) (h : f.bytes = g.bytes) {r : FreeRange}
    (hr : r ∈ f.ranges) : r ∈ g.ranges := by
  obtain ⟨s, hs, hrs⟩ := hg.subset_one (hf.nonempty r hr) (h ▸ subset_bytes hr)
  obtain ⟨r', hr', hsr⟩ := hf.subset_one (hg.nonempty s hs) (h ▸ subset_bytes hs)
  obtain rfl := hf.eq_of_subset hr hr' (hrs.trans hsr)
  obtain rfl := eq_of_subset_of_subset (hf.nonempty r hr) (hg.nonempty s hs) hrs hsr
  exact hs

theorem not_before_self (r : FreeRange) : ¬ r.Before r := by
  rintro (h | ⟨-, h⟩)
  · exact lt_irrefl _ h
  · omega

theorem Wf.eq_of_bytes_eq (hf : f.Wf) (hg : g.Wf) (h : f.bytes = g.bytes) : f = g := by
  have : Std.Irrefl Before := ⟨not_before_self⟩
  have hperm : f.ranges.Perm g.ranges := (perm_ext_iff_of_nodup hf.sorted.nodup hg.sorted.nodup).mpr fun r =>
      ⟨hf.mem_of_bytes_eq hg h, hg.mem_of_bytes_eq hf h.symm⟩
  have heq : f.ranges = g.ranges := hperm.eq_of_pairwise
    (fun r s _ _ hrs hsr => absurd (hrs.trans_until hsr.until) (not_before_self r)) hf.sorted hg.sorted
  cases f
  cases g
  exact congrArg FreeList.mk heq

/-! ### Answers -/

/-- What `reserve` answers: whether the space was free. -/
def reserved (f : FreeList) (nodeId : String) (deviceIndex offset len : Nat) : Bool :=
  len ≠ 0 && (f.ranges.findIdx? (covers nodeId deviceIndex offset len)).isSome

theorem Wf.reserved_iff (h : f.Wf) (hR : R.Fits) (hlen : 0 < R.len) :
    f.reserved R.nodeId R.deviceIndex R.offset R.len = true ↔ R.bytes ⊆ f.bytes := by
  simp only [reserved, findIdx?_isSome, and_eq_true, decide_eq_true_eq, any_eq_true]
  constructor
  · rintro ⟨-, r, hr, hcov⟩
    exact ((covers_iff (h.fits r hr) hR hlen).mp hcov).trans (subset_bytes hr)
  · intro hsub
    obtain ⟨r, hr, hin⟩ := h.subset_one hlen hsub
    exact ⟨by omega, r, hr, (covers_iff (h.fits r hr) hR hlen).mpr hin⟩

theorem Wf.disjoint_of_clear (h : f.Wf) (hR : R.Fits) (hclear : f.Clear R) : Disjoint R.bytes f.bytes := by
  obtain ⟨hbefore, hafter⟩ := h.until_parts hR hclear
  rw [bytes, ← takeWhile_append_dropWhile (p := (·.keyLt R)) (l := f.ranges), bytesOf_append, Set.disjoint_union_right]
  exact ⟨disjoint_bytesOf.mpr fun x hx => (hbefore x hx).disjoint.symm,
    disjoint_bytesOf.mpr fun x hx => (hafter x hx).disjoint⟩

/-- Looking at the two neighbours finds every double free. -/
theorem Wf.release_error_iff (h : f.Wf) (hR : R.Fits) (hlen : 0 < R.len) :
    (∃ e, f.release R.nodeId R.deviceIndex R.offset R.len = .error e) ↔ (R.bytes ∩ f.bytes).Nonempty := by
  rw [← Set.not_disjoint_iff_nonempty_inter]
  constructor
  · rintro ⟨e, he⟩ hdisj
    obtain ⟨f', hok, -⟩ := h.release hR hdisj
    rw [he] at hok
    cases hok
  · intro hover
    by_contra hnone
    refine hover (h.disjoint_of_clear hR ⟨fun prev hprev hsame => ?_, fun next hnext hsame => ?_⟩)
    · by_contra hlt
      apply hnone
      rw [FreeList.release, if_neg (by omega)]
      refine ⟨_, if_pos ?_⟩
      exact (Option.any_eq_true _ _).mpr ⟨prev, hprev, by simp [hsame]; omega⟩
    · by_contra hlt
      apply hnone
      rw [FreeList.release, if_neg (by omega)]
      dsimp only
      split
      · exact ⟨_, rfl⟩
      · refine ⟨_, if_pos ?_⟩
        exact (Option.any_eq_true _ _).mpr ⟨next, hnext, by simpa [hsame] using hlt⟩

/-- What is found is the first place with room. -/
theorem Wf.find_iff (h : f.Wf) {nodeId : String} {deviceIndex len offset : Nat} (hlen : 0 < len) :
    f.find nodeId deviceIndex len = some offset ↔
      IsLeast {o | (⟨nodeId, deviceIndex, o, len⟩ : FreeRange).bytes ⊆ f.bytes} offset := by
  have hroom : ∀ {o}, (⟨nodeId, deviceIndex, o, len⟩ : FreeRange).bytes ⊆ f.bytes →
      ∃ s ∈ f.ranges, (s.sameDevice nodeId deviceIndex && len ≤ s.len) = true ∧ s.offset ≤ o := by
    intro o ho
    obtain ⟨s, hs, hsub⟩ := h.subset_one hlen ho
    obtain ⟨hdev, hlo, hhi⟩ := (subset_iff hlen).mp hsub
    refine ⟨s, hs, ?_, hlo⟩
    rw [and_eq_true, sameDevice_iff, decide_eq_true_eq]
    exact ⟨hdev.symm, by dsimp only at hlo hhi; omega⟩
  have hleast : ∀ {o}, f.find nodeId deviceIndex len = some o →
      IsLeast {o | (⟨nodeId, deviceIndex, o, len⟩ : FreeRange).bytes ⊆ f.bytes} o := by
    intro o ho
    refine ⟨(h.find_free ho).2, fun o' ho' => ?_⟩
    obtain ⟨s, hs, hfit, hle⟩ := hroom ho'
    rw [find, if_neg (by omega)] at ho
    obtain ⟨r, hr, rfl⟩ := Option.map_eq_some_iff.mp ho
    obtain ⟨hfit', pre, post, hsplit, hpre⟩ := find?_eq_some_iff_append.mp hr
    have hsorted := h.sorted
    rw [hsplit, pairwise_append, pairwise_cons] at hsorted
    rw [hsplit, mem_append, mem_cons] at hs
    rcases hs with hs | rfl | hs
    · have hno := hpre s hs
      rw [hfit] at hno
      cases hno
    · exact hle
    · rcases hsorted.2.1.1 s hs with hlt | ⟨-, hlt⟩
      · rw [and_eq_true, sameDevice_iff] at hfit hfit'
        exact absurd (hfit'.1.trans hfit.1.symm) hlt.ne
      · omega
  refine ⟨hleast, fun ho => ?_⟩
  obtain ⟨s, hs, hfit, -⟩ := hroom ho.1
  obtain ⟨r, hr⟩ : ∃ r, f.find nodeId deviceIndex len = some r := by
    rw [find, if_neg (by omega)]
    obtain ⟨r, hr⟩ := Option.isSome_iff_exists.mp
      (find?_isSome (p := fun r => r.sameDevice nodeId deviceIndex && len ≤ r.len).mpr ⟨s, hs, hfit⟩)
    exact ⟨r.offset, by rw [hr]; rfl⟩
  rw [hr, (hleast hr).unique ho]

/-! ### All lists -/

/-- The lists that calls of `reserve` and `release` make of the empty one. -/
inductive Reached : FreeList → Prop
  | empty : Reached ⟨[]⟩
  | reserve {f : FreeList} {R : FreeRange} : Reached f → R.Fits →
      Reached (f.reserve R.nodeId R.deviceIndex R.offset R.len)
  | release {f f' : FreeList} {R : FreeRange} : Reached f → R.Fits →
      f.release R.nodeId R.deviceIndex R.offset R.len = .ok f' → Reached f'

theorem Wf.of_release (h : f.Wf) (hR : R.Fits) (hok : f.release R.nodeId R.deviceIndex R.offset R.len = .ok g) :
    g.Wf ∧ g.bytes = f.bytes ∪ R.bytes := by
  have hdisj : Disjoint R.bytes f.bytes := by
    by_contra hover
    rcases eq_zero_or_pos R.len with hlen | hlen
    · exact hover (bytes_empty hlen ▸ Set.empty_disjoint _)
    · obtain ⟨e, he⟩ := (h.release_error_iff hR hlen).mpr (Set.not_disjoint_iff_nonempty_inter.mp hover)
      rw [he] at hok
      cases hok
  obtain ⟨f', hok', hwf, hbytes⟩ := h.release hR hdisj
  obtain rfl : f' = g := Except.ok.inj (hok'.symm.trans hok)
  exact ⟨hwf, hbytes⟩

theorem Reached.wf (h : Reached f) : f.Wf := by
  induction h with
  | empty => exact ⟨.nil, fun _ hr => (nomatch hr), fun _ hr => (nomatch hr)⟩
  | @reserve f R _ hR ih =>
    by_cases hsub : R.bytes ⊆ f.bytes
    · exact (ih.without_of_subset hR hsub).1
    · have hsame := ih.without_of_not_subset hR hsub
      rw [without] at hsame
      rwa [hsame]
  | release _ hR hok ih => exact (ih.of_release hR hok).1

/-- A free list is the one list of its set of bytes, and its calls are operations on that set. -/
theorem reached_canonical (h : Reached f) :
    f.ranges.Pairwise Before ∧ (∀ r ∈ f.ranges, 0 < r.len) ∧
    (∀ g, Reached g → g.bytes = f.bytes → g = f) ∧
    (∀ R : FreeRange, R.Fits → 0 < R.len →
      ((∃ e, f.release R.nodeId R.deviceIndex R.offset R.len = .error e) ↔
        (R.bytes ∩ f.bytes).Nonempty) ∧
      (∀ g, f.release R.nodeId R.deviceIndex R.offset R.len = .ok g →
        g.bytes = f.bytes ∪ R.bytes) ∧
      (f.reserved R.nodeId R.deviceIndex R.offset R.len = true ↔ R.bytes ⊆ f.bytes) ∧
      (R.bytes ⊆ f.bytes →
        (f.reserve R.nodeId R.deviceIndex R.offset R.len).bytes = f.bytes \ R.bytes) ∧
      (¬ R.bytes ⊆ f.bytes → f.reserve R.nodeId R.deviceIndex R.offset R.len = f)) ∧
    ∀ nodeId deviceIndex len, 0 < len →
      (∀ offset, f.find nodeId deviceIndex len = some offset ↔
        IsLeast {o | (⟨nodeId, deviceIndex, o, len⟩ : FreeRange).bytes ⊆ f.bytes} offset) ∧
      (f.find nodeId deviceIndex len = none ↔
        ∀ o, ¬ (⟨nodeId, deviceIndex, o, len⟩ : FreeRange).bytes ⊆ f.bytes) := by
  have hwf := h.wf
  refine ⟨hwf.sorted, hwf.nonempty, fun g hg heq => hg.wf.eq_of_bytes_eq hwf heq,
    fun R hR hlen => ⟨hwf.release_error_iff hR hlen, fun g hok => (hwf.of_release hR hok).2,
      hwf.reserved_iff hR hlen, fun hsub => (hwf.without_of_subset hR hsub).2,
      hwf.without_of_not_subset hR⟩,
    fun nodeId deviceIndex len hlen => ⟨fun offset => hwf.find_iff hlen, ?_⟩⟩
  rw [Option.eq_none_iff_forall_ne_some]
  constructor
  · intro hnone o ho
    -- some first place exists once any place does
    classical
    have hex : ∃ o, (⟨nodeId, deviceIndex, o, len⟩ : FreeRange).bytes ⊆ f.bytes := ⟨o, ho⟩
    exact hnone _ ((hwf.find_iff hlen).mpr ⟨Nat.find_spec hex, fun o ho => Nat.find_min' hex ho⟩)
  · exact fun hno o ho => hno o ((hwf.find_iff hlen).mp ho).1

/-- Two neighbours have become one range, and eight bytes of it were taken. -/
def splitList : FreeList := ⟨[⟨"n1", 0, 64, 8⟩, ⟨"n1", 0, 80, 16⟩, ⟨"n1", 0, 128, 16⟩]⟩

theorem splitList_reached : Reached splitList := by
  have h1 : Reached ⟨[⟨"n1", 0, 80, 16⟩]⟩ := .release (R := ⟨"n1", 0, 80, 16⟩) .empty (by unfold Fits; decide) rfl
  have h2 : Reached ⟨[⟨"n1", 0, 80, 16⟩, ⟨"n1", 0, 128, 16⟩]⟩ :=
    .release (R := ⟨"n1", 0, 128, 16⟩) h1 (by unfold Fits; decide) rfl
  have h3 : Reached ⟨[⟨"n1", 0, 64, 32⟩, ⟨"n1", 0, 128, 16⟩]⟩ :=
    .release (R := ⟨"n1", 0, 64, 16⟩) h2 (by unfold Fits; decide) rfl
  exact .reserve (R := ⟨"n1", 0, 72, 8⟩) h3 (by unfold Fits; decide)

/-- Sixteen bytes are found behind what was taken. -/
theorem reached_canonical_released : splitList.find "n1" 0 16 = some 80 ∧
    IsLeast {o | (⟨"n1", 0, o, 16⟩ : FreeRange).bytes ⊆ splitList.bytes} 80 := by
  have hfound : splitList.find "n1" 0 16 = some 80 := by decide
  obtain ⟨-, -, -, -, hfind⟩ := reached_canonical splitList_reached
  exact ⟨hfound, ((hfind "n1" 0 16 (by decide)).1 80).mp hfound⟩

/-- No bytes are free everywhere, yet `find` has no place for them. -/
theorem find_nothing : Reached ⟨[]⟩ ∧ (⟨[]⟩ : FreeList).find "n1" 0 0 = none ∧
    IsLeast {o | (⟨"n1", 0, o, 0⟩ : FreeRange).bytes ⊆ (⟨[]⟩ : FreeList).bytes} 0 := by
  refine ⟨.empty, rfl, ?_, fun o _ => Nat.zero_le o⟩
  rw [Set.mem_ofPred_eq, bytes_empty rfl]
  exact Set.empty_subset _

end FreeList

end AtlasNative
