import AtlasNative.Catalog.Alloc

/-!
# The bytes of a free list

A free list stands for a set of bytes. As long as its ranges are in order, apart from one another
and end where an offset can say so, reserving a range takes out its bytes, releasing one puts them
back, and a range all of whose bytes are free lies inside one free range.
-/

namespace AtlasNative

open FreeRange FreeList Set Option

/-- A byte of a device. -/
structure Byte where
  nodeId : String
  deviceIndex : Nat
  offset : Nat

namespace FreeRange

variable {r s t : FreeRange}

def bytes (r : FreeRange) : Set Byte :=
  {b | b.nodeId = r.nodeId ∧ b.deviceIndex = r.deviceIndex ∧ r.offset ≤ b.offset ∧
    b.offset < r.offset + r.len}

/-- The device, in the order of the free list. -/
def device (r : FreeRange) : String ×ₗ Nat := toLex (r.nodeId, r.deviceIndex)

/-- Its end can be computed. -/
def Fits (r : FreeRange) : Prop := r.offset + r.len < 2 ^ 64

theorem Fits.end_eq (h : r.Fits) : r.end_ = r.offset + r.len := Nat.mod_eq_of_lt h

theorem sameDevice_iff {nodeId : String} {deviceIndex : Nat} :
    r.sameDevice nodeId deviceIndex = true ↔ r.device = toLex (nodeId, deviceIndex) := by
  simp [sameDevice, device]

theorem keyLt_iff : r.keyLt s = true ↔ r.device < s.device ∨ r.device = s.device ∧ r.offset < s.offset := by
  simp only [keyLt, device, Bool.or_eq_true, Bool.and_eq_true, decide_eq_true_eq,
    Prod.Lex.toLex_lt_toLex, EmbeddingLike.apply_eq_iff_eq, Prod.mk.injEq]
  tauto

/-- `r` ends where `s` starts, or before it. -/
def Until (r s : FreeRange) : Prop :=
  r.device < s.device ∨ r.device = s.device ∧ r.offset + r.len ≤ s.offset

/-- There is room between `r` and the later `s`. -/
def Before (r s : FreeRange) : Prop :=
  r.device < s.device ∨ r.device = s.device ∧ r.offset + r.len < s.offset

theorem Before.until (h : r.Before s) : r.Until s := h.imp_right fun h => ⟨h.1, h.2.le⟩

theorem Before.trans_until (h : r.Before s) (h' : s.Until t) : r.Before t := by
  rcases h with h | ⟨h, hlt⟩ <;> rcases h' with h' | ⟨h', hle⟩
  · exact .inl (h.trans h')
  · exact .inl (h' ▸ h)
  · exact .inl (h ▸ h')
  · exact .inr ⟨h.trans h', by omega⟩

theorem Until.trans_before (h : r.Until s) (h' : s.Before t) : r.Before t := by
  rcases h with h | ⟨h, hle⟩ <;> rcases h' with h' | ⟨h', hlt⟩
  · exact .inl (h.trans h')
  · exact .inl (h' ▸ h)
  · exact .inl (h ▸ h')
  · exact .inr ⟨h.trans h', by omega⟩

/-- `s` goes on right where `r` ends. -/
def Touches (r s : FreeRange) : Prop := r.device = s.device ∧ r.offset + r.len = s.offset

theorem Until.before (h : r.Until s) (hne : ¬ r.Touches s) : r.Before s := by
  rcases h with h | ⟨h, hle⟩
  · exact .inl h
  · exact .inr ⟨h, lt_of_le_of_ne hle fun heq => hne ⟨h, heq⟩⟩

theorem mem_bytes {b : Byte} : b ∈ r.bytes ↔ toLex (b.nodeId, b.deviceIndex) = r.device ∧
    r.offset ≤ b.offset ∧ b.offset < r.offset + r.len := by
  simp [bytes, device, and_assoc]

theorem Until.disjoint (h : r.Until s) : Disjoint r.bytes s.bytes := by
  rw [disjoint_left]
  intro b hr hs
  rw [mem_bytes] at hr hs
  rcases h with h | ⟨-, h⟩
  · exact absurd (hr.1.symm.trans hs.1) h.ne
  · omega

/-- Ranges of one device that do not meet. -/
theorem until_or_until (hd : r.device = s.device) (hr : 0 < r.len) (hs : 0 < s.len)
    (h : Disjoint r.bytes s.bytes) : r.Until s ∨ s.Until r := by
  by_contra hcon
  simp only [Until, not_or, not_and, not_le] at hcon
  have h1 := hcon.1.2 hd
  have h2 := hcon.2.2 hd.symm
  have hmem : ∀ {x : FreeRange}, x.device = r.device → x.offset ≤ max r.offset s.offset →
      max r.offset s.offset < x.offset + x.len →
      (⟨r.nodeId, r.deviceIndex, max r.offset s.offset⟩ : Byte) ∈ x.bytes :=
    fun hx hle hlt => mem_bytes.mpr ⟨hx.symm, hle, hlt⟩
  exact disjoint_left.mp h (hmem rfl (by omega) (by omega)) (hmem hd.symm (by omega) (by omega))

theorem Touches.bytes_union (h : r.Touches s) {m : FreeRange} (hd : m.device = r.device)
    (ho : m.offset = r.offset) (hl : m.len = r.len + s.len) : m.bytes = r.bytes ∪ s.bytes := by
  obtain ⟨hrs, hend⟩ := h
  ext b
  simp only [mem_union, mem_bytes, hd, ho, hl, hrs]
  rw [← and_or_left]
  refine and_congr_right fun _ => ?_
  omega

end FreeRange

namespace FreeList

variable {f : FreeList} {R : FreeRange}

open FreeRange (Until Before)

def bytesOf (l : List FreeRange) : Set Byte := {b | ∃ r ∈ l, b ∈ r.bytes}

def bytes (f : FreeList) : Set Byte := bytesOf f.ranges

/-- In order, apart, and none empty or past the last offset. -/
structure Wf (f : FreeList) : Prop where
  sorted : f.ranges.Pairwise Before
  nonempty : ∀ r ∈ f.ranges, 0 < r.len
  fits : ∀ r ∈ f.ranges, r.Fits

@[simp] theorem bytesOf_nil : bytesOf [] = ∅ := by simp [bytesOf]

@[simp] theorem bytesOf_cons (r : FreeRange) (l : List FreeRange) : bytesOf (r :: l) = r.bytes ∪ bytesOf l := by
  ext b
  simp [bytesOf]

@[simp] theorem bytesOf_append (l m : List FreeRange) : bytesOf (l ++ m) = bytesOf l ∪ bytesOf m := by
  ext b
  simp [bytesOf, or_and_right, exists_or]

theorem disjoint_bytesOf {s : Set Byte} {l : List FreeRange} :
    Disjoint s (bytesOf l) ↔ ∀ r ∈ l, Disjoint s r.bytes := by
  simp only [disjoint_left, bytesOf, mem_ofPred_eq, not_exists, not_and]
  exact ⟨fun h r hr b hb hbr => h hb r hr hbr, fun h b hb r hr hbr => h r hr hb hbr⟩

variable {r : FreeRange}

theorem Wf.apart (h : f.Wf) {s : FreeRange} (hr : r ∈ f.ranges) (hs : s ∈ f.ranges) (hne : r ≠ s) :
    r.Before s ∨ s.Before r := by
  have hsymm : Std.Symm fun a b : FreeRange => a.Before b ∨ b.Before a := ⟨fun _ _ h => h.symm⟩
  have hall : f.ranges.Pairwise fun a b => a.Before b ∨ b.Before a := h.sorted.imp .inl
  exact hall.forall hr hs hne

/-- A range whose bytes are free lies inside one free range. -/
theorem Wf.subset_one (h : f.Wf) (hlen : 0 < R.len) (hR : R.bytes ⊆ f.bytes) : ∃ r ∈ f.ranges, R.bytes ⊆ r.bytes := by
  have hfirst : (⟨R.nodeId, R.deviceIndex, R.offset⟩ : Byte) ∈ R.bytes :=
    mem_bytes.mpr ⟨rfl, le_rfl, Nat.lt_add_of_pos_right hlen⟩
  obtain ⟨r, hr, hfr⟩ := hR hfirst
  obtain ⟨hdev, hlo, hhi⟩ := mem_bytes.mp hfr
  refine ⟨r, hr, fun b hb => ?_⟩
  obtain ⟨hbd, hblo, hbhi⟩ := mem_bytes.mp hb
  refine mem_bytes.mpr ⟨hbd.trans hdev, hlo.trans hblo, ?_⟩
  by_contra hcut
  -- the byte right after `r` would belong to a free range that touches it
  have hnext : (⟨R.nodeId, R.deviceIndex, r.offset + r.len⟩ : Byte) ∈ R.bytes :=
    mem_bytes.mpr ⟨rfl, hhi.le, by dsimp only; omega⟩
  obtain ⟨s, hs, hfs⟩ := hR hnext
  obtain ⟨hsd, hslo, hshi⟩ := mem_bytes.mp hfs
  have hne : r ≠ s := by
    rintro rfl
    exact absurd hshi (lt_irrefl _)
  have hsame : r.device = s.device := hdev.symm.trans hsd
  dsimp only at hslo hshi
  rcases h.apart hr hs hne with (hlt | ⟨-, hlt⟩) | (hlt | ⟨-, hlt⟩)
  · exact absurd hsame hlt.ne
  · omega
  · exact absurd hsame.symm hlt.ne
  · omega

/-! ### Reserving -/

theorem subset_iff (hlen : 0 < R.len) : R.bytes ⊆ r.bytes ↔
    R.device = r.device ∧ r.offset ≤ R.offset ∧ R.offset + R.len ≤ r.offset + r.len := by
  constructor
  · intro hsub
    have hmem : ∀ o, R.offset ≤ o → o < R.offset + R.len → (⟨R.nodeId, R.deviceIndex, o⟩ : Byte) ∈ r.bytes :=
      fun o hlo hhi => hsub (mem_bytes.mpr ⟨rfl, hlo, hhi⟩)
    obtain ⟨hd, hlo, -⟩ := mem_bytes.mp (hmem R.offset le_rfl (by omega))
    obtain ⟨-, -, hhi⟩ := mem_bytes.mp (hmem (R.offset + R.len - 1) (by omega) (by omega))
    dsimp only at hlo hhi
    exact ⟨hd, hlo, by omega⟩
  · rintro ⟨hd, hlo, hhi⟩ b hb
    obtain ⟨hbd, hblo, hbhi⟩ := mem_bytes.mp hb
    exact mem_bytes.mpr ⟨hbd.trans hd, by omega, by omega⟩

theorem covers_iff (hr : r.Fits) (hR : R.Fits) (hlen : 0 < R.len) :
    covers R.nodeId R.deviceIndex R.offset R.len r = true ↔ R.bytes ⊆ r.bytes := by
  have hend : u64 (R.offset + R.len) = R.offset + R.len := Nat.mod_eq_of_lt hR
  simp only [covers, Bool.and_eq_true, decide_eq_true_eq, sameDevice_iff, hend, hr.end_eq, subset_iff hlen]
  exact ⟨fun ⟨⟨hd, hlo⟩, hhi⟩ => ⟨hd.symm, hlo, hhi⟩, fun ⟨hd, hlo, hhi⟩ => ⟨⟨hd.symm, hlo⟩, hhi⟩⟩

/-- `reserve` of a whole range. -/
def without (f : FreeList) (R : FreeRange) : FreeList :=
  f.reserve R.nodeId R.deviceIndex R.offset R.len

/-- What is left of a free range once `R` is taken out of it. -/
def leftover (r R : FreeRange) : List FreeRange :=
  (if R.offset > r.offset then [{ r with len := R.offset - r.offset }] else []) ++
  (if R.offset + R.len < r.offset + r.len then
    [{ r with offset := R.offset + R.len, len := r.offset + r.len - (R.offset + R.len) }] else [])

/-- A range is taken out of the free range around it, or there is none. -/
theorem without_cases (h : f.Wf) (hR : R.Fits) (hlen : 0 < R.len) :
    (f.without R = f ∧ ∀ r ∈ f.ranges, ¬ R.bytes ⊆ r.bytes) ∨
    ∃ pre r post, f.ranges = pre ++ r :: post ∧ R.bytes ⊆ r.bytes ∧ f.without R = ⟨pre ++ leftover r R ++ post⟩ := by
  have hcov : ∀ r ∈ f.ranges, (covers R.nodeId R.deviceIndex R.offset R.len r = true ↔
      R.bytes ⊆ r.bytes) := fun r hr => covers_iff (h.fits r hr) hR hlen
  unfold without reserve
  rw [if_neg (by omega)]
  cases hpos : f.ranges.findIdx? (covers R.nodeId R.deviceIndex R.offset R.len) with
  | none =>
    refine .inl ⟨rfl, fun r hr hsub => ?_⟩
    have := List.findIdx?_eq_none_iff.mp hpos r hr
    rw [(hcov r hr).mpr hsub] at this
    cases this
  | some pos =>
    obtain ⟨hlt, hp, -⟩ := List.findIdx?_eq_some_iff_getElem.mp hpos
    have hr : f.ranges[pos]? = some f.ranges[pos] := List.getElem?_eq_getElem hlt
    have hmem : f.ranges[pos] ∈ f.ranges := List.getElem_mem hlt
    refine .inr ⟨f.ranges.take pos, f.ranges[pos], f.ranges.drop (pos + 1), ?_, (hcov _ hmem).mp hp, ?_⟩
    · rw [List.cons_getElem_drop_succ, List.take_append_drop]
    · have hend : u64 (R.offset + R.len) = R.offset + R.len := Nat.mod_eq_of_lt hR
      simp only [hr, hend, (h.fits _ hmem).end_eq, leftover, List.append_assoc]

section Leftover

variable {r : FreeRange} (hlen : 0 < R.len) (hsub : R.bytes ⊆ r.bytes)

include hlen hsub

theorem mem_leftover {x : FreeRange} (hx : x ∈ leftover r R) :
    x.device = r.device ∧ 0 < x.len ∧ r.offset ≤ x.offset ∧ x.offset + x.len ≤ r.offset + r.len := by
  obtain ⟨-, hlo, hhi⟩ := (subset_iff hlen).mp hsub
  rcases List.mem_append.mp hx with hx | hx <;> split at hx
  · obtain rfl := List.mem_singleton.mp hx
    exact ⟨rfl, by dsimp only; omega, le_rfl, by dsimp only; omega⟩
  · cases hx
  · obtain rfl := List.mem_singleton.mp hx
    exact ⟨rfl, by dsimp only; omega, by dsimp only; omega, by dsimp only; omega⟩
  · cases hx

omit hsub in
theorem sorted_leftover : (leftover r R).Pairwise Before := by
  unfold leftover
  split <;> split <;> simp [Before, device]
  omega

theorem bytesOf_leftover : bytesOf (leftover r R) = r.bytes \ R.bytes := by
  obtain ⟨hd, hlo, hhi⟩ := (subset_iff hlen).mp hsub
  ext b
  simp only [leftover, bytesOf_append, mem_union, mem_sdiff, mem_bytes, hd]
  split <;> split <;>
    simp only [bytesOf_cons, bytesOf_nil, union_empty, mem_empty_iff_false, mem_bytes, device] <;> grind

end Leftover

variable {pre post : List FreeRange}

/-- A free range gives way to ranges inside it. -/
theorem sorted_refine {m : List FreeRange} (h : (pre ++ r :: post).Pairwise Before)
    (hm : m.Pairwise Before) (hin : ∀ x ∈ m, x.device = r.device ∧ r.offset ≤ x.offset ∧
      x.offset + x.len ≤ r.offset + r.len) : (pre ++ m ++ post).Pairwise Before := by
  have hleft : ∀ x ∈ m, ∀ a : FreeRange, a.Before r → a.Before x := by
    intro x hx a ha
    obtain ⟨hd, hlo, -⟩ := hin x hx
    exact ha.imp (hd ▸ ·) fun ha => ⟨hd ▸ ha.1, by omega⟩
  have hright : ∀ x ∈ m, ∀ b : FreeRange, r.Before b → x.Before b := by
    intro x hx b hb
    obtain ⟨hd, -, hhi⟩ := hin x hx
    exact hb.imp (hd ▸ ·) fun hb => ⟨hd.trans hb.1, by omega⟩
  simp only [List.pairwise_append, List.pairwise_cons, List.mem_append, List.mem_cons] at h ⊢
  obtain ⟨hpre, ⟨hrp, hpost⟩, hcross⟩ := h
  refine ⟨⟨hpre, hm, fun a ha x hx => hleft x hx a (hcross a ha r (.inl rfl))⟩, hpost, ?_⟩
  rintro a (ha | ha) b hb
  · exact hcross a ha b (.inr hb)
  · exact hright a ha b (hrp b hb)

theorem Wf.disjoint_others (h : f.Wf) (hf : f.ranges = pre ++ r :: post) :
    Disjoint r.bytes (bytesOf pre) ∧ Disjoint r.bytes (bytesOf post) := by
  have hs := h.sorted
  rw [hf] at hs
  simp only [List.pairwise_append, List.pairwise_cons, List.mem_cons] at hs
  obtain ⟨-, ⟨hrp, -⟩, hcross⟩ := hs
  exact ⟨disjoint_bytesOf.mpr fun a ha => (hcross a ha r (.inl rfl)).until.disjoint.symm,
    disjoint_bytesOf.mpr fun b hb => (hrp b hb).until.disjoint⟩

theorem without_empty (hlen : R.len = 0) : f.without R = f := by
  rw [without, reserve, if_pos hlen]

theorem bytes_empty (hlen : R.len = 0) : R.bytes = ∅ := by
  ext b
  simp only [mem_bytes, mem_empty_iff_false, iff_false]
  omega

theorem Wf.without_of_subset (h : f.Wf) (hR : R.Fits) (hsub : R.bytes ⊆ f.bytes) :
    (f.without R).Wf ∧ (f.without R).bytes = f.bytes \ R.bytes := by
  by_cases hlen : R.len = 0
  · rw [without_empty hlen, bytes_empty hlen, sdiff_empty]
    exact ⟨h, rfl⟩
  have hlen : 0 < R.len := by omega
  rcases without_cases h hR hlen with ⟨-, hnone⟩ | ⟨pre, r, post, hf, hr, heq⟩
  · obtain ⟨r, hr, hin⟩ := h.subset_one hlen hsub
    exact absurd hin (hnone r hr)
  rw [heq]
  have hmem : r ∈ f.ranges := by simp [hf]
  constructor
  · refine ⟨sorted_refine (hf ▸ h.sorted) (sorted_leftover hlen) fun x hx => ?_, ?_, ?_⟩
    · obtain ⟨hd, -, hlo, hhi⟩ := mem_leftover hlen hr hx
      exact ⟨hd, hlo, hhi⟩
    · intro x hx
      rcases List.mem_append.mp hx with hx | hx
      · rcases List.mem_append.mp hx with hx | hx
        · exact h.nonempty x (by simp [hf, hx])
        · exact (mem_leftover hlen hr hx).2.1
      · exact h.nonempty x (by simp [hf, hx])
    · intro x hx
      rcases List.mem_append.mp hx with hx | hx
      · rcases List.mem_append.mp hx with hx | hx
        · exact h.fits x (by simp [hf, hx])
        · exact (mem_leftover hlen hr hx).2.2.2.trans_lt (h.fits r hmem)
      · exact h.fits x (by simp [hf, hx])
  · obtain ⟨hpre, hpost⟩ := h.disjoint_others hf
    have hbytes : f.bytes = bytesOf pre ∪ (r.bytes ∪ bytesOf post) := by
      rw [bytes, hf, bytesOf_append, bytesOf_cons]
    rw [hbytes, bytes, bytesOf_append, bytesOf_append, bytesOf_leftover hlen hr]
    ext b
    have h1 : b ∈ R.bytes → b ∉ bytesOf pre := fun hb => disjoint_left.mp hpre (hr hb)
    have h2 : b ∈ R.bytes → b ∉ bytesOf post := fun hb => disjoint_left.mp hpost (hr hb)
    simp only [mem_union, mem_sdiff]
    tauto

theorem Wf.without_of_not_subset (h : f.Wf) (hR : R.Fits) (hsub : ¬ R.bytes ⊆ f.bytes) : f.without R = f := by
  have hlen : 0 < R.len := by
    by_contra hlen
    rw [bytes_empty (by omega)] at hsub
    exact hsub (empty_subset _)
  rcases without_cases h hR hlen with ⟨heq, -⟩ | ⟨pre, r, post, hf, hr, -⟩
  · exact heq
  · refine absurd (fun b hb => ?_) hsub
    exact ⟨r, by simp [hf], hr hb⟩

/-- Ranges that are apart or the same, each free or outside the free list, are taken out one after
another. -/
theorem Wf.withoutEach (h : f.Wf) {rs : List FreeRange} (hfits : ∀ r ∈ rs, r.Fits)
    (hapart : ∀ r ∈ rs, ∀ r' ∈ rs, r = r' ∨ Disjoint r.bytes r'.bytes)
    (hplaced : ∀ r ∈ rs, r.bytes ⊆ f.bytes ∨ Disjoint r.bytes f.bytes) :
    (rs.foldl without f).Wf ∧ (rs.foldl without f).bytes = f.bytes \ bytesOf rs := by
  induction rs generalizing f with
  | nil => exact ⟨h, by simp⟩
  | cons r rs ih =>
    have hstep : (f.without r).Wf ∧ (f.without r).bytes = f.bytes \ r.bytes := by
      by_cases hsub : r.bytes ⊆ f.bytes
      · exact h.without_of_subset (hfits r List.mem_cons_self) hsub
      · rw [h.without_of_not_subset (hfits r List.mem_cons_self) hsub]
        have hdisj := (hplaced r List.mem_cons_self).resolve_left hsub
        exact ⟨h, (sdiff_eq_left.mpr hdisj.symm).symm⟩
    have hrest : ∀ x ∈ rs, x.bytes ⊆ (f.without r).bytes ∨ Disjoint x.bytes (f.without r).bytes := by
      intro x hx
      rw [hstep.2]
      rcases hapart r List.mem_cons_self x (List.mem_cons_of_mem _ hx) with rfl | hr
      · exact .inr disjoint_sdiff_right
      · refine (hplaced x (List.mem_cons_of_mem _ hx)).imp (fun hx' b hb => ⟨hx' hb, ?_⟩)
          fun hx' => hx'.mono_right sdiff_subset
        exact disjoint_right.mp hr hb
    obtain ⟨hwf, hbytes⟩ := ih hstep.1 (fun x hx => hfits x (List.mem_cons_of_mem _ hx))
      (fun x hx y hy => hapart x (List.mem_cons_of_mem _ hx) y (List.mem_cons_of_mem _ hy)) hrest
    refine ⟨hwf, ?_⟩
    rw [List.foldl_cons, hbytes, hstep.2, bytesOf_cons, sdiff_sdiff]

theorem Wf.withoutAll (h : f.Wf) {rs : List FreeRange} (hfits : ∀ r ∈ rs, r.Fits)
    (hapart : rs.Pairwise fun r r' => Disjoint r.bytes r'.bytes)
    (hplaced : ∀ r ∈ rs, r.bytes ⊆ f.bytes ∨ Disjoint r.bytes f.bytes) :
    (rs.foldl without f).Wf ∧ (rs.foldl without f).bytes = f.bytes \ bytesOf rs := by
  refine h.withoutEach hfits (fun r hr r' hr' => or_iff_not_imp_left.mpr fun hne => ?_) hplaced
  exact hapart.forall hr hr' hne

theorem Wf.find_free (h : f.Wf) {nodeId : String} {deviceIndex len offset : Nat}
    (hfind : f.find nodeId deviceIndex len = some offset) :
    (⟨nodeId, deviceIndex, offset, len⟩ : FreeRange).Fits ∧
      (⟨nodeId, deviceIndex, offset, len⟩ : FreeRange).bytes ⊆ f.bytes := by
  unfold find at hfind
  split at hfind
  · cases hfind
  obtain ⟨r, hr, rfl⟩ := map_eq_some_iff.mp hfind
  have hmem := List.mem_of_find?_eq_some hr
  have hroom := List.find?_some hr
  rw [Bool.and_eq_true, sameDevice_iff, decide_eq_true_eq] at hroom
  obtain ⟨hdev, hlen⟩ := hroom
  have hfits := h.fits r hmem
  constructor
  · unfold Fits at hfits ⊢
    dsimp only
    omega
  · intro b hb
    obtain ⟨hd, hlo, hhi⟩ := mem_bytes.mp hb
    exact ⟨r, hmem, mem_bytes.mpr ⟨hd.trans hdev.symm, hlo, by dsimp only at hhi; omega⟩⟩

/-! ### Releasing -/

/-- `R` coalesced with the free range after it. -/
def joinNext (R : FreeRange) : List FreeRange → FreeRange × List FreeRange
  | next :: rest =>
    if next.sameDevice R.nodeId R.deviceIndex && R.end_ = next.offset then
      ({ R with len := u64 (R.len + next.len) }, rest)
    else (R, next :: rest)
  | [] => (R, [])

/-- The free list with `cur`, coalesced with the free range before it. -/
def joinPrev (before : List FreeRange) (cur : FreeRange) (after : List FreeRange) :
    List FreeRange :=
  match before.getLast? with
  | some prev =>
    if prev.sameDevice cur.nodeId cur.deviceIndex && prev.end_ = cur.offset then
      before.dropLast ++ { prev with len := u64 (prev.len + cur.len) } :: after
    else before ++ cur :: after
  | none => cur :: after

theorem joinNext_device (R : FreeRange) (after : List FreeRange) :
    (joinNext R after).1.nodeId = R.nodeId ∧ (joinNext R after).1.deviceIndex = R.deviceIndex := by
  unfold joinNext
  split
  · split <;> exact ⟨rfl, rfl⟩
  · exact ⟨rfl, rfl⟩

theorem touches_iff (hr : r.Fits) {s : FreeRange} :
    (r.sameDevice s.nodeId s.deviceIndex && r.end_ = s.offset) = true ↔ r.Touches s := by
  rw [Bool.and_eq_true, sameDevice_iff, decide_eq_true_eq, hr.end_eq]
  rfl

theorem joinNext_spec {after : List FreeRange} (hR : R.Fits) (hlen : 0 < R.len)
    (hs : after.Pairwise Before) (hfit : ∀ x ∈ after, x.Fits) (huntil : ∀ x ∈ after, R.Until x) :
    ((joinNext R after).1.device = R.device ∧ (joinNext R after).1.offset = R.offset ∧
      0 < (joinNext R after).1.len ∧ (joinNext R after).1.Fits) ∧
    ((joinNext R after).2.Pairwise Before ∧ (∀ x ∈ (joinNext R after).2, x ∈ after) ∧
      ∀ x ∈ (joinNext R after).2, (joinNext R after).1.Before x) ∧
    (joinNext R after).1.bytes ∪ bytesOf (joinNext R after).2 = R.bytes ∪ bytesOf after := by
  cases after with
  | nil => exact ⟨⟨rfl, rfl, hlen, hR⟩, ⟨.nil, fun x hx => hx, fun x hx => nomatch hx⟩, rfl⟩
  | cons next rest =>
    obtain ⟨hnext, hrest⟩ := List.pairwise_cons.mp hs
    have hnfit := hfit next List.mem_cons_self
    have hunt := huntil next List.mem_cons_self
    have hcond : (next.sameDevice R.nodeId R.deviceIndex && R.end_ = next.offset) = true ↔ R.Touches next := by
      rw [Bool.and_eq_true, sameDevice_iff, decide_eq_true_eq, hR.end_eq]
      exact and_congr_left fun _ => eq_comm
    by_cases htouch : R.Touches next
    · have hjoin : joinNext R (next :: rest) = ({ R with len := u64 (R.len + next.len) }, rest) :=
        if_pos (hcond.mpr htouch)
      have hsum : R.offset + (R.len + next.len) < 2 ^ 64 := by
        have : next.offset + next.len < 2 ^ 64 := hnfit
        have := htouch.2
        omega
      have hu : u64 (R.len + next.len) = R.len + next.len := Nat.mod_eq_of_lt (by omega)
      rw [hjoin, hu]
      refine ⟨⟨rfl, rfl, by dsimp only; omega, hsum⟩, ⟨hrest, fun x hx => List.mem_cons_of_mem _ hx,
        fun x hx => ?_⟩, ?_⟩
      · have hend := htouch.2
        exact (hnext x hx).imp (htouch.1 ▸ ·) fun h => ⟨htouch.1.trans h.1, by dsimp only; omega⟩
      · have hm : FreeRange.bytes { R with len := R.len + next.len } = R.bytes ∪ next.bytes :=
          htouch.bytes_union rfl rfl rfl
        rw [hm, bytesOf_cons, union_assoc]
    · have hjoin : joinNext R (next :: rest) = (R, next :: rest) := if_neg fun h => htouch (hcond.mp h)
      rw [hjoin]
      refine ⟨⟨rfl, rfl, hlen, hR⟩, ⟨hs, fun x hx => hx, fun x hx => ?_⟩, rfl⟩
      rcases List.mem_cons.mp hx with rfl | hx
      · exact hunt.before htouch
      · exact hunt.trans_before (hnext x hx)

theorem Wf.insert {x : FreeRange} (hpre : pre.Pairwise Before) (hpost : post.Pairwise Before)
    (hall : ∀ a ∈ pre ++ post, 0 < a.len ∧ a.Fits) (hfit : x.Fits) (hlen : 0 < x.len)
    (hx : ∀ a ∈ pre, a.Before x) (hx' : ∀ b ∈ post, x.Before b)
    (hcross : ∀ a ∈ pre, ∀ b ∈ post, a.Before b) : Wf ⟨pre ++ x :: post⟩ := by
  have hmem : ∀ a ∈ pre ++ x :: post, 0 < a.len ∧ a.Fits := by
    intro a ha
    rcases List.mem_append.mp ha with ha | ha
    · exact hall a (List.mem_append_left _ ha)
    · rcases List.mem_cons.mp ha with rfl | ha
      · exact ⟨hlen, hfit⟩
      · exact hall a (List.mem_append_right _ ha)
  refine ⟨?_, fun a ha => (hmem a ha).1, fun a ha => (hmem a ha).2⟩
  refine List.pairwise_append.mpr ⟨hpre, List.pairwise_cons.mpr ⟨hx', hpost⟩, fun a ha b hb => ?_⟩
  rcases List.mem_cons.mp hb with rfl | hb
  · exact hx a ha
  · exact hcross a ha b hb

theorem joinPrev_spec {before after : List FreeRange} {cur : FreeRange} (hcur : cur.Fits)
    (hlen : 0 < cur.len) (hb : before.Pairwise Before) (ha : after.Pairwise Before)
    (hall : ∀ x ∈ before ++ after, 0 < x.len ∧ x.Fits) (huntil : ∀ x ∈ before, x.Until cur)
    (hafter : ∀ y ∈ after, cur.Before y) (hcross : ∀ x ∈ before, ∀ y ∈ after, x.Before y) :
    Wf ⟨joinPrev before cur after⟩ ∧
      bytes ⟨joinPrev before cur after⟩ = bytesOf before ∪ (cur.bytes ∪ bytesOf after) := by
  rcases List.eq_nil_or_concat' before with rfl | ⟨init, prev, rfl⟩
  · refine ⟨?_, by simp [joinPrev, bytes]⟩
    exact Wf.insert .nil ha hall hcur hlen (fun x hx => nomatch hx) hafter fun x hx => nomatch hx
  have hprev : prev ∈ init ++ [prev] ++ after := by simp
  obtain ⟨hinit, -, hlast⟩ := List.pairwise_append.mp hb
  have hbefore : ∀ x ∈ init, x.Before prev := fun x hx => hlast x hx prev (List.mem_singleton_self _)
  have hpu : prev.Until cur := huntil prev (by simp)
  by_cases htouch : prev.Touches cur
  · have hjoin : joinPrev (init ++ [prev]) cur after =
        init ++ { prev with len := u64 (prev.len + cur.len) } :: after := by
      simp only [joinPrev, List.getLast?_concat, List.dropLast_concat]
      exact if_pos ((touches_iff (hall prev hprev).2).mpr htouch)
    have hend := htouch.2
    have hsum : prev.offset + (prev.len + cur.len) < 2 ^ 64 := by
      have : cur.offset + cur.len < 2 ^ 64 := hcur
      omega
    have hu : u64 (prev.len + cur.len) = prev.len + cur.len := Nat.mod_eq_of_lt (by omega)
    rw [hjoin, hu]
    constructor
    · refine Wf.insert hinit ha (fun x hx => hall x ?_) hsum (by dsimp only; omega) hbefore
        (fun y hy => ?_) fun x hx y hy => hcross x (List.mem_append_left _ hx) y hy
      · rcases List.mem_append.mp hx with hx | hx <;> simp [hx]
      · exact (hafter y hy).imp (htouch.1 ▸ ·) fun h => ⟨htouch.1.trans h.1, by dsimp only; omega⟩
    · have hm : FreeRange.bytes { prev with len := prev.len + cur.len } = prev.bytes ∪ cur.bytes :=
        htouch.bytes_union rfl rfl rfl
      rw [bytes, bytesOf_append, bytesOf_cons, hm, bytesOf_append, bytesOf_cons, bytesOf_nil,
        union_empty, union_assoc, union_assoc]
  · have hjoin : joinPrev (init ++ [prev]) cur after = init ++ [prev] ++ cur :: after := by
      simp only [joinPrev, List.getLast?_concat]
      exact if_neg fun h => htouch ((touches_iff (hall prev hprev).2).mp h)
    rw [hjoin]
    refine ⟨Wf.insert hb ha hall hcur hlen (fun x hx => ?_) hafter hcross, ?_⟩
    · rcases List.mem_append.mp hx with hx | hx
      · exact (hbefore x hx).trans_until hpu
      · obtain rfl := List.mem_singleton.mp hx
        exact hpu.before htouch
    · rw [bytes, bytesOf_append, bytesOf_cons]

/-- The free ranges next to `R` end before it and start after it. -/
structure Clear (f : FreeList) (R : FreeRange) : Prop where
  prev : ∀ r ∈ (f.ranges.takeWhile (·.keyLt R)).getLast?,
    r.sameDevice R.nodeId R.deviceIndex = true → r.end_ ≤ R.offset
  next : ∀ r ∈ (f.ranges.dropWhile (·.keyLt R)).head?,
    r.sameDevice R.nodeId R.deviceIndex = true → R.end_ ≤ r.offset

theorem release_of_clear (hlen : 0 < R.len) (hclear : f.Clear R) :
    f.release R.nodeId R.deviceIndex R.offset R.len = .ok ⟨joinPrev
      (f.ranges.takeWhile (·.keyLt R)) (joinNext R (f.ranges.dropWhile (·.keyLt R))).1
      (joinNext R (f.ranges.dropWhile (·.keyLt R))).2⟩ := by
  unfold release
  rw [if_neg (by omega)]
  rw [if_neg, if_neg]
  · generalize f.ranges.dropWhile (·.keyLt R) = after
    generalize f.ranges.takeWhile (·.keyLt R) = before
    obtain ⟨hnode, hdev⟩ := joinNext_device R after
    unfold joinPrev
    rw [hnode, hdev]
    cases before.getLast? with
    | none => rfl
    | some prev => exact (apply_ite (fun l => Except.ok (mk l)) _ _ _).symm
  · rw [any_eq_true]
    rintro ⟨next, hnext, h⟩
    obtain ⟨hsame, hlt⟩ := Bool.and_eq_true_iff.mp h
    exact absurd (of_decide_eq_true hlt) (not_lt.mpr (hclear.next next hnext hsame))
  · rw [any_eq_true]
    rintro ⟨prev, hprev, h⟩
    obtain ⟨hsame, hlt⟩ := Bool.and_eq_true_iff.mp h
    exact absurd (of_decide_eq_true hlt) (not_lt.mpr (hclear.prev prev hprev hsame))

theorem not_keyLt_head (h : r ∈ (f.ranges.dropWhile (·.keyLt R)).head?) :
    ¬ (r.device < R.device ∨ r.device = R.device ∧ r.offset < R.offset) := by
  have hhead := List.head?_dropWhile_not (·.keyLt R) f.ranges
  rw [h] at hhead
  rw [← keyLt_iff]
  simpa using hhead

/-- A range that is not free has clear neighbours. -/
theorem Wf.clear (h : f.Wf) (hR : R.Fits) (hlen : 0 < R.len) (hdisj : Disjoint R.bytes f.bytes) : f.Clear R := by
  have hapart := disjoint_bytesOf.mp hdisj
  constructor
  · intro r hr hsame
    have hmem := List.mem_of_mem_getLast? hr
    have hin : r ∈ f.ranges := (List.takeWhile_prefix _).subset hmem
    have hkey : r.keyLt R = true := List.mem_takeWhile_imp (p := fun y : FreeRange => y.keyLt R) hmem
    have hd := sameDevice_iff.mp hsame
    rw [(h.fits r hin).end_eq]
    rcases until_or_until hd (h.nonempty r hin) hlen (hapart r hin).symm with
      (hlt | ⟨-, hle⟩) | (hlt | ⟨-, hle⟩)
    · exact absurd hd hlt.ne
    · exact hle
    · exact absurd hd hlt.ne'
    · rcases keyLt_iff.mp hkey with hlt | ⟨-, hlt⟩
      · exact absurd hd hlt.ne
      · omega
  · intro r hr hsame
    have hin : r ∈ f.ranges := (List.dropWhile_sublist _).subset (List.mem_of_mem_head? hr)
    have hd := sameDevice_iff.mp hsame
    have hpos := h.nonempty r hin
    rw [hR.end_eq]
    rcases until_or_until hd hpos hlen (hapart r hin).symm with
      (hlt | ⟨-, hle⟩) | (hlt | ⟨-, hle⟩)
    · exact absurd hd hlt.ne
    · exact absurd (.inr ⟨hd, by omega⟩) (not_keyLt_head hr)
    · exact absurd hd hlt.ne'
    · exact hle

/-- With clear neighbours all free ranges end before `R` or start after it. -/
theorem Wf.until_parts (h : f.Wf) (hR : R.Fits) (hclear : f.Clear R) :
    (∀ x ∈ f.ranges.takeWhile (·.keyLt R), x.Until R) ∧ ∀ x ∈ f.ranges.dropWhile (·.keyLt R), R.Until x := by
  have hsorted := h.sorted
  rw [← List.takeWhile_append_dropWhile (p := (·.keyLt R)) (l := f.ranges)] at hsorted
  obtain ⟨hb, ha, -⟩ := List.pairwise_append.mp hsorted
  constructor
  · intro x hx
    obtain ⟨pre, last, hlast⟩ : ∃ pre last, f.ranges.takeWhile (·.keyLt R) = pre ++ [last] :=
      (List.eq_nil_or_concat' _).resolve_left (List.ne_nil_of_mem hx)
    have hmem : last ∈ f.ranges.takeWhile (·.keyLt R) := by simp [hlast]
    have hkey := List.mem_takeWhile_imp (p := fun y : FreeRange => y.keyLt R) hmem
    have hl : last.Until R := (keyLt_iff.mp hkey).imp_right fun hd => ⟨hd.1, by
      rw [← (h.fits last ((List.takeWhile_prefix _).subset hmem)).end_eq]
      exact hclear.prev last (by simp [hlast]) (sameDevice_iff.mpr hd.1)⟩
    rw [hlast] at hx hb
    rcases List.mem_append.mp hx with hx | hx
    · exact (((List.pairwise_append.mp hb).2.2 x hx last (by simp)).trans_until hl).until
    · rwa [List.mem_singleton.mp hx]
  · cases hafter : f.ranges.dropWhile (·.keyLt R) with
    | nil => exact fun x hx => nomatch hx
    | cons y rest =>
      have hhead : y ∈ (f.ranges.dropWhile (·.keyLt R)).head? := by simp [hafter]
      have hy : R.Until y := by
        rcases lt_trichotomy y.device R.device with hlt | hd | hlt
        · exact absurd (.inl hlt) (not_keyLt_head hhead)
        · exact .inr ⟨hd.symm, hR.end_eq ▸ hclear.next y hhead (sameDevice_iff.mpr hd)⟩
        · exact .inl hlt
      rw [hafter] at ha
      intro x hx
      rcases List.mem_cons.mp hx with rfl | hx
      · exact hy
      · exact (hy.trans_before ((List.pairwise_cons.mp ha).1 x hx)).until

/-- Bytes that are not free can be released. -/
theorem Wf.release (h : f.Wf) (hR : R.Fits) (hdisj : Disjoint R.bytes f.bytes) :
    ∃ f', f.release R.nodeId R.deviceIndex R.offset R.len = .ok f' ∧ f'.Wf ∧ f'.bytes = f.bytes ∪ R.bytes := by
  by_cases hlen : R.len = 0
  · refine ⟨f, by rw [FreeList.release, if_pos hlen], h, ?_⟩
    rw [bytes_empty hlen, union_empty]
  have hlen : 0 < R.len := by omega
  have hclear := h.clear hR hlen hdisj
  obtain ⟨hbefore, hafter⟩ := h.until_parts hR hclear
  have hsplit : f.ranges.takeWhile (·.keyLt R) ++ f.ranges.dropWhile (·.keyLt R) = f.ranges :=
    List.takeWhile_append_dropWhile
  have hall : ∀ x ∈ f.ranges, 0 < x.len ∧ x.Fits := fun x hx => ⟨h.nonempty x hx, h.fits x hx⟩
  have hsorted := h.sorted
  have hbytes : f.bytes = bytesOf (f.ranges.takeWhile (·.keyLt R)) ∪ bytesOf (f.ranges.dropWhile (·.keyLt R)) := by
    rw [← bytesOf_append, hsplit, bytes]
  rw [← hsplit] at hsorted hall
  obtain ⟨hb, ha, hcross⟩ := List.pairwise_append.mp hsorted
  obtain ⟨⟨hd, ho, hl, hf⟩, ⟨hrest, hsub, hnext⟩, hunion⟩ := joinNext_spec hR hlen ha
    (fun x hx => (hall x (List.mem_append_right _ hx)).2) hafter
  have hrests : ∀ x ∈ f.ranges.takeWhile (·.keyLt R) ++
      (joinNext R (f.ranges.dropWhile (·.keyLt R))).2, 0 < x.len ∧ x.Fits := by
    intro x hx
    rcases List.mem_append.mp hx with hx | hx
    · exact hall x (List.mem_append_left _ hx)
    · exact hall x (List.mem_append_right _ (hsub x hx))
  obtain ⟨hwf, hout⟩ := joinPrev_spec hf hl hb hrest hrests
    (fun x hx => (hbefore x hx).imp (hd.symm ▸ ·) fun h => ⟨h.1.trans hd.symm, ho.symm ▸ h.2⟩)
    hnext fun x hx y hy => hcross x hx y (hsub y hy)
  refine ⟨_, release_of_clear hlen hclear, hwf, ?_⟩
  rw [hout, hunion, hbytes]
  ac_rfl

end FreeList

end AtlasNative
