import AtlasNative.Engine.Inflight

/-!
# Exclusive allocation

Whatever a lease takes is disjoint from all that other leases hold, from all that is in quarantine
and from every extent, as long as commands of other leaders keep out of the view that is in use and
out of the middle of reserved ranges. Neither the view nor the reservations follow the catalog, so
without that a range is handed out twice.
-/

namespace AtlasNative

open List Catalog Std.ExtTreeMap FreeList

variable {T D C : Type} [Backend T D C]

variable {now : Instant}

namespace Inflight

variable {s s' : Inflight} {q : FreeRange} {token : Nat}

/-- Some lease holds `q`. -/
def Held (held : BTreeMap Nat (List FreeRange)) (q : FreeRange) : Prop :=
  ∃ (token : Nat) (l : List FreeRange), held[token]? = some l ∧ q ∈ l

theorem mem_reserved : q ∈ s.reserved ↔ Held s.held q ∨ ∃ till, (till, q) ∈ s.quarantine := by
  simp only [reserved, Held, mem_append, mem_flatMap, mem_map, Prod.exists,
    mem_toList_iff_getElem?_eq_some, exists_eq_right]

variable {held : BTreeMap Nat (List FreeRange)}

theorem Held.of_insert {l : List FreeRange} (h : Held (held.insert token l) q) : q ∈ l ∨ Held held q := by
  obtain ⟨t, l', ht, hq⟩ := h
  rcases Program.getElem?_of_insert ht with ⟨-, rfl⟩ | ht
  · exact .inl hq
  · exact .inr ⟨t, l', ht, hq⟩

theorem Held.of_getD (h : q ∈ (held[token]?).getD []) : Held held q := by
  cases hl : held[token]? with
  | none => simp [hl] at h
  | some l => exact ⟨token, l, hl, by simpa [hl] using h⟩

theorem lease_reserved (h : q ∈ s.lease.2.reserved) : q ∈ s.reserved := by
  rw [mem_reserved] at h ⊢
  exact h.imp_left fun h => h.of_insert.resolve_left (by simp)

theorem settle_reserved {e : NativeError} (h : q ∈ (s.settle token e now).reserved) : q ∈ s.reserved := by
  unfold settle at h
  split at h
  · rw [mem_reserved] at h ⊢
    rcases h with h | ⟨till, h⟩
    · exact .inl (h.of_insert.resolve_left (by simp))
    · rcases mem_append.mp h with h | h
      · exact .inr ⟨till, h⟩
      · obtain ⟨r, hr, heq⟩ := mem_map.mp h
        cases heq
        exact .inl (.of_getD hr)
  · exact h

theorem settle_view {e : NativeError} : (s.settle token e now).view = s.view := by
  unfold settle
  split <;> rfl

theorem drop_reserved (h : q ∈ (s.drop token).reserved) : q ∈ s.reserved := by
  rw [mem_reserved] at h ⊢
  refine h.imp_left ?_
  rintro ⟨t, l, ht, hq⟩
  exact ⟨t, l, Program.getElem?_of_erase ht, hq⟩

theorem drop_view {v : FreeList} {since : Instant} (h : (s.drop token).view = some (v, since)) :
    s.view = some (v, since) := by
  unfold drop at h
  dsimp only at h
  split at h
  · cases h
  · exact h

variable {free : FreeList}

/-- The end of a quarantine is the only loss. -/
theorem rebuild_reserved (h : q ∈ (s.rebuild free now).reserved) : q ∈ s.reserved := by
  rw [mem_reserved] at h ⊢
  refine h.imp_right ?_
  rintro ⟨till, hq⟩
  exact ⟨till, mem_of_mem_filter hq⟩

theorem ready_quarantine {till : Instant} (h : (till, q) ∈ s.quarantine) (hlive : now < till) :
    (till, q) ∈ (s.ready free now).quarantine := by
  unfold ready
  split
  · exact h
  · exact mem_filter.mpr ⟨h, by simpa using hlive⟩

theorem ready_held : (s.ready free now).held = s.held := by
  unfold ready
  split <;> rfl

/-- `take` finds nothing, or takes a range out of the view and holds it. -/
theorem take_cases (token : Nat) (nodeId : String) (deviceIndex len : Nat) (free : FreeList)
    (now : Instant) (s : Inflight) :
    s.take token nodeId deviceIndex len free now = (none, s.ready free now) ∨
    ∃ v since offset, (s.ready free now).view = some (v, since) ∧ v.find nodeId deviceIndex len = some offset ∧
      s.take token nodeId deviceIndex len free now = (some offset, { s.ready free now with
        view := some (v.without ⟨nodeId, deviceIndex, offset, len⟩, since)
        held := (s.ready free now).held.insert token
          (((s.ready free now).held[token]?).getD [] ++ [⟨nodeId, deviceIndex, offset, len⟩]) }) := by
  unfold take
  dsimp only
  split
  · exact .inl rfl
  · rename_i v since hv
    split
    · exact .inl rfl
    · rename_i offset hfind
      exact .inr ⟨v, since, offset, hv, hfind, rfl⟩

end Inflight

/-! ### The invariant -/

namespace Engine

open Inflight

variable {e e' : Engine T C} {q r : FreeRange}

/-- Every reserved range is free as a whole, or inside a range of one extent. -/
def Whole (c : Catalog T) (q : FreeRange) : Prop :=
  q.bytes ⊆ c.free.bytes ∨ ∃ r ∈ c.space.all, q.bytes ⊆ r.bytes

/-- The view is free, and none of it reserved. -/
structure ViewOk (c : Catalog T) (s : Inflight) (view : FreeList) : Prop where
  wf : view.Wf
  free : view.bytes ⊆ c.free.bytes
  unreserved : ∀ q ∈ s.reserved, Disjoint q.bytes view.bytes

structure Inv (e : Engine T C) : Prop where
  space : e.catalog.1.space.Ok
  fits : ∀ q ∈ e.inflight.reserved, q.Fits
  apart : ∀ q ∈ e.inflight.reserved, ∀ q' ∈ e.inflight.reserved, q = q' ∨ Disjoint q.bytes q'.bytes
  whole : ∀ q ∈ e.inflight.reserved, Whole e.catalog.1 q
  view : ∀ v since, e.inflight.view = some (v, since) → ViewOk e.catalog.1 e.inflight v

theorem Inv.fewer (h : e.Inv) (hcat : e'.catalog = e.catalog)
    (hres : ∀ q ∈ e'.inflight.reserved, q ∈ e.inflight.reserved)
    (hview : ∀ v since, e'.inflight.view = some (v, since) → e.inflight.view = some (v, since)) :
    e'.Inv where
  space := hcat ▸ h.space
  fits q hq := h.fits q (hres q hq)
  apart q hq q' hq' := h.apart q (hres q hq) q' (hres q' hq')
  whole q hq := hcat ▸ h.whole q (hres q hq)
  view v since hv := by
    obtain ⟨hwf, hfree, hunres⟩ := h.view v since (hview v since hv)
    exact ⟨hwf, hcat ▸ hfree, fun q hq => hunres q (hres q hq)⟩

/-- A reserved range is free as a whole or not at all. -/
theorem Inv.free_or (h : e.Inv) (hq : q ∈ e.inflight.reserved) :
    q.bytes ⊆ e.catalog.1.free.bytes ∨ Disjoint q.bytes e.catalog.1.free.bytes := by
  refine (h.whole q hq).imp_right ?_
  rintro ⟨r, ⟨id, hr⟩, hsub⟩
  exact (h.space.used id r hr).mono_left hsub

theorem Inv.rebuild (h : e.Inv) :
    { e with inflight := e.inflight.rebuild e.catalog.1.free e.now : Engine T C }.Inv := by
  have hres : ∀ q ∈ (e.inflight.rebuild e.catalog.1.free e.now).reserved, q ∈ e.inflight.reserved :=
    fun q hq => rebuild_reserved hq
  refine ⟨h.space, fun q hq => h.fits q (hres q hq),
    fun q hq q' hq' => h.apart q (hres q hq) q' (hres q' hq'), fun q hq => h.whole q (hres q hq), ?_⟩
  rintro v since hv
  cases hv
  obtain ⟨hwf, hbytes⟩ := h.space.free.withoutEach (fun q hq => h.fits q (hres q hq))
    (fun q hq q' hq' => h.apart q (hres q hq) q' (hres q' hq')) fun q hq => h.free_or (hres q hq)
  refine ⟨hwf, ?_, fun q hq => ?_⟩
  · exact hbytes.subset.trans Set.sdiff_subset
  · have hdisj : Disjoint q.bytes (e.catalog.1.free.bytes \
        bytesOf (e.inflight.rebuild e.catalog.1.free e.now).reserved) :=
      Set.disjoint_left.mpr fun b hb hb' => hb'.2 ⟨q, hq, hb⟩
    exact hdisj.mono_right hbytes.subset

theorem Inv.ready (h : e.Inv) : { e with inflight := e.inflight.ready e.catalog.1.free e.now : Engine T C }.Inv := by
  unfold Inflight.ready
  split
  · exact h
  · exact h.rebuild

theorem Inv.hold {s' : Inflight} {v : FreeList} {since : Instant} (h : e.Inv)
    (hv : e.inflight.view = some (v, since)) (hfits : r.Fits) (hsub : r.bytes ⊆ v.bytes)
    (hview : s'.view = some (v.without r, since))
    (hres : ∀ q ∈ s'.reserved, q ∈ e.inflight.reserved ∨ q = r) :
    { e with inflight := s' : Engine T C }.Inv := by
  obtain ⟨hwf, hfree, hunres⟩ := h.view v since hv
  obtain ⟨hwf', hbytes⟩ := hwf.without_of_subset hfits hsub
  have hr : ∀ q ∈ e.inflight.reserved, Disjoint q.bytes r.bytes := fun q hq => (hunres q hq).mono_right hsub
  refine ⟨h.space, fun q hq => ?_, fun q hq q' hq' => ?_, fun q hq => ?_, ?_⟩
  · rcases hres q hq with hq | rfl
    · exact h.fits q hq
    · exact hfits
  · rcases hres q hq with hq | rfl <;> rcases hres q' hq' with hq' | rfl
    · exact h.apart q hq q' hq'
    · exact .inr (hr q hq)
    · exact .inr (hr q' hq').symm
    · exact .inl rfl
  · rcases hres q hq with hq | rfl
    · exact h.whole q hq
    · exact .inl (hsub.trans hfree)
  · intro v' since' hv'
    obtain ⟨rfl, rfl⟩ := Prod.mk.inj (Option.mem_unique hview hv')
    refine ⟨hwf', hbytes.subset.trans (Set.sdiff_subset.trans hfree), fun q hq => ?_⟩
    rw [hbytes]
    rcases hres q hq with hq | rfl
    · exact (hunres q hq).mono_right Set.sdiff_subset
    · exact Set.disjoint_sdiff_right

theorem Inv.take (h : e.Inv) (token : Nat) (nodeId : String) (deviceIndex len : Nat) :
    (e.take token nodeId deviceIndex len).2.Inv := by
  have hready := h.ready
  unfold Engine.take
  rcases take_cases token nodeId deviceIndex len e.catalog.1.free e.now e.inflight with
    heq | ⟨v, since, offset, hv, hfind, heq⟩
  · rw [heq]
    exact hready
  · rw [heq]
    obtain ⟨hfits, hsub⟩ := (hready.view v since hv).wf.find_free hfind
    refine hready.hold hv hfits hsub rfl fun q hq => ?_
    rw [mem_reserved] at hq ⊢
    rcases hq with hq | hq
    · rcases hq.of_insert with hq | hq
      · rcases mem_append.mp hq with hq | hq
        · exact .inl (.inl (.of_getD hq))
        · exact .inr (mem_singleton.mp hq)
      · exact .inl (.inl hq)
    · exact .inl (.inr hq)

/-! ### The catalog moves -/

/-- `r` may come into use: it is not in the view, and takes reserved ranges whole or not at all. -/
def Aside (e : Engine T C) (r : FreeRange) : Prop :=
  (∀ v since, e.inflight.view = some (v, since) → Disjoint r.bytes v.bytes) ∧
    ∀ q ∈ e.inflight.reserved, q.bytes ⊆ r.bytes ∨ Disjoint q.bytes r.bytes

/-- A new range that a lease of this engine holds, or one that was not free, stays aside. -/
theorem Inv.aside (h : e.Inv) (hunused : ∀ r' ∈ e.catalog.1.space.all, Disjoint r.bytes r'.bytes)
    (hr : r ∈ e.inflight.reserved ∨ Disjoint r.bytes e.catalog.1.free.bytes) : e.Aside r := by
  rcases hr with hr | hr
  · refine ⟨fun v since hv => (h.view v since hv).unreserved r hr, fun q hq => ?_⟩
    rcases h.apart q hq r hr with rfl | hdisj
    · exact .inl subset_rfl
    · exact .inr hdisj
  · refine ⟨fun v since hv => hr.mono_right (h.view v since hv).free, fun q hq => .inr ?_⟩
    rcases h.whole q hq with hsub | ⟨r', hr', hsub⟩
    · exact (hr.mono_right hsub).symm
    · exact ((hunused r' hr').mono_right hsub).symm

/-- Ranges that move between extents and the free list, the new ones aside. -/
theorem Inv.move {catalog : With T C} {new freed : List FreeRange} (h : e.Inv)
    (hmoved : e.catalog.1.space.Moved catalog.1.space new freed) (haside : ∀ r ∈ new, e.Aside r) :
    { e with catalog := catalog : Engine T C }.Inv := by
  have hfree : catalog.1.free.bytes = e.catalog.1.free.bytes \ bytesOf new ∪ bytesOf freed := hmoved.free
  refine ⟨hmoved.ok, h.fits, h.apart, fun q hq => ?_, fun v since hv => ?_⟩
  · by_cases hin : ∃ r, (r ∈ e.catalog.1.space.all ∨ r ∈ new) ∧ q.bytes ⊆ r.bytes
    · -- inside an extent, from which it leaves only into the free list
      obtain ⟨r, hr, hsub⟩ := hin
      rcases hmoved.kept r hr with hr | hr
      · exact .inr ⟨r, hr, hsub⟩
      · exact .inl fun b hb => hfree ▸ .inr ⟨r, hr, hsub hb⟩
    · push Not at hin
      have hsub : q.bytes ⊆ e.catalog.1.free.bytes := by
        rcases h.whole q hq with hsub | ⟨r, hr, hsub⟩
        · exact hsub
        · exact absurd hsub (hin r (.inl hr))
      refine .inl fun b hb => hfree ▸ .inl ⟨hsub hb, ?_⟩
      rintro ⟨r, hr, hbr⟩
      have hdisj := ((haside r hr).2 q hq).resolve_left (hin r (.inr hr))
      exact Set.disjoint_left.mp hdisj hb hbr
  · obtain ⟨hwf, hsub, hunres⟩ := h.view v since hv
    refine ⟨hwf, fun b hb => hfree ▸ .inl ⟨hsub hb, ?_⟩, hunres⟩
    rintro ⟨r, hr, hbr⟩
    exact Set.disjoint_left.mp ((haside r hr).1 v since hv) hbr hb

/-- What the engine relies on when its catalog changes: new ranges lie where they may, and each is
reserved here, was not free, or stays aside. -/
def Relies (e : Engine T C) : Event T C → Prop
  | .apply term index cmd =>
    Catalog.Placed term index cmd e.catalog ∧
    ((Catalog.applyCommittedWith term index cmd e.catalog).2.1.space ≠ e.catalog.1.space →
      ∀ r ∈ cmd.newRanges e.catalog.1,
        r ∈ e.inflight.reserved ∨ Disjoint r.bytes e.catalog.1.free.bytes ∨ e.Aside r)
  | .load catalog => catalog.1.space.Ok ∧
    (∀ v since, e.inflight.view = some (v, since) → v.bytes ⊆ catalog.1.free.bytes) ∧
    ∀ q ∈ e.inflight.reserved, Whole catalog.1 q
  | _ => True

/-- Every change along a run is such. -/
def AllRely : Engine T C → List (Event T C) → Prop
  | _, [] => True
  | e, event :: events => e.Relies event ∧ AllRely (e.step event) events

theorem Inv.step {event : Event T C} (h : e.Inv) (hrely : e.Relies event) : (e.step event).Inv := by
  cases event with
  | lease => exact h.fewer rfl (fun q hq => lease_reserved hq) fun _ _ hv => hv
  | take token nodeId deviceIndex len => exact h.take token nodeId deviceIndex len
  | settle token err =>
    exact h.fewer rfl (fun q hq => settle_reserved hq) fun _ _ hv => settle_view ▸ hv
  | drop token => exact h.fewer rfl (fun q hq => drop_reserved hq) fun _ _ hv => drop_view hv
  | apply term index cmd =>
    obtain ⟨hplaced, hnew⟩ := hrely
    by_cases hsame : (applyCommittedWith term index cmd e.catalog).2.1.space = e.catalog.1.space
    · have hmoved : e.catalog.1.space.Moved (applyCommittedWith term index cmd e.catalog).2.1.space [] [] := by
        rw [hsame]
        exact .refl h.space
      exact h.move hmoved (by simp)
    · have hadm := hplaced hsame
      have hmoved := ((applyCommittedWith_space term index cmd h.space).resolve_left hsame) hadm
      refine h.move hmoved fun r hr => ?_
      have hunused : ∀ r' ∈ e.catalog.1.space.all, Disjoint r.bytes r'.bytes :=
        fun r' ⟨id, hr'⟩ => hadm.unused r hr id r' hr'
      rcases hnew hsame r hr with hr | hr | hr
      · exact h.aside hunused (.inl hr)
      · exact h.aside hunused (.inr hr)
      · exact hr
  | load catalog =>
    obtain ⟨hok, hview, hwhole⟩ := hrely
    refine ⟨hok, h.fits, h.apart, hwhole, fun v since hv => ?_⟩
    obtain ⟨hwf, -, hunres⟩ := h.view v since hv
    exact ⟨hwf, hview v since hv, hunres⟩
  | wait time => exact h.fewer rfl (fun q hq => hq) fun _ _ hv => hv

theorem Inv.run {events : List (Event T C)} (h : e.Inv) (hrely : e.AllRely events) : (e.run events).Inv := by
  induction events generalizing e with
  | nil => exact h
  | cons event events ih => exact ih (h.step hrely.1) hrely.2

theorem Inv.opened {catalog : With T C} (hok : catalog.1.space.Ok) :
    ({ catalog := catalog, now := now } : Engine T C).Inv :=
  ⟨hok, nofun, nofun, nofun, nofun⟩

/-- What `take` hands out is part of the view it is left with, ready for it. -/
theorem take_view {token : Nat} {nodeId : String} {deviceIndex len offset : Nat} (h : e.Inv)
    (htake : (e.take token nodeId deviceIndex len).1 = some offset) :
    ∃ v, ViewOk e.catalog.1 (e.inflight.ready e.catalog.1.free e.now) v ∧
      (⟨nodeId, deviceIndex, offset, len⟩ : FreeRange).bytes ⊆ v.bytes := by
  have hready := h.ready
  unfold Engine.take at htake
  rcases take_cases token nodeId deviceIndex len e.catalog.1.free e.now e.inflight with
    heq | ⟨v, since, offset', hv, hfind, heq⟩
  · rw [heq] at htake
    cases htake
  · rw [heq] at htake
    cases htake
    have hok := hready.view v since hv
    exact ⟨v, hok, (hok.wf.find_free hfind).2⟩

/-! ### Runs on a reclaimed range

The catalog of `Catalog.reuseLog` has one free range, `[0, 10)`, and no extent. -/

def reused : Engine MemTable Unit := { catalog := Catalog.applyAll ({}, ()) Catalog.reuseLog }

/-- The command that installs `[offset, offset + len)`. -/
def installAt (offset len : Nat) : MetaCommand :=
  .installExtent "w" 0 (Catalog.plainExtent "x" offset len)

theorem reused_placed {offset len : Nat} (hend : offset + len ≤ 10)
    (hnew : (installAt offset len).newRanges reused.catalog.1 = [⟨"n", 0, offset, len⟩]) :
    Placed 2 6 (installAt offset len) reused.catalog := by
  intro _
  rw [hnew]
  have hfree : reused.catalog.1.free.ranges = [⟨"n", 0, 0, 10⟩] := by decide +kernel
  have hfits : (⟨"n", 0, offset, len⟩ : FreeRange).Fits := by
    unfold FreeRange.Fits
    dsimp only
    omega
  refine admits_first hfits (by decide +kernel) (.inl ?_)
  refine ⟨⟨"n", 0, 0, 10⟩, by simp [hfree], fun b hb => ?_⟩
  obtain ⟨hnode, hdev, -, hhi⟩ := hb
  exact ⟨hnode, hdev, Nat.zero_le _, by dsimp only at hhi ⊢; omega⟩

/-- A lease takes `[0, 4)` and its command is applied. -/
def ownRun : List (Event MemTable Unit) :=
  [.lease, .take 1 "n" 0 4, .apply 2 6 (installAt 0 4), .lease]

/-- A range handed out is disjoint from all ranges held or in quarantine and from all extents. -/
theorem take_exclusive {now : Instant} {catalog : Catalog.With T C} (hok : catalog.1.space.Ok)
    {events : List (Event T C)}
    (hrely : AllRely { catalog := catalog, now := now } events)
    (he : run { catalog := catalog, now := now } events = e)
    {token : Nat} {nodeId : String} {deviceIndex len offset : Nat}
    (htake : (e.take token nodeId deviceIndex len).1 = some offset) :
    (∀ (t : Nat) l, e.inflight.held[t]? = some l → ∀ q ∈ l,
      Disjoint (⟨nodeId, deviceIndex, offset, len⟩ : FreeRange).bytes q.bytes) ∧
    (∀ till q, (till, q) ∈ e.inflight.quarantine → e.now < till →
      Disjoint (⟨nodeId, deviceIndex, offset, len⟩ : FreeRange).bytes q.bytes) ∧
    ∀ (id : ExtentId) m, e.catalog.1.extents[id]? = some m → ∀ q ∈ m.extent.ranges,
      Disjoint (⟨nodeId, deviceIndex, offset, len⟩ : FreeRange).bytes q.bytes := by
  have h : e.Inv := he ▸ (Inv.opened hok).run hrely
  obtain ⟨v, hview, hsub⟩ := take_view h htake
  have hres : ∀ q ∈ (e.inflight.ready e.catalog.1.free e.now).reserved,
      Disjoint (⟨nodeId, deviceIndex, offset, len⟩ : FreeRange).bytes q.bytes :=
    fun q hq => ((hview.unreserved q hq).mono_right hsub).symm
  refine ⟨fun t l hl q hq => ?_, fun till q hq hlive => ?_, fun id m hm q hq => ?_⟩
  · refine hres q (mem_reserved.mpr (.inl ⟨t, l, ?_, hq⟩))
    rw [ready_held]
    exact hl
  · exact hres q (mem_reserved.mpr (.inr ⟨till, ready_quarantine hq hlive⟩))
  · have hused := h.space.used id q (by simpa [Space.of, space, hm] using hq)
    exact (hused.mono_right (hsub.trans hview.free)).symm

theorem ownRun_exclusive : ∃ e : Engine MemTable Unit, reused.run ownRun = e ∧
    (e.take 2 "n" 0 4).1 = some 4 ∧ e.catalog.1.extents["x"]?.isSome = true ∧
    ∀ m, e.catalog.1.extents["x"]? = some m → ∀ q ∈ m.extent.ranges,
      Disjoint (⟨"n", 0, 4, 4⟩ : FreeRange).bytes q.bytes := by
  have hok : reused.catalog.1.space.Ok := reuseLog_placed.ok space_empty_ok
  have hnew : (installAt 0 4).newRanges reused.catalog.1 = [⟨"n", 0, 0, 4⟩] := by decide +kernel
  have hrely : reused.AllRely ownRun := by
    refine ⟨trivial, trivial, ⟨reused_placed (by decide) hnew, fun _ r hr => .inl ?_⟩, trivial,
      trivial⟩
    have hr := mem_singleton.mp ((show _ = _ from hnew) ▸ hr)
    rw [hr]
    decide +kernel
  have htake : ((reused.run ownRun).take 2 "n" 0 4).1 = some 4 := by decide +kernel
  exact ⟨_, rfl, htake, by decide +kernel, (take_exclusive hok hrely rfl htake).2.2 "x"⟩

/-- Another leader's command, applied while the view is in use, takes a range of the view: it is
handed out all the same. -/
theorem stale_view_overlaps : ∃ (e : Engine MemTable Unit) (m : ExtentMeta),
    Catalog.Placed 2 6 (installAt 4 4) reused.catalog ∧
    reused.run [.lease, .take 1 "n" 0 4, .wait 500000000, .apply 2 6 (installAt 4 4)] = e ∧
    (e.take 1 "n" 0 4).1 = some 4 ∧ e.catalog.1.extents["x"]? = some m ∧
    (⟨"n", 0, 4, 4⟩ : FreeRange) ∈ m.extent.ranges := by
  refine ⟨_, ⟨plainExtent "x" 4 4, 1, false⟩,
    reused_placed (by decide) (by decide +kernel), rfl, ?_, ?_, ?_⟩ <;> decide +kernel

end Engine

end AtlasNative
