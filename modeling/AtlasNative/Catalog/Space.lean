import AtlasNative.Catalog.FreeSpace
import AtlasNative.Catalog.Frame

/-!
# Device space

The part of a catalog that says where extents lie and what is free. Only installing an extent takes
space out of the free list, and only reclaiming, tiering or moving one puts space back. As long as
new ranges are disjoint from those in use and either free or unknown to the free list, no byte is
ever both free and in use, or in use twice.
-/

namespace AtlasNative

open Program FreeList Catalog Set MetaCommand Option Std.ExtTreeMap Function

/-- The device range of a replica of `len` bytes, and those of an extent. -/
def ReplicaRef.range (r : ReplicaRef) (len : Nat) : FreeRange :=
  ⟨r.nodeId, r.deviceIndex, r.offset, len⟩

def ExtentRef.ranges (e : ExtentRef) : List FreeRange := e.replicas.map (·.range e.storedLen)

/-- Free space, and the ranges of each extent. -/
structure Space where
  free : FreeList
  ranges : ExtentId → Option (List FreeRange)

variable {free : FreeList}

namespace Space

variable {s : Space} {id : ExtentId} {rs rs' : List FreeRange} {r : FreeRange}

/-- The ranges of `id`, none if there is no such extent. -/
def of (s : Space) (id : ExtentId) : List FreeRange := (s.ranges id).getD []

def put (s : Space) (free : FreeList) (id : ExtentId) (rs : Option (List FreeRange)) : Space :=
  ⟨free, Function.update s.ranges id rs⟩

variable {new : Option (List FreeRange)}

theorem of_put_self : (s.put free id new).of id = new.getD [] := by
  simp [of, put]

theorem of_put_of_ne {id' : ExtentId} (h : id' ≠ id) : (s.put free id new).of id' = s.of id' := by
  simp [of, put, update_of_ne h]

/-- All ranges in use. -/
def all (s : Space) : Set FreeRange := {r | ∃ id, r ∈ s.of id}

theorem mem_all_put_self (hr : r ∈ rs) : r ∈ (s.put free id (some rs)).all := by
  refine ⟨id, ?_⟩
  rw [of_put_self]
  exact hr

theorem mem_all_put (free : FreeList) (new : Option (List FreeRange)) (hr : r ∈ s.all) :
    r ∈ (s.put free id new).all ∨ r ∈ s.of id := by
  obtain ⟨id', hr⟩ := hr
  by_cases hid : id' = id
  · exact .inr (hid ▸ hr)
  · refine .inl ⟨id', ?_⟩
    rw [of_put_of_ne hid]
    exact hr

/-- No byte is free and in use, or in use twice, and every range has an end. -/
structure Ok (s : Space) : Prop where
  free : s.free.Wf
  fits : ∀ id, ∀ r ∈ s.of id, r.Fits
  used : ∀ id, ∀ r ∈ s.of id, Disjoint r.bytes s.free.bytes
  within : ∀ id, (s.of id).Pairwise fun r r' => Disjoint r.bytes r'.bytes
  across : ∀ id id', id ≠ id' → ∀ r ∈ s.of id, ∀ r' ∈ s.of id', Disjoint r.bytes r'.bytes

/-- Ranges that may be taken into use: disjoint, in use nowhere, and each inside one free range or
outside them all. -/
structure Admits (s : Space) (rs : List FreeRange) : Prop where
  apart : rs.Pairwise fun r r' => Disjoint r.bytes r'.bytes
  fits : ∀ r ∈ rs, r.Fits
  unused : ∀ r ∈ rs, ∀ id, ∀ r' ∈ s.of id, Disjoint r.bytes r'.bytes
  placed : ∀ r ∈ rs, (∃ g ∈ s.free.ranges, r.bytes ⊆ g.bytes) ∨ Disjoint r.bytes s.free.bytes

theorem Admits.left (h : s.Admits (rs ++ rs')) : s.Admits rs where
  apart := (List.pairwise_append.mp h.apart).1
  fits r hr := h.fits r (List.mem_append_left _ hr)
  unused r hr := h.unused r (List.mem_append_left _ hr)
  placed r hr := h.placed r (List.mem_append_left _ hr)

theorem Admits.free_or (h : s.Admits rs) (hr : r ∈ rs) : r.bytes ⊆ s.free.bytes ∨ Disjoint r.bytes s.free.bytes :=
  (h.placed r hr).imp_left fun ⟨g, hg, hsub⟩ _ hb => ⟨g, hg, hsub hb⟩

theorem Ok.put (h : s.Ok) (hwf : free.Wf) (hfits : ∀ r ∈ new.getD [], r.Fits)
    (hwithin : (new.getD []).Pairwise fun r r' => Disjoint r.bytes r'.bytes)
    (hunused : ∀ r ∈ new.getD [], ∀ id' ≠ id, ∀ r' ∈ s.of id', Disjoint r.bytes r'.bytes)
    (hnew : ∀ r ∈ new.getD [], Disjoint r.bytes free.bytes)
    (hothers : ∀ id' ≠ id, ∀ r ∈ s.of id', Disjoint r.bytes free.bytes) :
    (s.put free id new).Ok where
  free := hwf
  fits id' r hr := by
    by_cases hid : id' = id
    · subst hid
      exact hfits r (of_put_self ▸ hr)
    · exact h.fits id' r (of_put_of_ne hid ▸ hr)
  used id' r hr := by
    by_cases hid : id' = id
    · subst hid
      exact hnew r (of_put_self ▸ hr)
    · exact hothers id' hid r (of_put_of_ne hid ▸ hr)
  within id' := by
    by_cases hid : id' = id
    · subst hid
      rw [of_put_self]
      exact hwithin
    · rw [of_put_of_ne hid]
      exact h.within id'
  across i j hij r hr r' hr' := by
    by_cases hi : i = id
    · subst hi
      rw [of_put_self] at hr
      rw [of_put_of_ne hij.symm] at hr'
      exact hunused r hr j hij.symm r' hr'
    · rw [of_put_of_ne hi] at hr
      by_cases hj : j = id
      · subst hj
        rw [of_put_self] at hr'
        exact (hunused r' hr' i hi r hr).symm
      · rw [of_put_of_ne hj] at hr'
        exact h.across i j hij r hr r' hr'

/-! ### Installing -/

/-- An extent is placed the first time it is seen. -/
def add (s : Space) (e : ExtentRef) : Space :=
  if (s.ranges e.id).isSome then s
  else s.put (e.ranges.foldl FreeList.without s.free) e.id (some e.ranges)

/-- The extents of a list that `add` places, one after another. -/
def fresh (s : Space) : List ExtentRef → List ExtentRef
  | [] => []
  | e :: es => if (s.ranges e.id).isSome then s.fresh es else e :: (s.add e).fresh es

variable {e : ExtentRef}

theorem add_of_new (hnew : s.ranges e.id = none) :
    s.add e = s.put (e.ranges.foldl without s.free) e.id (some e.ranges) := by
  rw [Space.add, hnew]
  rfl

theorem Ok.add (h : s.Ok) (hnew : s.ranges e.id = none) (hadm : s.Admits e.ranges) :
    (s.add e).Ok ∧ (s.add e).free.bytes = s.free.bytes \ bytesOf e.ranges := by
  obtain ⟨hwf, hbytes⟩ := h.free.withoutAll hadm.fits hadm.apart fun r hr => hadm.free_or hr
  rw [add_of_new hnew]
  refine ⟨h.put hwf hadm.fits hadm.apart (fun r hr id' _ => hadm.unused r hr id') ?_ ?_, hbytes⟩
  · intro r hr
    rw [hbytes]
    exact disjoint_left.mpr fun b hb hb' => hb'.2 ⟨r, hr, hb⟩
  · intro id' _ r hr
    rw [hbytes]
    exact (h.used id' r hr).mono_right sdiff_subset

/-- What may be placed together may be placed one after another. -/
theorem Admits.rest (h : s.Admits (e.ranges ++ rs)) (hok : s.Ok) (hnew : s.ranges e.id = none) :
    (s.add e).Admits rs := by
  obtain ⟨hok', hbytes⟩ := hok.add hnew h.left
  obtain ⟨-, hapart, hcross⟩ := List.pairwise_append.mp h.apart
  refine ⟨hapart, fun r hr => h.fits r (List.mem_append_right _ hr), ?_, ?_⟩
  · intro r hr id' r' hr'
    rw [add_of_new hnew] at hr'
    by_cases hid : id' = e.id
    · subst hid
      rw [of_put_self] at hr'
      exact (hcross r' hr' r hr).symm
    · rw [of_put_of_ne hid] at hr'
      exact h.unused r (List.mem_append_right _ hr) id' r' hr'
  · intro r hr
    rw [hbytes]
    rcases h.free_or (List.mem_append_right _ hr) with hsub | hdisj
    · have hsub' : r.bytes ⊆ (s.add e).free.bytes := by
        rw [hbytes]
        rintro b hb
        refine ⟨hsub hb, ?_⟩
        rintro ⟨x, hx, hbx⟩
        exact disjoint_left.mp (hcross x hx r hr) hbx hb
      by_cases hlen : r.len = 0
      · right
        rw [bytes_empty hlen]
        exact empty_disjoint _
      · exact .inl (hok'.free.subset_one (by omega) hsub')
    · exact .inr (hdisj.mono_right sdiff_subset)

theorem Ok.addAll {es : List ExtentRef} (h : s.Ok) (hadm : s.Admits ((s.fresh es).flatMap ExtentRef.ranges)) :
    (es.foldl Space.add s).Ok ∧ (es.foldl Space.add s).free.bytes =
      s.free.bytes \ bytesOf ((s.fresh es).flatMap ExtentRef.ranges) := by
  induction es generalizing s with
  | nil => exact ⟨h, by simp [fresh]⟩
  | cons e es ih =>
    rw [List.foldl_cons]
    cases hnew : s.ranges e.id with
    | some rs =>
      have hadd : s.add e = s := by rw [Space.add, hnew]; rfl
      have hfresh : s.fresh (e :: es) = s.fresh es := by rw [fresh, hnew]; rfl
      rw [hadd, hfresh]
      rw [hfresh] at hadm
      exact ih h hadm
    | none =>
      have hfresh : s.fresh (e :: es) = e :: (s.add e).fresh es := by rw [fresh, hnew]; rfl
      rw [hfresh, List.flatMap_cons] at hadm
      obtain ⟨hok, hbytes⟩ := h.add hnew hadm.left
      obtain ⟨hok', hbytes'⟩ := ih hok (hadm.rest h hnew)
      refine ⟨hok', ?_⟩
      rw [hbytes', hbytes, hfresh, List.flatMap_cons, bytesOf_append, sdiff_sdiff]

theorem mem_all_addAll {es : List ExtentRef} (hr : r ∈ s.all ∨ r ∈ (s.fresh es).flatMap ExtentRef.ranges) :
    r ∈ (es.foldl Space.add s).all := by
  induction es generalizing s with
  | nil => simpa [fresh] using hr
  | cons e es ih =>
    rw [List.foldl_cons]
    cases hnew : s.ranges e.id with
    | some rs =>
      have hadd : s.add e = s := by rw [Space.add, hnew]; rfl
      have hfresh : s.fresh (e :: es) = s.fresh es := by rw [fresh, hnew]; rfl
      rw [hadd]
      exact ih (hfresh ▸ hr)
    | none =>
      have hfresh : s.fresh (e :: es) = e :: (s.add e).fresh es := by rw [fresh, hnew]; rfl
      rw [hfresh, List.flatMap_cons, List.mem_append] at hr
      refine ih ?_
      rcases hr with hr | hr | hr
      · rw [add_of_new hnew]
        rcases mem_all_put _ _ hr with h | h
        · exact .inl h
        · simp [of, hnew] at h
      · rw [add_of_new hnew]
        exact .inl (mem_all_put_self hr)
      · exact .inr hr

/-! ### Giving space back -/

/-- Ranges in use are released one after another. -/
theorem releaseAll {f : FreeList} (hwf : f.Wf) (hfits : ∀ r ∈ rs, r.Fits)
    (hapart : rs.Pairwise fun r r' => Disjoint r.bytes r'.bytes)
    (hused : ∀ r ∈ rs, Disjoint r.bytes f.bytes) :
    ∃ f', rs.foldlM (fun f r => f.release r.nodeId r.deviceIndex r.offset r.len) f = .ok f' ∧
      f'.Wf ∧ f'.bytes = f.bytes ∪ bytesOf rs := by
  induction rs generalizing f with
  | nil => exact ⟨f, rfl, hwf, by simp⟩
  | cons r rs ih =>
    obtain ⟨hr, hrs⟩ := List.pairwise_cons.mp hapart
    obtain ⟨f1, hrel, hwf1, hbytes1⟩ := hwf.release (hfits r List.mem_cons_self) (hused r List.mem_cons_self)
    have hused1 : ∀ x ∈ rs, Disjoint x.bytes f1.bytes := by
      intro x hx
      rw [hbytes1, disjoint_union_right]
      exact ⟨hused x (List.mem_cons_of_mem _ hx), (hr x hx).symm⟩
    obtain ⟨f2, hrest, hwf2, hbytes2⟩ := ih hwf1 (fun x hx => hfits x (List.mem_cons_of_mem _ hx)) hrs hused1
    refine ⟨f2, ?_, hwf2, ?_⟩
    · rw [List.foldlM_cons, hrel]
      exact hrest
    · rw [hbytes2, hbytes1, bytesOf_cons, union_assoc]

/-- An extent without ranges, or none at all, once its ranges are free. -/
theorem Ok.vacate (h : s.Ok) (hnew : new.getD [] = []) (hwf : free.Wf)
    (hbytes : free.bytes = s.free.bytes ∪ bytesOf (s.of id)) : (s.put free id new).Ok := by
  refine h.put hwf ?_ ?_ ?_ ?_ fun id' hid r hr => ?_
  · simp [hnew]
  · simp [hnew]
  · simp [hnew]
  · simp [hnew]
  · rw [hbytes, disjoint_union_right, disjoint_bytesOf]
    exact ⟨h.used id' r hr, fun r' hr' => h.across id' id hid r hr r' hr'⟩

theorem Ok.move (h : s.Ok) {pre post : List FreeRange} {old : FreeRange}
    (hid : s.ranges id = some (pre ++ old :: post)) (hadm : s.Admits [r]) (hwf : free.Wf)
    (hbytes : free.bytes = s.free.bytes \ r.bytes ∪ old.bytes) :
    (s.put free id (some (pre ++ r :: post))).Ok := by
  have hof : s.of id = pre ++ old :: post := by simp [of, hid]
  have hwithin := h.within id
  rw [hof, List.pairwise_append, List.pairwise_cons] at hwithin
  obtain ⟨hpre, ⟨hold, hpost⟩, hcross⟩ := hwithin
  have hr : ∀ id', ∀ r' ∈ s.of id', Disjoint r.bytes r'.bytes := hadm.unused r (List.mem_singleton_self r)
  have hmem : ∀ x ∈ pre ++ r :: post, x = r ∨ x ∈ s.of id ∧ Disjoint x.bytes old.bytes := by
    intro x hx
    rw [hof]
    rcases List.mem_append.mp hx with hx | hx
    · exact .inr ⟨by simp [hx], hcross x hx old List.mem_cons_self⟩
    · rcases List.mem_cons.mp hx with rfl | hx
      · exact .inl rfl
      · exact .inr ⟨by simp [hx], (hold x hx).symm⟩
  refine h.put hwf (fun x hx => ?_) ?_ (fun x hx id' hne r' hr' => ?_) (fun x hx => ?_) fun id' hne x hx => ?_
  · rcases hmem x hx with rfl | ⟨hx, -⟩
    · exact hadm.fits x (List.mem_singleton_self x)
    · exact h.fits id x hx
  · rw [getD_some, List.pairwise_append, List.pairwise_cons]
    refine ⟨hpre, ⟨fun x hx => hr id x (by simp [hof, hx]), hpost⟩, fun x hx y hy => ?_⟩
    rcases List.mem_cons.mp hy with rfl | hy
    · exact (hr id x (by simp [hof, hx])).symm
    · exact hcross x hx y (List.mem_cons_of_mem _ hy)
  · rcases hmem x hx with rfl | ⟨hx, -⟩
    · exact hr id' r' hr'
    · exact h.across id id' hne.symm x hx r' hr'
  · rw [hbytes, disjoint_union_right]
    rcases hmem x hx with rfl | ⟨hx, hxo⟩
    · exact ⟨disjoint_sdiff_right, hr id old (by simp [hof])⟩
    · exact ⟨(h.used id x hx).mono_right sdiff_subset, hxo⟩
  · rw [hbytes, disjoint_union_right]
    exact ⟨(h.used id' x hx).mono_right sdiff_subset, h.across id' id hne x hx old (by simp [hof])⟩

/-- Some ranges come into use and some are given up. -/
structure Moved (s s' : Space) (new freed : List FreeRange) : Prop where
  ok : s'.Ok
  free : s'.free.bytes = s.free.bytes \ FreeList.bytesOf new ∪ FreeList.bytesOf freed
  kept : ∀ r, r ∈ s.all ∨ r ∈ new → r ∈ s'.all ∨ r ∈ freed

theorem Moved.refl (h : s.Ok) : s.Moved s [] [] := ⟨h, by simp, by simp⟩

theorem mem_all_move {pre post : List FreeRange} {old new : FreeRange}
    (hid : s.ranges id = some (pre ++ old :: post)) (hr : r ∈ s.all ∨ r = new) :
    r ∈ (s.put free id (some (pre ++ new :: post))).all ∨ r = old := by
  rcases hr with hr | rfl
  · rcases mem_all_put free (some (pre ++ new :: post)) hr with h | h
    · exact .inl h
    · have hof : s.of id = pre ++ old :: post := by simp [of, hid]
      rw [hof, List.mem_append, List.mem_cons] at h
      rcases h with h | rfl | h
      · exact .inl (mem_all_put_self (by simp [h]))
      · exact .inr rfl
      · exact .inl (mem_all_put_self (by simp [h]))
  · exact .inl (mem_all_put_self (by simp))

end Space

variable {T D C : Type} [Backend T D C]

def Catalog.space (c : Catalog T) : Space :=
  ⟨c.free, fun id => c.extents[id]?.map fun m => m.extent.ranges⟩

/-! ### What commands do to device space -/

def SameSpace (w w' : World T C) : Prop := w'.cat.space = w.cat.space

theorem Catalog.space_insert {c : Catalog T} (id : ExtentId) (m : ExtentMeta) (free : FreeList) :
    { c with free := free, extents := c.extents.insert id m }.space = c.space.put free id (some m.extent.ranges) := by
  simp only [space, Space.put, Space.mk.injEq, true_and]
  funext id'
  by_cases hid : id' = id
  · subst hid
    simp
  · rw [update_of_ne hid, getElem?_insert]
    simp [Ne.symm hid]

theorem Catalog.space_erase {c : Catalog T} (id : ExtentId) (free : FreeList) :
    { c with free := free, extents := c.extents.erase id }.space = c.space.put free id none := by
  simp only [space, Space.put, Space.mk.injEq, true_and]
  funext id'
  by_cases hid : id' = id
  · subst hid
    simp
  · rw [update_of_ne hid, getElem?_erase]
    simp [Ne.symm hid]

instance : Frame (SameSpace (T := T) (C := C)) where
  refl _ := rfl
  trans h h' := h'.trans h
  tables h := by
    simp only [Prod.mk.injEq] at h
    obtain ⟨hext, hfree, -⟩ := h
    simp only [SameSpace, Catalog.space, hext, hfree]
  refs {w id e} n he := by
    have hspace := Catalog.space_insert (c := w.cat) id { e with refs := n } w.cat.free
    refine hspace.trans ?_
    have hsame : w.cat.space.ranges id = some e.extent.ranges := by simp [Catalog.space, he]
    rw [Space.put, Function.update_eq_self_iff.mpr hsame.symm]
    rfl

variable {w : World T C}

namespace CatM

theorem addExtentRef_space (e : ExtentRef) (w : World T C) :
    ∃ w', addExtentRef e w = .ok () w' ∧ w'.cat.space = w.cat.space.add e := by
  cases he : w.cat.extents[e.id]? with
  | some m =>
    have hrun : addExtentRef e w = (do
        touch .extents e.id
        setExtent e.id { m with refs := m.refs + 1 }) w := by
      rw [addExtentRef, run_get, he]
    refine ⟨_, hrun, ?_⟩
    have hsome : (w.cat.space.ranges e.id).isSome = true := by simp [space, he]
    rw [Space.add, if_pos hsome]
    exact Frame.refs (R := SameSpace) (m.refs + 1) he
  | none =>
    have hrun : addExtentRef e w = (do
        modifyCat fun c => { c with free := e.replicas.foldl (fun (free : FreeList) (r : ReplicaRef) =>
          free.reserve r.nodeId r.deviceIndex r.offset e.storedLen) c.free }
        replace .extents e.id
        setExtent e.id ⟨e, 1, false⟩) w := by
      rw [addExtentRef, run_get, he]
    refine ⟨_, hrun, ?_⟩
    have hnone : w.cat.space.ranges e.id = none := by simp [space, he]
    rw [Space.add_of_new hnone, ExtentRef.ranges, List.foldl_map]
    exact space_insert e.id ⟨e, 1, false⟩ _

theorem forM_addExtentRef_space (es : List ExtentRef) (w : World T C) :
    ∃ w', es.forM addExtentRef w = .ok () w' ∧ w'.cat.space = es.foldl Space.add w.cat.space := by
  induction es generalizing w with
  | nil => exact ⟨w, rfl, rfl⟩
  | cons e es ih =>
    obtain ⟨w1, hrun, hspace⟩ := addExtentRef_space e w
    obtain ⟨w2, hrest, hspace'⟩ := ih w1
    refine ⟨w2, ?_, by rw [hspace', hspace, List.foldl_cons]⟩
    exact (bind_ok (f := fun _ => es.forM addExtentRef) hrun).trans hrest

/-- Commands that do not move extents install theirs, or change nothing. -/
theorem runCommand_installs (term : Nat) {cmd : MetaCommand} (hmoves : cmd.moves = false) :
    Keeps (fun w w' => w'.cat.space = w.cat.space ∨ w'.cat.space = cmd.installs.foldl Space.add w.cat.space)
      (runCommand term cmd : CatM T C Unit) := by
  by_cases hvoters : ∃ m addrs, cmd = .changeMembership m addrs
  · obtain ⟨m, addrs, rfl⟩ := hvoters
    have hkeep : Keeps SameSpace (changeMembership m addrs : CatM T C Unit) := by
      have hset : ∀ w : World T C, SameSpace w { w with cat := { w.cat with
          raftAddrs := w.cat.raftAddrs ∪ addrs, membership := some m } } := fun _ => rfl
      unfold changeMembership
      split
      · exact reject_frame _
      split
      · split
        · exact reject_frame _
        · exact keeps_modify hset
      · exact keeps_modify hset
    exact hkeep.mono fun _ _ => .inl
  · push Not at hvoters
    have hadd : Keeps (fun w w' => w'.cat.space = cmd.installs.foldl Space.add w.cat.space)
        (cmd.installs.forM addExtentRef : CatM T C Unit) := by
      intro w
      obtain ⟨w', hrun, hspace⟩ := forM_addExtentRef_space cmd.installs w
      rw [hrun]
      exact hspace
    refine (runCommand_frame (R := SameSpace) term hmoves hvoters hadd).mono ?_
    rintro w w' (h | ⟨u, v, hu, hv, hw⟩)
    · exact .inl h
    · exact .inr (hw.trans (hv.trans (by rw [hu])))

/-! #### Moving extents -/

theorem release_run {r : ReplicaRef} {len : Nat}
    (h : w.cat.free.release (r.range len).nodeId (r.range len).deviceIndex (r.range len).offset
      (r.range len).len = .ok free) : release r len w = .ok () { w with cat.free := free } := by
  rw [release, run_get, show w.cat.free.release r.nodeId r.deviceIndex r.offset len = _ from h]
  rfl

theorem forM_release_run {len : Nat} {rs : List ReplicaRef} (h : (rs.map (·.range len)).foldlM
      (fun f r => f.release r.nodeId r.deviceIndex r.offset r.len) w.cat.free = .ok free) :
    (rs.forM fun r => release r len : CatM T C Unit) w = .ok () { w with cat.free := free } := by
  induction rs generalizing w with
  | nil =>
    cases h
    rfl
  | cons r rs ih =>
    rw [List.map_cons, List.foldlM_cons] at h
    cases hrel : w.cat.free.release (r.range len).nodeId (r.range len).deviceIndex
        (r.range len).offset (r.range len).len with
    | error msg =>
      rw [hrel] at h
      cases h
    | ok f =>
      rw [hrel] at h
      exact (bind_ok (f := fun _ => rs.forM fun r => release r len) (release_run hrel)).trans (ih h)

theorem release_ranges {id : ExtentId} {m : ExtentMeta} (hok : w.cat.space.Ok) (hm : w.cat.extents[id]? = some m) :
    ∃ free, free.Wf ∧ free.bytes = w.cat.free.bytes ∪ bytesOf m.extent.ranges ∧
      ∀ w' : World T C, w'.cat.free = w.cat.free →
        (m.extent.replicas.forM fun r => release r m.extent.storedLen : CatM T C Unit) w' =
          .ok () { w' with cat.free := free } := by
  have hof : w.cat.space.of id = m.extent.ranges := by simp [Space.of, space, hm]
  obtain ⟨free, hrel, hwf, hbytes⟩ := Space.releaseAll hok.free
    (fun r hr => hok.fits id r (hof ▸ hr)) (hof ▸ hok.within id) fun r hr => hok.used id r (hof ▸ hr)
  refine ⟨free, hwf, hbytes, fun w' hw' => forM_release_run ?_⟩
  rw [hw']
  exact hrel

section

variable (hok : w.cat.space.Ok) (id : ExtentId)
include hok id

theorem markExtentReclaimed_space : (∃ e, markExtentReclaimed id w = .error e w ∧
      ∀ m, w.cat.extents[id]? = some m → m.refs ≠ 0) ∨
    ∃ w' free, markExtentReclaimed id w = .ok () w' ∧ w'.cat.space = w.cat.space.put free id none ∧
      free.Wf ∧ free.bytes = w.cat.free.bytes ∪ bytesOf (w.cat.space.of id) := by
  cases hm : w.cat.extents[id]? with
  | none =>
    refine .inl ⟨.err (.notFound id), ?_, fun m hm' => nomatch hm'⟩
    rw [markExtentReclaimed, run_get, hm]
    rfl
  | some m =>
    by_cases hrefs : m.refs ≠ 0
    · refine .inl ⟨.err (.invalid s!"extent {id} still has {m.refs} refs"), ?_, fun m' hm' => some.inj hm' ▸ hrefs⟩
      rw [markExtentReclaimed, run_get, hm]
      dsimp only
      rw [if_pos hrefs]
      rfl
    · obtain ⟨free, hwf, hbytes, hrun⟩ := release_ranges hok hm
      have hof : w.cat.space.of id = m.extent.ranges := by simp [Space.of, space, hm]
      have hspace := space_erase (c := w.cat) id free
      refine .inr ⟨⟨{ w.cat with free := free, extents := w.cat.extents.erase id },
        Backend.replace T .extents id (Backend.touch T .extents id w.side), w.gc⟩, free, ?_, hspace,
        hwf, by rw [hof, hbytes]⟩
      rw [markExtentReclaimed, run_get, hm]
      dsimp only
      rw [if_neg hrefs]
      exact hrun _ rfl

theorem tierExtent_space (key : String) (replicas : List ReplicaRef) :
    (∃ e w', tierExtent id key replicas w = .error e w' ∧ w'.cat = w.cat ∧ ∀ m, w.cat.extents[id]? = some m →
        m.extent.object.isSome = true ∨ m.extent.replicas ≠ replicas ∨ replicas = []) ∨
    ∃ w' free, tierExtent id key replicas w = .ok () w' ∧ w'.cat.space = w.cat.space.put free id (some []) ∧ free.Wf ∧
      free.bytes = w.cat.free.bytes ∪ bytesOf (w.cat.space.of id) := by
  cases hm : w.cat.extents[id]? with
  | none =>
    refine .inl ⟨.err (.notFound id), w, ?_, rfl, fun m hm' => nomatch hm'⟩
    rw [tierExtent, run_get, hm]
    rfl
  | some m =>
    rw [tierExtent, run_get, hm]
    dsimp only
    by_cases hobj : m.extent.object.isSome = true
    · rw [if_pos hobj]
      exact .inl ⟨_, _, rfl, rfl, fun m' hm' => .inl (some.inj hm' ▸ hobj)⟩
    rw [if_neg hobj]
    by_cases hrep : m.extent.replicas ≠ replicas ∨ replicas = []
    · rw [if_pos hrep]
      exact .inl ⟨_, _, rfl, rfl, fun m' hm' => .inr (some.inj hm' ▸ hrep)⟩
    rw [if_neg hrep]
    obtain ⟨free, hwf, hbytes, hrel⟩ := release_ranges hok hm
    have hof : w.cat.space.of id = m.extent.ranges := by simp [Space.of, space, hm]
    refine .inr ⟨_, free, hrel _ rfl, ?_, hwf, by rw [hof, hbytes]⟩
    exact space_insert id _ free

theorem replaceReplica_space (old new : ReplicaRef) :
    (∃ e w', replaceReplica id old new w = .error e w' ∧ w'.cat = w.cat ∧
      ∀ m, w.cat.extents[id]? = some m → old = new ∨ old ∉ m.extent.replicas ∨
        ∃ pos, m.extent.replicas.findIdx? (· = old) = some pos ∧
          (m.extent.replicas.eraseIdx pos).any (·.nodeId = new.nodeId) = true) ∨
    ∃ m, w.cat.extents[id]? = some m ∧ (w.cat.space.Admits [new.range m.extent.storedLen] →
      ∃ w' free pre post, replaceReplica id old new w = .ok () w' ∧
        w.cat.space.ranges id = some (pre ++ old.range m.extent.storedLen :: post) ∧
        w'.cat.space = w.cat.space.put free id (some (pre ++ new.range m.extent.storedLen :: post)) ∧ free.Wf ∧
        free.bytes = w.cat.free.bytes \ (new.range m.extent.storedLen).bytes ∪
          (old.range m.extent.storedLen).bytes) := by
  by_cases hsame : old = new
  · refine .inl ⟨.err (.invalid "replacement replica is the same range"), w, ?_, rfl, fun m _ => .inl hsame⟩
    rw [replaceReplica, if_pos hsame]
    rfl
  cases hm : w.cat.extents[id]? with
  | none =>
    refine .inl ⟨.err (.notFound id), w, ?_, rfl, fun m hm' => nomatch hm'⟩
    rw [replaceReplica, if_neg hsame, run_get, hm]
    rfl
  | some m =>
    rw [replaceReplica, if_neg hsame, run_get, hm]
    dsimp only
    cases hpos : m.extent.replicas.findIdx? (· = old) with
    | none =>
      refine .inl ⟨_, _, rfl, rfl, fun m' hm' => .inr (.inl fun hold => ?_)⟩
      obtain rfl := some.inj hm'
      simpa using List.findIdx?_eq_none_iff.mp hpos old hold
    | some pos =>
      dsimp only
      by_cases hother : (m.extent.replicas.eraseIdx pos).any (·.nodeId = new.nodeId) = true
      · rw [if_pos hother]
        refine .inl ⟨_, _, rfl, rfl, fun m' hm' => .inr (.inr ⟨pos, ?_, ?_⟩)⟩
        · exact some.inj hm' ▸ hpos
        · exact some.inj hm' ▸ hother
      rw [if_neg hother]
      refine .inr ⟨m, rfl, fun hadm => ?_⟩
      obtain ⟨hlt, hold, -⟩ := List.findIdx?_eq_some_iff_getElem.mp hpos
      have hsplit : m.extent.replicas = m.extent.replicas.take pos ++ old :: m.extent.replicas.drop (pos + 1) := by
        rw [← of_decide_eq_true hold, List.cons_getElem_drop_succ, List.take_append_drop]
      have hset : m.extent.replicas.set pos new = m.extent.replicas.take pos ++
          new :: m.extent.replicas.drop (pos + 1) := by
        rw [List.set_eq_take_append_cons_drop, if_pos hlt]
      generalize m.extent.replicas.take pos = pre at hsplit hset
      generalize m.extent.replicas.drop (pos + 1) = post at hsplit hset
      have hranges : w.cat.space.ranges id = some (pre.map (·.range m.extent.storedLen) ++
          old.range m.extent.storedLen :: post.map (·.range m.extent.storedLen)) := by
        have hid : w.cat.space.ranges id = some (m.extent.replicas.map (·.range m.extent.storedLen)) := by
          simp [space, hm, ExtentRef.ranges]
        exact hid.trans (congrArg some ((congrArg (List.map _) hsplit).trans List.map_append))
      have hmem : old.range m.extent.storedLen ∈ w.cat.space.of id := by
        simp [Space.of, hranges]
      -- the new range leaves the free list, then the old one enters it
      obtain ⟨hwf1, hbytes1⟩ := hok.free.withoutAll hadm.fits hadm.apart fun r hr => hadm.free_or hr
      have hdisj : Disjoint (old.range m.extent.storedLen).bytes
          (w.cat.free.without (new.range m.extent.storedLen)).bytes := by
        have hused := hok.used id _ hmem
        exact hused.mono_right (hbytes1 ▸ sdiff_subset)
      obtain ⟨free, hrel, hwf, hbytes⟩ := Wf.release hwf1 (hok.fits id _ hmem) hdisj
      refine ⟨_, free, _, _, release_run hrel, hranges, ?_, hwf, ?_⟩
      · refine (space_insert id _ free).trans (congrArg (fun l => Space.put _ free id (some l)) ?_)
        exact (congrArg (List.map _) hset).trans List.map_append
      · rw [hbytes, show _ = _ from hbytes1, bytesOf_cons, bytesOf_nil, union_empty]
        rfl

end

end CatM

/-! ### Whole commands -/

/-- The ranges a command takes into use: those of extents not there yet, or a replica's new one. -/
def MetaCommand.newRanges (c : Catalog T) : MetaCommand → List FreeRange
  | .replaceReplica id _ new => (c.extents[id]?.map fun m => new.range m.extent.storedLen).toList
  | cmd => (c.space.fresh cmd.installs).flatMap ExtentRef.ranges

/-- The ranges a command gives back. -/
def MetaCommand.freedRanges (c : Catalog T) : MetaCommand → List FreeRange
  | .markExtentReclaimed id | .tierExtent id _ _ => c.space.of id
  | .replaceReplica id old _ => (c.extents[id]?.map fun m => old.range m.extent.storedLen).toList
  | _ => []

/-- What a command may do to the device space of a catalog. -/
def SpaceStep (cmd : MetaCommand) (c c' : Catalog T) : Prop :=
  c'.space = c.space ∨ (c.space.Admits (cmd.newRanges c) →
    c.space.Moved c'.space (cmd.newRanges c) (cmd.freedRanges c))

theorem CatM.runCommand_space (term : Nat) (cmd : MetaCommand) (hok : w.cat.space.Ok) :
    KeepsAt (fun w w' => SpaceStep cmd w.cat w'.cat) (runCommand term cmd) w := by
  cases hmoves : cmd.moves with
  | false =>
    have hnew : cmd.newRanges w.cat = (w.cat.space.fresh cmd.installs).flatMap ExtentRef.ranges := by
      cases cmd <;> first | rfl | cases hmoves
    have hfreed : cmd.freedRanges w.cat = [] := by
      cases cmd <;> first | rfl | cases hmoves
    refine ((runCommand_installs term hmoves).keepsAt w).mono fun w' h => h.imp_right ?_
    intro hspace hadm
    rw [hnew] at hadm
    obtain ⟨hok', hbytes⟩ := hok.addAll hadm
    rw [← hspace] at hok' hbytes
    refine ⟨hok', ?_, fun r hr => .inl ?_⟩
    · rw [hnew, hfreed, bytesOf_nil, union_empty]
      exact hbytes
    · rw [hspace]
      exact Space.mem_all_addAll (hnew ▸ hr)
  | true =>
    have hvacate : ∀ {id : ExtentId} {w' : World T C} {free : FreeList}
        {new : Option (List FreeRange)}, new.getD [] = [] → cmd.newRanges w.cat = [] →
        cmd.freedRanges w.cat = w.cat.space.of id → w'.cat.space = w.cat.space.put free id new →
        free.Wf → free.bytes = w.cat.free.bytes ∪ bytesOf (w.cat.space.of id) →
        SpaceStep cmd w.cat w'.cat := by
      intro id w' free new hnew hnone hfreed hs hwf hb
      refine .inr fun _ => ?_
      have hfree : w'.cat.space.free = free := congrArg Space.free hs
      refine ⟨hs ▸ hok.vacate hnew hwf hb, ?_, fun r hr => ?_⟩
      · rw [hnone, hfreed, hfree, hb, bytesOf_nil, sdiff_empty]
        rfl
      · rw [hnone] at hr
        rw [hs, hfreed]
        exact Space.mem_all_put _ _ (hr.resolve_right (by simp))
    unfold KeepsAt
    cases cmd with
    | markExtentReclaimed id =>
      rcases markExtentReclaimed_space hok id with ⟨e, hrun, -⟩ | ⟨w', free, hrun, hs, hwf, hb⟩
      · rw [runCommand, hrun]
        exact .inl rfl
      · rw [runCommand, hrun]
        exact hvacate rfl rfl rfl hs hwf hb
    | tierExtent id key rs =>
      rcases tierExtent_space hok id key rs with ⟨e, w', hrun, hcat, -⟩ | ⟨w', free, hrun, hs, hwf, hb⟩
      · rw [runCommand, hrun]
        exact .inl (congrArg space hcat)
      · rw [runCommand, hrun]
        exact hvacate rfl rfl rfl hs hwf hb
    | replaceReplica id old new =>
      rcases replaceReplica_space hok id old new with ⟨e, w', hrun, hcat, -⟩ | ⟨m, hm, hmove⟩
      · rw [runCommand, hrun]
        exact .inl (congrArg space hcat)
      · rw [runCommand]
        have hnew : newRanges w.cat (.replaceReplica id old new) =
            [new.range m.extent.storedLen] := by simp [newRanges, hm]
        have hfreed : freedRanges w.cat (.replaceReplica id old new) =
            [old.range m.extent.storedLen] := by simp [freedRanges, hm]
        by_cases hadm : w.cat.space.Admits [new.range m.extent.storedLen]
        · obtain ⟨w', free, pre, post, hrun, hranges, hs, hwf, hb⟩ := hmove hadm
          rw [hrun]
          refine .inr fun _ => ?_
          have hfree : w'.cat.space.free = free := congrArg Space.free hs
          refine ⟨hs ▸ hok.move hranges hadm hwf hb, ?_, fun r hr => ?_⟩
          · rw [hnew, hfreed, hfree, hb]
            simp only [bytesOf_cons, bytesOf_nil, union_empty]
            rfl
          · rw [hnew, List.mem_singleton] at hr
            rw [hs, hfreed, List.mem_singleton]
            exact Space.mem_all_move hranges hr
        · cases replaceReplica id old new w with
          | ok | error => exact .inr fun h => absurd (hnew ▸ h) hadm
    | _ => cases hmoves

/-- A command and the entry's index. -/
theorem Catalog.applyCommittedWith_space (term index : Nat) (cmd : MetaCommand) {s : With T C} (hok : s.1.space.Ok) :
    SpaceStep cmd s.1 (applyCommittedWith term index cmd s).2.1 := by
  have hrun := CatM.runCommand_space term cmd (w := ⟨s.1, s.2, []⟩) hok
  unfold KeepsAt at hrun
  unfold applyCommittedWith applyWith
  by_cases hidx : index ≤ s.1.appliedIndex
  · rw [if_pos hidx]
    exact .inl rfl
  rw [if_neg hidx]
  cases hres : CatM.runCommand term cmd (⟨s.1, s.2, []⟩ : World T C) with
  | ok u w =>
    rw [hres] at hrun
    exact hrun
  | error f w =>
    rw [hres] at hrun
    cases f with
    | err e =>
      cases e with
      | store why => exact hrun
      | _ =>
        dsimp only
        split <;> exact hrun
    | panic | hang => exact hrun

end AtlasNative
