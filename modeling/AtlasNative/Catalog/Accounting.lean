import AtlasNative.Catalog.Space

/-!
# Device-space accounting over whole histories

A history of commands on an empty catalog in which every new range is placed where it may lie. In
every catalog it reaches, free space and extents partition the bytes in use: giving space back is
never a double free, and bytes leave and enter the free list only with the extents that cover them.
-/

namespace AtlasNative

open FreeList Catalog Space

variable {T D C : Type} [Backend T D C]

namespace Catalog

/-- The commands of a log, one after another. -/
def applyAll (s : With T C) (log : List (Nat × Nat × MetaCommand)) : With T C :=
  log.foldl (fun s (term, index, cmd) => (applyCommittedWith term index cmd s).2) s

/-- A command that changes where extents lie puts them where they may lie. -/
def Placed (term index : Nat) (cmd : MetaCommand) (s : With T C) : Prop :=
  (applyCommittedWith term index cmd s).2.1.space ≠ s.1.space →
    s.1.space.Admits (cmd.newRanges s.1)

/-- Every command of a log does. -/
def AllPlaced : With T C → List (Nat × Nat × MetaCommand) → Prop
  | _, [] => True
  | s, (term, index, cmd) :: log =>
    Placed term index cmd s ∧ AllPlaced (applyCommittedWith term index cmd s).2 log

variable {term index : Nat} {cmd : MetaCommand} {s : With T C}

theorem space_empty_ok : (({} : Catalog T).space).Ok := by
  have hof : ∀ id, ({} : Catalog T).space.of id = [] := fun id => by simp [of, space]
  have hranges : ({} : Catalog T).space.free.ranges = [] := rfl
  refine ⟨⟨?_, ?_, ?_⟩, ?_, ?_, ?_, ?_⟩ <;> simp [hof, hranges]

theorem Placed.step (h : Placed term index cmd s) (hok : s.1.space.Ok) :
    (applyCommittedWith term index cmd s).2.1.space.Ok := by
  rcases applyCommittedWith_space term index cmd hok with hsame | hstep
  · rw [hsame]
    exact hok
  · by_cases hsame : (applyCommittedWith term index cmd s).2.1.space = s.1.space
    · rw [hsame]
      exact hok
    · exact (hstep (h hsame)).ok

theorem AllPlaced.ok {log : List (Nat × Nat × MetaCommand)} (h : AllPlaced s log)
    (hok : s.1.space.Ok) : (applyAll s log).1.space.Ok := by
  induction log generalizing s with
  | nil => exact hok
  | cons entry log ih =>
    exact ih h.2 (h.1.step hok)

theorem applyCommittedWith_ok {w : World T C} (hidx : s.1.appliedIndex < index)
    (h : CatM.runCommand term cmd ⟨s.1, s.2, []⟩ = .ok () w) :
    (applyCommittedWith term index cmd s).1 = .ok w.gc := by
  rw [applyCommittedWith, applyWith, if_neg (by omega), h]

/-- Free space and extents account for each other, in this catalog and over its next command. -/
structure Accounted (s : With T C) : Prop where
  /-- No byte is free and in an extent. -/
  used : ∀ (id : ExtentId) (m : ExtentMeta), s.1.extents[id]? = some m →
    ∀ r ∈ m.extent.ranges, Disjoint r.bytes s.1.free.bytes
  /-- No byte is in two replicas, of one extent or of two. -/
  within : ∀ (id : ExtentId) (m : ExtentMeta), s.1.extents[id]? = some m →
    m.extent.ranges.Pairwise fun r r' => Disjoint r.bytes r'.bytes
  across : ∀ (id id' : ExtentId) (m m' : ExtentMeta), id ≠ id' → s.1.extents[id]? = some m →
    s.1.extents[id']? = some m' → ∀ r ∈ m.extent.ranges, ∀ r' ∈ m'.extent.ranges,
    Disjoint r.bytes r'.bytes
  /-- Giving back an extent's ranges is no double free: what passes the other checks succeeds. -/
  reclaim : ∀ (id : ExtentId) (m : ExtentMeta), s.1.extents[id]? = some m → m.refs = 0 →
    ∀ term index, s.1.appliedIndex < index →
    ∃ gc, (applyCommittedWith term index (.markExtentReclaimed id) s).1 = .ok gc
  tier : ∀ (id : ExtentId) (m : ExtentMeta), s.1.extents[id]? = some m →
    m.extent.object = none → m.extent.replicas ≠ [] →
    ∀ key term index, s.1.appliedIndex < index →
    ∃ gc, (applyCommittedWith term index (.tierExtent id key m.extent.replicas) s).1 = .ok gc
  replace : ∀ (id : ExtentId) (m : ExtentMeta), s.1.extents[id]? = some m →
    ∀ old ∈ m.extent.replicas, ∀ new ≠ old,
    (∀ r ∈ m.extent.replicas.erase old, r.nodeId ≠ new.nodeId) →
    s.1.space.Admits [new.range m.extent.storedLen] →
    ∀ term index, s.1.appliedIndex < index →
    ∃ gc, (applyCommittedWith term index (.replaceReplica id old new) s).1 = .ok gc
  /-- Bytes leave the free list into new ranges and enter it out of ranges given up. -/
  leave : ∀ term index cmd, Placed term index cmd s → ∀ b ∈ s.1.free.bytes,
    b ∉ (applyCommittedWith term index cmd s).2.1.free.bytes → ∃ r ∈ cmd.newRanges s.1, b ∈ r.bytes
  enter : ∀ term index cmd, Placed term index cmd s →
    ∀ b ∈ (applyCommittedWith term index cmd s).2.1.free.bytes, b ∉ s.1.free.bytes →
    ∃ r ∈ cmd.freedRanges s.1, b ∈ r.bytes

theorem Placed.free_cases (h : Placed term index cmd s) (hok : s.1.space.Ok) :
    (applyCommittedWith term index cmd s).2.1.free.bytes = s.1.free.bytes ∨
    (applyCommittedWith term index cmd s).2.1.free.bytes =
      s.1.free.bytes \ bytesOf (cmd.newRanges s.1) ∪ bytesOf (cmd.freedRanges s.1) := by
  by_cases hsame : (applyCommittedWith term index cmd s).2.1.space = s.1.space
  · exact .inl (congrArg (fun sp => sp.free.bytes) hsame)
  · rcases applyCommittedWith_space term index cmd hok with hsame' | hstep
    · exact absurd hsame' hsame
    · exact .inr (hstep (h hsame)).free

theorem accounted_of_ok (hok : s.1.space.Ok) : Accounted s where
  used id m hm r hr := hok.used id r (by simpa [of, space, hm] using hr)
  within id m hm := by simpa [of, space, hm] using hok.within id
  across id id' m m' hne hm hm' r hr r' hr' := hok.across id id' hne r (by simpa [of, space, hm] using hr) r'
      (by simpa [of, space, hm'] using hr')
  reclaim id m hm hrefs term index hidx := by
    rcases CatM.markExtentReclaimed_space (w := ⟨s.1, s.2, []⟩) hok id with
      ⟨e, -, hno⟩ | ⟨w', free, hrun, -⟩
    · exact absurd hrefs (hno m hm)
    · exact ⟨_, applyCommittedWith_ok hidx hrun⟩
  tier id m hm hobj hne key term index hidx := by
    rcases CatM.tierExtent_space (w := ⟨s.1, s.2, []⟩) hok id key m.extent.replicas with
      ⟨e, w', -, -, hno⟩ | ⟨w', free, hrun, -⟩
    · rcases hno m hm with h | h | h
      · simp [hobj] at h
      · exact absurd rfl h
      · exact absurd h hne
    · exact ⟨_, applyCommittedWith_ok hidx hrun⟩
  replace id m hm old hold new hne hother hadm term index hidx := by
    rcases CatM.replaceReplica_space (w := ⟨s.1, s.2, []⟩) hok id old new with
      ⟨e, w', -, -, hno⟩ | ⟨m', hm', hmove⟩
    · rcases hno m hm with h | h | ⟨pos, hpos, h⟩
      · exact absurd h.symm hne
      · exact absurd hold h
      · -- the position the source finds is the one `erase` drops
        have herase : m.extent.replicas.erase old = m.extent.replicas.eraseIdx pos := by
          rw [List.erase_eq_eraseP', List.eraseP_eq_eraseIdx]
          have hbeq : (fun x : ReplicaRef => x == old) = fun x => decide (x = old) := rfl
          rw [hbeq, hpos]
        obtain ⟨r, hr, hnode⟩ := List.any_eq_true.mp h
        exact absurd (of_decide_eq_true hnode) (hother r (herase ▸ hr))
    · obtain rfl := Option.mem_unique hm hm'
      obtain ⟨w', free, pre, post, hrun, -⟩ := hmove hadm
      exact ⟨_, applyCommittedWith_ok hidx hrun⟩
  leave term index cmd h b hb hb' := by
    rcases h.free_cases hok with hfree | hfree
    · exact absurd (hfree ▸ hb) hb'
    · by_contra hnew
      exact hb' (hfree ▸ .inl ⟨hb, hnew⟩)
  enter term index cmd h b hb hb' := by
    rcases h.free_cases hok with hfree | hfree
    · exact absurd (hfree ▸ hb) hb'
    · rw [hfree] at hb
      rcases hb with ⟨hb, -⟩ | hb
      · exact absurd hb hb'
      · exact hb

theorem placed_of_none (h : cmd.newRanges s.1 = []) : Placed term index cmd s := by
  intro _
  rw [h]
  exact ⟨.nil, by simp, by simp, by simp⟩

theorem admits_first {r : FreeRange} {c : Catalog T} (hfits : r.Fits) (hext : c.extents = ∅)
    (hplaced : (∃ g ∈ c.free.ranges, r.bytes ⊆ g.bytes) ∨ Disjoint r.bytes c.free.bytes) :
    c.space.Admits [r] := by
  have hof : ∀ id, c.space.of id = [] := fun id => by simp [of, space, hext]
  refine ⟨List.pairwise_singleton _ _, by simpa using hfits, by simp [hof], fun x hx => ?_⟩
  exact List.mem_singleton.mp hx ▸ hplaced

/-- An extent with one replica, on the first device of node `n`. -/
def plainExtent (id : ExtentId) (offset len : Nat) : ExtentRef :=
  ⟨id, 0, len, [], [⟨"n", 0, offset⟩], none, 0, none⟩

/-- A volume with one extent of ten bytes, deleted and reclaimed; then another volume. -/
def reuseLog : List (Nat × Nat × MetaCommand) :=
  [(1, 1, .createVolume "v" "v" 4096), (1, 2, .installExtent "v" 0 (plainExtent "e" 0 10)),
    (1, 3, .deleteVolume "v"), (1, 4, .markExtentReclaimed "e"),
    (1, 5, .createVolume "w" "w" 4096)]

theorem reuseLog_placed : AllPlaced (({}, ()) : With MemTable Unit) reuseLog := by
  refine ⟨placed_of_none (by decide +kernel), fun _ => ?_, placed_of_none (by decide +kernel),
    placed_of_none (by decide +kernel), placed_of_none (by decide +kernel), trivial⟩
  have hnew : MetaCommand.newRanges (applyCommittedWith 1 1 (.createVolume "v" "v" 4096)
      (({}, ()) : With MemTable Unit)).2.1 (.installExtent "v" 0 (plainExtent "e" 0 10)) =
      [⟨"n", 0, 0, 10⟩] := by decide +kernel
  rw [hnew]
  refine admits_first (by simp [FreeRange.Fits]) (by decide +kernel) (.inr ?_)
  rw [show (applyCommittedWith 1 1 (.createVolume "v" "v" 4096)
    (({}, ()) : With MemTable Unit)).2.1.free = {} by decide +kernel]
  simp [bytes]

/-- In every catalog that placed commands reach, free space and extents account for each other. -/
theorem device_space_accounted (side : C) {log : List (Nat × Nat × MetaCommand)}
    (h : AllPlaced (({}, side) : With T C) log) : Accounted (applyAll ({}, side) log : With T C) :=
  accounted_of_ok (h.ok space_empty_ok)

theorem AllPlaced.concat {log : List (Nat × Nat × MetaCommand)} (h : AllPlaced s log)
    (hcmd : Placed term index cmd (applyAll s log)) : AllPlaced s (log ++ [(term, index, cmd)]) := by
  induction log generalizing s with
  | nil => exact ⟨hcmd, trivial⟩
  | cons c log ih => exact ⟨h.1, ih h.2 hcmd⟩

/-- An extent of the other volume takes four of the bytes that were reclaimed. -/
def reusedLog : List (Nat × Nat × MetaCommand) :=
  reuseLog ++ [(1, 6, .installExtent "w" 0 (plainExtent "x" 2 4))]

theorem reclaimed_space_accounted : AllPlaced (({}, ()) : With MemTable Unit) reusedLog ∧
    (applyAll ({}, ()) reusedLog : With MemTable Unit).1.free = ⟨[⟨"n", 0, 0, 2⟩, ⟨"n", 0, 6, 4⟩]⟩ ∧
    "x" ∈ (applyAll ({}, ()) reusedLog : With MemTable Unit).1.extents ∧
    Accounted (applyAll ({}, ()) reusedLog : With MemTable Unit) := by
  have hplaced : AllPlaced (({}, ()) : With MemTable Unit) reusedLog := by
    refine reuseLog_placed.concat fun _ => ?_
    have hnew : MetaCommand.newRanges (applyAll ({}, ()) reuseLog : With MemTable Unit).1
        (.installExtent "w" 0 (plainExtent "x" 2 4)) = [⟨"n", 0, 2, 4⟩] := by decide +kernel
    have hfree : (applyAll ({}, ()) reuseLog : With MemTable Unit).1.free = ⟨[⟨"n", 0, 0, 10⟩]⟩ := by
      decide +kernel
    rw [hnew]
    refine admits_first (by simp [FreeRange.Fits]) (by decide +kernel) (.inl ?_)
    rw [hfree]
    refine ⟨_, List.mem_singleton_self _, fun b ⟨hnode, hdevice, hlo, hhi⟩ => ⟨hnode, hdevice, ?_, ?_⟩⟩
    · exact Nat.zero_le _
    · exact hhi.trans (by decide)
  exact ⟨hplaced, by decide +kernel, by decide +kernel, device_space_accounted () hplaced⟩

/-- A range whose end does not fit in 64 bits is taken for one inside a free range it does not meet,
and what is left of that range is longer than it was: bytes are free that nobody gave back. -/
theorem wrapped_end_frees :
    ∃ (s : With MemTable Unit) (cmd : MetaCommand) (r : FreeRange) (b : Byte),
    AllPlaced (({}, ()) : With MemTable Unit) reuseLog ∧ applyAll ({}, ()) reuseLog = s ∧ cmd.newRanges s.1 = [r] ∧
    s.1.extents = ∅ ∧ Disjoint r.bytes s.1.free.bytes ∧
    b ∉ s.1.free.bytes ∧ cmd.freedRanges s.1 = [] ∧
    b ∈ (applyCommittedWith 1 6 cmd s).2.1.free.bytes := by
  let s : With MemTable Unit := applyAll ({}, ()) reuseLog
  have hfree : s.1.free = ⟨[⟨"n", 0, 0, 10⟩]⟩ := by decide +kernel
  have hnext : (applyCommittedWith 1 6 (.installExtent "w" 0 (plainExtent "x" (2 ^ 64 - 1) 2)) s).2.1.free =
      ⟨[⟨"n", 0, 0, 2 ^ 64 - 1⟩, ⟨"n", 0, 1, 9⟩]⟩ := by decide +kernel
  refine ⟨s, .installExtent "w" 0 (plainExtent "x" (2 ^ 64 - 1) 2), ⟨"n", 0, 2 ^ 64 - 1, 2⟩,
    ⟨"n", 0, 100⟩, reuseLog_placed, rfl, by decide +kernel, by decide +kernel, ?_, ?_, rfl, ?_⟩
  · rw [hfree]
    simp [bytes, FreeRange.bytes, Set.disjoint_left]
    omega
  · rw [hfree]
    simp [bytes, FreeRange.bytes]
  · rw [hnext]
    simp [bytes, FreeRange.bytes]

end Catalog

end AtlasNative
