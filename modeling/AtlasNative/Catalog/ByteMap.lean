import AtlasNative.Catalog.Frame
import AtlasNative.Catalog.LockTable

/-!
# The byte map of a lock table

Byte by byte, an owner holds nothing, a read lock or a write lock. Setting a range is an update of
that map on the range, and two owners are in each other's way at a byte.
-/

namespace AtlasNative

namespace Relock

open FileLock List Option Std.LawfulEqCmp Bool

variable {ino owner start end_ pid b : Nat} {session : String} {kind : Option LockKind}
  {ino' owner' : Nat} {session' : String} {k : LockKind} {l p m : FileLock} {held : List FileLock}

/-- `l` is the owner's lock on byte `b`. -/
def On (ino : Nat) (session : String) (owner b : Nat) (l : FileLock) : Prop :=
  Mine ino session owner l ∧ l.start ≤ b ∧ b ≤ l.end_

instance : Decidable (On ino session owner b l) := inferInstanceAs (Decidable ((_ ∧ _ ∧ _) ∧ _ ∧ _))

/-- The kind in which an owner holds a byte. -/
def kindAt (ls : List FileLock) (ino : Nat) (session : String) (owner b : Nat) : Option LockKind :=
  (ls.find? fun l => On ino session owner b l).map FileLock.kind

/-- An owner has one lock on a byte. -/
theorem Orderly.kindAt_iff (h : Orderly held) : kindAt held ino session owner b = some k ↔
      ∃ l ∈ held, On ino session owner b l ∧ l.kind = k := by
  unfold kindAt
  rw [map_eq_some_iff]
  constructor
  · rintro ⟨l, hl, hk⟩
    exact ⟨l, mem_of_find?_eq_some hl, by simpa using find?_some hl, hk⟩
  · rintro ⟨l, hl, hon, hk⟩
    obtain ⟨l', hl'⟩ := isSome_iff_exists.mp
      (find?_isSome (p := fun l => decide (On ino session owner b l)).mpr ⟨l, hl, by simpa using hon⟩)
    have hon' : On ino session owner b l' := by simpa using find?_some hl'
    suffices hsame : l' = l from ⟨l', hl', hsame ▸ hk⟩
    by_contra hne
    have hsymm : Std.Symm Compatible := ⟨fun _ _ h => h.symm⟩
    have hcompat := h.compatible.forall (mem_of_find?_eq_some hl') hl hne
    obtain ⟨⟨hi, hs, ho⟩, hlo, hhi⟩ := hon
    obtain ⟨⟨hi', hs', ho'⟩, hlo', hhi'⟩ := hon'
    have hapart := ((hcompat (hi'.trans hi.symm)).1 ⟨hs'.trans hs.symm, ho'.trans ho.symm⟩).1
    omega

theorem exists_kept_iff (hl : l.Valid) : (∃ p ∈ kept start end_ kind l, p.start ≤ b ∧ b ≤ p.end_) ↔
      ¬ Absorbed start end_ kind l ∧ l.start ≤ b ∧ b ≤ l.end_ ∧ (b < start ∨ end_ < b) := by
  constructor
  · rintro ⟨p, hp, hlo, hhi⟩
    obtain ⟨hpart, habs, hside, -⟩ := kept_spec hl hp
    have hstart := hpart.start
    have hstop := hpart.stop
    exact ⟨habs, by omega, by omega, by omega⟩
  · rintro ⟨habs, hlo, hhi, hside⟩
    unfold kept
    rw [if_neg habs]
    split
    · exact ⟨l, mem_singleton_self l, hlo, hhi⟩
    rename_i hover
    simp only [overlaps, not_eq_true', not_eq_false, and_eq_true, decide_eq_true_eq] at hover
    rcases hside with hb | hb
    · exact ⟨{ l with end_ := start - 1 }, mem_append_left _ (by simp; omega), hlo, by
        dsimp only
        omega⟩
    · exact ⟨{ l with start := end_ + 1 }, mem_append_right _ (by simp; omega), by
        dsimp only
        omega, hhi⟩

/-- What the new lock covers beyond its range was the owner's in that kind. -/
theorem Grown.on_iff {n : FileLock} (h : Grown ino session owner start end_ held n m)
    (hn : n = ⟨ino, session, owner, n.kind, start, end_, pid⟩) :
    (m.start ≤ b ∧ b ≤ m.end_) ↔ start ≤ b ∧ b ≤ end_ ∨
      ∃ a ∈ held, On ino session owner b a ∧ Absorbed start end_ (some n.kind) a := by
  have hstart : n.start = start := by rw [hn]
  have hend : n.end_ = end_ := by rw [hn]
  have hlow := h.start_le
  have hhigh := h.le_end
  constructor
  · rintro ⟨hlo, hhi⟩
    by_cases hin : start ≤ b ∧ b ≤ end_
    · exact .inl hin
    right
    -- `b` lies on one side, and the absorbed lock that reaches furthest there covers it
    rcases lt_or_ge b start with hb | hb
    · rcases h.first with heq | ⟨a, ha, hmine, habs, heq⟩
      · omega
      · have htouch := habs.1.2
        exact ⟨a, ha, ⟨hmine, by omega, by omega⟩, habs⟩
    · rcases h.last with heq | ⟨a, ha, hmine, habs, heq⟩
      · omega
      · have htouch := habs.1.1
        exact ⟨a, ha, ⟨hmine, by omega, by omega⟩, habs⟩
  · rintro (hin | ⟨a, ha, ⟨hmine, hlo, hhi⟩, habs⟩)
    · omega
    · obtain ⟨hfirst, hlast⟩ := h.covers a ha hmine habs
      omega

section

variable (hvalid : ∀ l ∈ held, l.Valid) (hrange : start ≤ end_) (hend : end_ ≤ u64Max)
include hvalid hrange hend

theorem mem_relock : p ∈ relock held ino session owner kind start end_ pid ↔
      (∃ l ∈ held, p ∈ keptOf ino session owner start end_ kind l) ∨
      held.foldl (growOf ino session owner start end_)
        (kind.map fun kind => ⟨ino, session, owner, kind, start, end_, pid⟩) = some p := by
  rw [relock_eq hvalid hrange hend, (perm_insertionSort _ _).mem_iff, mem_append, mem_flatMap, mem_toList]

omit hvalid hrange hend in
theorem grown_of_fold (h : held.foldl (growOf ino session owner start end_)
      (kind.map fun kind => ⟨ino, session, owner, kind, start, end_, pid⟩) = some p) :
    ∃ k, kind = some k ∧ Grown ino session owner start end_ held ⟨ino, session, owner, k, start, end_, pid⟩ p := by
  cases kind with
  | none =>
    rw [map_none, growOf_none] at h
    cases h
  | some k =>
    obtain ⟨m, hm, hgrown⟩ := growOf_new held ino session owner k start end_ pid
    rw [map_some, hm] at h
    cases h
    exact ⟨k, rfl, hgrown⟩

/-- Everybody else has what they had. -/
theorem on_relock_others (hother : ¬ (ino' = ino ∧ session' = session ∧ owner' = owner)) :
    (∃ p ∈ relock held ino session owner kind start end_ pid, On ino' session' owner' b p ∧ p.kind = k) ↔
      ∃ l ∈ held, On ino' session' owner' b l ∧ l.kind = k := by
  have hnot : ∀ {x : FileLock}, Mine ino' session' owner' x → ¬ Mine ino session owner x :=
    fun hx hx' => hother ⟨hx.1.symm.trans hx'.1, hx.2.1.symm.trans hx'.2.1, hx.2.2.symm.trans hx'.2.2⟩
  constructor
  · rintro ⟨p, hp, hon, hk⟩
    rcases (mem_relock hvalid hrange hend).mp hp with ⟨l, hl, hp⟩ | hm
    · obtain ⟨hpart, ⟨rfl, -⟩ | ⟨hmine, -⟩⟩ := keptOf_cases (hvalid l hl) hp
      · exact ⟨p, hl, hon, hk⟩
      · refine absurd ⟨hpart.ino.trans hmine.1, hpart.session.trans hmine.2.1, ?_⟩ (hnot hon.1)
        exact hpart.owner.trans hmine.2.2
    · obtain ⟨_, -, hgrown⟩ := grown_of_fold hm
      exact absurd ⟨hgrown.same.1, hgrown.same.2.1, hgrown.same.2.2.1⟩ (hnot hon.1)
  · rintro ⟨l, hl, hon, hk⟩
    refine ⟨l, (mem_relock hvalid hrange hend).mpr (.inl ⟨l, hl, ?_⟩), hon, hk⟩
    rw [keptOf, if_pos (not_mine.mpr (hnot hon.1))]
    exact mem_singleton_self l

/-- The owner has the new kind on the range, and beside it what it had. -/
theorem on_relock_mine : (∃ p ∈ relock held ino session owner kind start end_ pid,
        On ino session owner b p ∧ p.kind = k) ↔
      start ≤ b ∧ b ≤ end_ ∧ kind = some k ∨
      (b < start ∨ end_ < b) ∧ ∃ l ∈ held, On ino session owner b l ∧ l.kind = k := by
  constructor
  · rintro ⟨p, hp, hon, rfl⟩
    rcases (mem_relock hvalid hrange hend).mp hp with ⟨l, hl, hp⟩ | hm
    · obtain ⟨hpart, ⟨rfl, hnot⟩ | ⟨hmine, -, hside, -⟩⟩ := keptOf_cases (hvalid l hl) hp
      · exact absurd hon.1 hnot
      · obtain ⟨-, hlo, hhi⟩ := hon
        have hstart := hpart.start
        have hstop := hpart.stop
        exact .inr ⟨by omega, l, hl, ⟨hmine, by omega, by omega⟩, hpart.kind.symm⟩
    · obtain ⟨k, rfl, hgrown⟩ := grown_of_fold hm
      have hk : p.kind = k := hgrown.same.2.2.2
      by_cases hin : start ≤ b ∧ b ≤ end_
      · exact .inl ⟨hin.1, hin.2, by rw [hk]⟩
      · obtain hin' | ⟨a, ha, hon', -, hkind⟩ := (hgrown.on_iff rfl).mp hon.2
        · exact absurd hin' hin
        · exact .inr ⟨by omega, a, ha, hon', (some.inj hkind).symm.trans hk.symm⟩
  · have hnew : kind = some k → (start ≤ b ∧ b ≤ end_ ∨
        ∃ a ∈ held, On ino session owner b a ∧ Absorbed start end_ (some k) a) →
        ∃ p ∈ relock held ino session owner kind start end_ pid, On ino session owner b p ∧ p.kind = k := by
      rintro rfl hcover
      obtain ⟨m, hm, hgrown⟩ := growOf_new held ino session owner k start end_ pid
      obtain ⟨hino, hsession, howner, hkind⟩ := hgrown.same
      exact ⟨m, (mem_relock hvalid hrange hend).mpr (.inr hm),
        ⟨⟨hino, hsession, howner⟩, (hgrown.on_iff rfl).mpr hcover⟩, hkind⟩
    rintro (⟨hlo, hhi, hk⟩ | ⟨hside, l, hl, hon, rfl⟩)
    · exact hnew hk (.inl ⟨hlo, hhi⟩)
    · by_cases habs : Absorbed start end_ kind l
      · exact hnew habs.2 (.inr ⟨l, hl, hon, habs.1, rfl⟩)
      · obtain ⟨p, hp, hcover⟩ := (exists_kept_iff (hvalid l hl)).mpr ⟨habs, hon.2.1, hon.2.2, hside⟩
        obtain ⟨hpart, -⟩ := kept_spec (hvalid l hl) hp
        refine ⟨p, (mem_relock hvalid hrange hend).mpr (.inl ⟨l, hl, ?_⟩), ⟨⟨hpart.ino.trans hon.1.1,
          hpart.session.trans hon.1.2.1, hpart.owner.trans hon.1.2.2⟩, hcover⟩, hpart.kind⟩
        rwa [keptOf, if_neg fun h => not_mine.mp h hon.1]

end

/-- Setting a range updates the map on the range. -/
theorem kindAt_relock (h : Orderly held) (hrange : start ≤ end_) (hend : end_ ≤ u64Max)
    (hnext : Orderly (relock held ino session owner kind start end_ pid)) :
    kindAt (relock held ino session owner kind start end_ pid) ino' session' owner' b =
      if ino' = ino ∧ session' = session ∧ owner' = owner ∧ start ≤ b ∧ b ≤ end_ then kind
      else kindAt held ino' session' owner' b := by
  refine ext fun k => ?_
  rw [hnext.kindAt_iff]
  by_cases hmine : ino' = ino ∧ session' = session ∧ owner' = owner
  · obtain ⟨rfl, rfl, rfl⟩ := hmine
    rw [on_relock_mine h.valid hrange hend]
    by_cases hin : start ≤ b ∧ b ≤ end_
    · rw [if_pos ⟨rfl, rfl, rfl, hin⟩]
      exact ⟨fun hk => hk.elim (fun hk => hk.2.2) fun hk => by omega, fun hk => .inl ⟨hin.1, hin.2, hk⟩⟩
    · rw [if_neg fun hc => hin hc.2.2.2, h.kindAt_iff]
      exact ⟨fun hk => hk.elim (fun hk => absurd ⟨hk.1, hk.2.1⟩ hin) fun hk => hk.2, fun hk => .inr ⟨by omega, hk⟩⟩
  · rw [if_neg fun hc => hmine ⟨hc.1, hc.2.1, hc.2.2.1⟩, on_relock_others h.valid hrange hend hmine, h.kindAt_iff]

end Relock

namespace Leases

open Relock

variable {l l' : Leases} {fs : FsId} {ino owner start end_ pid nowMs : Nat} {session : String}
  {kind : Option LockKind}

/-- The kind in which an owner holds a byte of a file. -/
def heldAt (l : Leases) (fs : FsId) (ino : Nat) (session : String) (owner b : Nat) :
    Option LockKind :=
  kindAt (l.locks[fs]?.getD []) ino session owner b

/-- Another owner holds a byte of the range against `kind`. -/
def Contested (l : Leases) (fs : FsId) (ino : Nat) (session : String) (owner : Nat)
    (kind : Option LockKind) (start end_ : Nat) : Prop :=
  ∃ session' owner' b k k', (session', owner') ≠ (session, owner) ∧ start ≤ b ∧ b ≤ end_ ∧
    kind = some k ∧ l.heldAt fs ino session' owner' b = some k' ∧ (k = .write ∨ k' = .write)

theorem getElem?_setLocks (next : List FileLock) (fs' : FsId) :
    (l.setLocks fs next)[fs']?.getD [] = if fs' = fs then next else l.locks[fs']?.getD [] := by
  unfold setLocks
  split
  · rename_i hempty
    rw [Std.ExtTreeMap.getElem?_erase, List.isEmpty_iff.mp hempty]
    by_cases heq : fs' = fs
    · simp [heq]
    · rw [if_neg heq, if_neg fun h => heq (compare_eq_iff_eq.mp h).symm]
  · rw [Std.ExtTreeMap.getElem?_insert]
    by_cases heq : fs' = fs
    · simp [heq]
    · rw [if_neg heq, if_neg fun h => heq (compare_eq_iff_eq.mp h).symm]

theorem conflicts_iff {x : FileLock} {k : LockKind} (hx : x.Valid) (hrange : start ≤ end_) :
    x.conflicts session owner k start end_ = true ↔ (x.session, x.owner) ≠ (session, owner) ∧
      (∃ b, start ≤ b ∧ b ≤ end_ ∧ x.start ≤ b ∧ b ≤ x.end_) ∧ (k = .write ∨ x.kind = .write) := by
  have hmeet : (∃ b, start ≤ b ∧ b ≤ end_ ∧ x.start ≤ b ∧ b ≤ x.end_) ↔ x.start ≤ end_ ∧ start ≤ x.end_ :=
    ⟨fun ⟨b, h⟩ => by omega, fun h => ⟨max start x.start, by have := hx.1; omega⟩⟩
  simp only [FileLock.conflicts, FileLock.sameOwner, FileLock.overlaps, Bool.and_eq_true,
    Bool.or_eq_true, Bool.not_eq_true', Bool.and_eq_false_iff, decide_eq_true_eq,
    decide_eq_false_iff_not, ne_eq, Prod.mk.injEq, not_and_or, hmeet]
  tauto

/-- A conflict is found where two owners meet at a byte. -/
theorem Inv.conflict_iff (h : l.Inv) (hrange : start ≤ end_) :
    (∃ k x, kind = some k ∧ l.conflict fs ino session owner k start end_ = some x) ↔
      l.Contested fs ino session owner kind start end_ := by
  have hheld := h.orderly_getD fs
  constructor
  · rintro ⟨k, x, hk, hx⟩
    obtain ⟨hmem, hino⟩ := List.mem_filter.mp (List.mem_of_find?_eq_some hx)
    obtain ⟨hother, ⟨b, hlo, hhi, hcover⟩, hwrite⟩ :=
      (conflicts_iff (hheld.valid x hmem) hrange).mp (by simpa using List.find?_some hx)
    refine ⟨x.session, x.owner, b, k, x.kind, hother, hlo, hhi, hk, hheld.kindAt_iff.mpr ?_, hwrite⟩
    exact ⟨x, hmem, ⟨⟨of_decide_eq_true hino, rfl, rfl⟩, hcover⟩, rfl⟩
  · rintro ⟨session', owner', b, k, k', hother, hlo, hhi, hk, hat, hwrite⟩
    obtain ⟨x, hmem, ⟨⟨hino, rfl, rfl⟩, hcover⟩, rfl⟩ := hheld.kindAt_iff.mp hat
    have hconf : x.conflicts session owner k start end_ = true :=
      (conflicts_iff (hheld.valid x hmem) hrange).mpr ⟨hother, ⟨b, hlo, hhi, hcover⟩, hwrite⟩
    have hfound : (l.conflict fs ino session owner k start end_).isSome := by
      unfold conflict
      rw [List.find?_isSome]
      exact ⟨x, List.mem_filter.mpr ⟨hmem, decide_eq_true hino⟩, hconf⟩
    obtain ⟨y, hy⟩ := Option.isSome_iff_exists.mp hfound
    exact ⟨k, y, hk, hy⟩

section

variable {σ : Type} {file : FsId → Nat → EStateM Fault σ Unit} {s t : σ}

/-- A lock of an open session on a file is refused as locked if it is contested. -/
theorem Inv.locked_iff (h : l.Inv) (hrange : start ≤ end_) (hsession : session ∈ l.sessions)
    (hfile : file fs ino s = .ok () t) :
    (∃ msg, l.applyLock fs ino session owner kind start end_ pid nowMs file s = .error (.err (.locked msg)) t) ↔
      l.Contested fs ino session owner kind start end_ := by
  rw [← h.conflict_iff hrange]
  obtain ⟨x, hx⟩ := Option.isSome_iff_exists.mp (Std.ExtTreeMap.mem_iff_isSome_getElem?.mp hsession)
  unfold Leases.applyLock sessionOf
  rw [if_neg (by omega), hx]
  simp only [bind, EStateM.bind, pure, EStateM.pure, hfile]
  cases hconf : kind.bind fun k => l.conflict fs ino session owner k start end_ with
  | some y =>
    obtain ⟨k, hk, hy⟩ := Option.bind_eq_some_iff.mp hconf
    exact ⟨fun _ => ⟨k, y, hk, hy⟩, fun _ => ⟨_, rfl⟩⟩
  | none =>
    refine ⟨fun ⟨msg, hmsg⟩ => ?_, fun ⟨k, y, hk, hy⟩ => ?_⟩
    · dsimp only at hmsg
      split at hmsg <;> cases hmsg
    · rw [hk, Option.bind_some, hy] at hconf
      cases hconf

end

variable {T D C : Type} [Backend T D C]

instance : Program.Steps fun w w' : World T C => w'.cat = w.cat where
  refl _ := rfl
  trans h h' := h'.trans h

theorem checkFile_cat (fs : FsId) (ino : Nat) :
    Program.Keeps (fun w w' => w'.cat = w.cat) (CatM.checkFile fs ino : CatM T C Unit) := by
  have hread : ∀ {α : Type} (x : Catalog T → Rd C α), Program.Keeps (fun w w' => w'.cat = w.cat) (CatM.read x) := by
    intro α x w
    unfold CatM.read
    cases x w.cat w.side <;> rfl
  unfold CatM.checkFile CatM.filesystem reject
  grind

/-- Setting a range is an update of the byte map on the range, a lock is refused as locked where two
owners meet, and what is refused leaves the table as it is. -/
theorem lock_updates_byte_map (h : Reachable l) (hrange : start ≤ end_) (hend : end_ ≤ u64Max) :
    (∀ {σ : Type} (file : FsId → Nat → EStateM Fault σ Unit) (s t : σ) l',
      l.applyLock fs ino session owner kind start end_ pid nowMs file s = .ok l' t →
      ∀ fs' ino' session' owner' b, l'.heldAt fs' ino' session' owner' b =
        if fs' = fs ∧ ino' = ino ∧ session' = session ∧ owner' = owner ∧ start ≤ b ∧ b ≤ end_
        then kind else l.heldAt fs' ino' session' owner' b) ∧
    (∀ {σ : Type} (file : FsId → Nat → EStateM Fault σ Unit) (s t : σ), session ∈ l.sessions →
      file fs ino s = .ok () t →
      ((∃ msg, l.applyLock fs ino session owner kind start end_ pid nowMs file s =
          .error (.err (.locked msg)) t) ↔ l.Contested fs ino session owner kind start end_)) ∧
    ∀ (w w' : World T C) term e, w.cat.leases = l →
      CatM.applyLease (.lock fs ino session owner kind start end_ pid nowMs) term w = .error e w' →
      w'.cat.leases = l := by
  refine ⟨fun file s t l' hrun fs' ino' session' owner' b => ?_,
    fun file s t hsession hfile => h.inv.locked_iff hrange hsession hfile,
    fun w w' term e hw hrun => ?_⟩
  · obtain ⟨-, -, hconf, _, _, rfl, -, rfl⟩ := applyLock_ok hrun
    have hheld := h.inv.orderly_getD fs
    have hnext := (h.inv.applyLock hend hrun).orderly_getD fs
    unfold heldAt
    rw [getElem?_setLocks] at hnext ⊢
    rw [if_pos rfl] at hnext
    by_cases hfs : fs' = fs
    · rw [if_pos hfs, kindAt_relock hheld hrange hend hnext, hfs]
      simp only [true_and]
    · rw [if_neg hfs, if_neg fun hc => hfs hc.1]
  · have hcat : w'.cat = w.cat := by
      change (w.cat.leases.apply _ term CatM.checkFile >>= fun leases =>
        CatM.modifyCat fun c => { c with leases := leases }) w = .error e w' at hrun
      cases hx : w.cat.leases.apply (.lock fs ino session owner kind start end_ pid nowMs) term CatM.checkFile w with
      | ok a w1 =>
        rw [Program.bind_ok hx] at hrun
        cases hrun
      | error e' w1 =>
        rw [Program.bind_error hx] at hrun
        cases hrun
        exact (apply_keeps checkFile_cat _ _ _).of_error hx
    rw [hcat, hw]

/-- A session that locks a file for writing, up to its last byte. -/
def locked : Leases :=
  (Leases.after {} (.openSession "s" 1000 0 false)).after (.lock "f" 5 "s" 1 (some .write) 0 u64Max 0 0)

theorem reachable_locked : Reachable locked := (Reachable.init.after (.openSession "s" 1000 0 false) True.intro).after
    (.lock "f" 5 "s" 1 (some .write) 0 u64Max 0 0) (le_refl u64Max)

/-- It gives up a byte in the middle, and keeps the byte before. -/
theorem lock_updates_byte_map_split : ∃ l', locked.applyLock "f" 5 "s" 1 none 10 10 0 0
      (fun _ _ => pure ()) () = .ok l' () ∧
    l'.heldAt "f" 5 "s" 1 10 = none ∧ l'.heldAt "f" 5 "s" 1 9 = some .write := by
  have hrun : locked.applyLock "f" 5 "s" 1 none 10 10 0 0 (fun _ _ => pure ()) () =
      .ok (locked.after (.lock "f" 5 "s" 1 none 10 10 0 0)) () := rfl
  have hmap := (lock_updates_byte_map (T := MemTable) (C := Unit) reachable_locked (le_refl 10)
    (by decide)).1 _ _ _ _ hrun "f" 5 "s" 1
  refine ⟨_, hrun, (hmap 10).trans (if_pos (by decide)), (hmap 9).trans ?_⟩
  rw [if_neg (by decide)]
  decide +kernel

/-- A session that is not open is told so, whoever holds the bytes. -/
theorem contested_without_session : Reachable locked ∧
    locked.Contested "f" 5 "u" 1 (some .read) 0 9 ∧
    locked.applyLock "f" 5 "u" 1 (some .read) 0 9 0 0 (fun _ _ => pure ()) () =
      .error (.err .noSession) () := by
  refine ⟨reachable_locked, ⟨"s", 1, 0, .read, .write, by decide, by decide, by decide, rfl, ?_, .inr rfl⟩, rfl⟩
  decide +kernel

end Leases

end AtlasNative
