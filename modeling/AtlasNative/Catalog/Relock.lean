import AtlasNative.Catalog.Leases

/-!
# Setting a range lock

Setting a range cuts back what its owner held there and grows the new lock over its neighbours of
the same kind: the pieces stay apart, and what they cover the owner held before or was just granted.
-/

namespace AtlasNative

open List Option

namespace FileLock

variable {a b l n p q : FileLock}

/-- The range has a first byte and a last one. -/
def Valid (l : FileLock) : Prop := l.start ≤ l.end_ ∧ l.end_ ≤ u64Max

/-- Disjoint, and not next to each other if of one kind. -/
def Apart (a b : FileLock) : Prop :=
  (a.end_ < b.start ∨ b.end_ < a.start) ∧
    (a.kind = b.kind → a.end_ + 1 < b.start ∨ b.end_ + 1 < a.start)

/-- Disjoint, or both only read. -/
def Shared (a b : FileLock) : Prop :=
  a.end_ < b.start ∨ b.end_ < a.start ∨ a.kind = .read ∧ b.kind = .read

def SameHolder (a b : FileLock) : Prop := a.session = b.session ∧ a.owner = b.owner

/-- Two locks that may be held at once. -/
def Compatible (a b : FileLock) : Prop :=
  a.ino = b.ino → (a.SameHolder b → a.Apart b) ∧ (¬ a.SameHolder b → a.Shared b)

theorem Compatible.symm (h : a.Compatible b) : b.Compatible a := by
  intro hino
  obtain ⟨hown, hother⟩ := h hino.symm
  refine ⟨fun hs => ?_, fun hs => ?_⟩
  · obtain ⟨hdisj, hgap⟩ := hown ⟨hs.1.symm, hs.2.symm⟩
    exact ⟨hdisj.symm, fun hk => (hgap hk.symm).symm⟩
  · rcases hother fun hs' => hs ⟨hs'.1.symm, hs'.2.symm⟩ with h | h | ⟨ha, hb⟩
    · exact .inr (.inl h)
    · exact .inl h
    · exact .inr (.inr ⟨hb, ha⟩)

/-- `p` is a piece of `l`. -/
structure Part (p l : FileLock) : Prop where
  ino : p.ino = l.ino
  session : p.session = l.session
  owner : p.owner = l.owner
  kind : p.kind = l.kind
  start : l.start ≤ p.start
  stop : p.end_ ≤ l.end_
  valid : p.start ≤ p.end_

theorem Valid.part (h : l.Valid) : l.Part l := ⟨rfl, rfl, rfl, rfl, le_rfl, le_rfl, h.1⟩

theorem Part.isValid (h : p.Part l) (hl : l.Valid) : p.Valid := ⟨h.valid, h.stop.trans hl.2⟩

theorem Compatible.part (h : a.Compatible b) (hp : p.Part a) (hq : q.Part b) : p.Compatible q := by
  intro hino
  obtain ⟨hown, hother⟩ := h (hp.ino ▸ hq.ino ▸ hino)
  have hps := hp.start
  have hpe := hp.stop
  have hqs := hq.start
  have hqe := hq.stop
  refine ⟨fun hs => ?_, fun hs => ?_⟩
  · obtain ⟨hdisj, hgap⟩ := hown ⟨hp.session ▸ hq.session ▸ hs.1, hp.owner ▸ hq.owner ▸ hs.2⟩
    refine ⟨by omega, fun hk => ?_⟩
    have := hgap (hp.kind ▸ hq.kind ▸ hk)
    omega
  · have hs' : ¬ a.SameHolder b := fun hs' => hs ⟨hp.session ▸ hq.session ▸ hs'.1, hp.owner ▸ hq.owner ▸ hs'.2⟩
    rcases hother hs' with h | h | ⟨hka, hkb⟩
    · exact .inl (by omega)
    · exact .inr (.inl (by omega))
    · exact .inr (.inr ⟨hp.kind ▸ hka, hq.kind ▸ hkb⟩)

end FileLock

/-! ### Setting a range -/

namespace Relock

open FileLock

variable {ino owner start end_ pid : Nat} {session : String} {kind : Option LockKind}
  {l p : FileLock} {n : Option FileLock} {held : List FileLock}

/-- Overlapping or next to each other. -/
def Touches (start end_ : Nat) (l : FileLock) : Prop := l.start ≤ end_ + 1 ∧ start ≤ l.end_ + 1

/-- A lock of the owner that the new one takes in. -/
def Absorbed (start end_ : Nat) (kind : Option LockKind) (l : FileLock) : Prop :=
  Touches start end_ l ∧ kind = some l.kind

instance : Decidable (Absorbed start end_ kind l) := inferInstanceAs (Decidable ((_ ∧ _) ∧ _))

/-- What is left of a lock of the owner. -/
def kept (start end_ : Nat) (kind : Option LockKind) (l : FileLock) : List FileLock :=
  if Absorbed start end_ kind l then [] else
  if !l.overlaps start end_ then [l] else
  (if l.start < start then [{ l with end_ := start - 1 }] else []) ++
    (if end_ < l.end_ then [{ l with start := end_ + 1 }] else [])

/-- The new lock after `l`. -/
def grow (start end_ : Nat) (n : Option FileLock) (l : FileLock) : Option FileLock :=
  n.map fun n => if Absorbed start end_ (some n.kind) l then
    { n with start := min n.start l.start, end_ := max n.end_ l.end_ } else n

theorem relockOne_eq (hl : l.Valid) (hrange : start ≤ end_) (hend : end_ ≤ u64Max) (n : Option FileLock) :
    relockOne start end_ l n = (kept start end_ (n.map FileLock.kind) l, grow start end_ n l) := by
  have htouch : (l.overlaps start end_ || (l.end_ + 1 = start && l.end_ < u64Max) ||
      (end_ + 1 = l.start && end_ < u64Max)) = true ↔ Touches start end_ l := by
    obtain ⟨hle, hmax⟩ := hl
    simp only [overlaps, Touches, Bool.or_eq_true, Bool.and_eq_true, decide_eq_true_eq]
    omega
  have hover : l.overlaps start end_ = true → Touches start end_ l := by
    simp only [overlaps, Touches, Bool.and_eq_true, decide_eq_true_eq]
    omega
  unfold relockOne
  by_cases ht : Touches start end_ l
  · rw [htouch.mpr ht]
    cases n with
    | none => cases ho : l.overlaps start end_ <;> simp [kept, grow, Absorbed, ho]
    | some m =>
      by_cases hk : m.kind = l.kind
      · simp [kept, grow, Absorbed, Option.filter, ht, hk]
      · cases ho : l.overlaps start end_ <;> simp [kept, grow, Absorbed, Option.filter, hk, ho]
  · have hno : l.overlaps start end_ = false := by
      rw [← Bool.not_eq_true]
      exact fun h => ht (hover h)
    rw [Bool.eq_false_iff.mpr fun h => ht (htouch.mp h)]
    cases n with
    | none => simp [kept, grow, Absorbed, hno]
    | some m => simp [kept, grow, Absorbed, ht, hno]

/-- The locks of others pass, those of the owner are cut back. -/
def keptOf (ino : Nat) (session : String) (owner start end_ : Nat) (kind : Option LockKind)
    (l : FileLock) : List FileLock :=
  if l.ino ≠ ino ∨ !l.sameOwner session owner then [l] else kept start end_ kind l

def growOf (ino : Nat) (session : String) (owner start end_ : Nat) (n : Option FileLock)
    (l : FileLock) : Option FileLock :=
  if l.ino ≠ ino ∨ !l.sameOwner session owner then n else grow start end_ n l

theorem grow_kind : (grow start end_ n l).map FileLock.kind = n.map FileLock.kind := by
  cases n with
  | none => rfl
  | some m =>
    simp only [grow, map_some]
    split <;> rfl

theorem foldl_relock (kind : Option LockKind) (hrange : start ≤ end_) (hend : end_ ≤ u64Max)
    (ls out : List FileLock) (n : Option FileLock) (hvalid : ∀ l ∈ ls, l.Valid) (hn : n.map FileLock.kind = kind) :
    ls.foldl (fun (acc : List FileLock × Option FileLock) l =>
        if l.ino ≠ ino ∨ !l.sameOwner session owner then (acc.1 ++ [l], acc.2)
        else
          let (kept, n) := relockOne start end_ l acc.2
          (acc.1 ++ kept, n)) (out, n) =
      (out ++ ls.flatMap (keptOf ino session owner start end_ kind),
        ls.foldl (growOf ino session owner start end_) n) := by
  induction ls generalizing out n with
  | nil => simp
  | cons l ls ih =>
    have hl := hvalid l mem_cons_self
    have hls : ∀ x ∈ ls, x.Valid := fun x hx => hvalid x (mem_cons_of_mem _ hx)
    rw [foldl_cons, foldl_cons, flatMap_cons, ← append_assoc]
    by_cases hother : l.ino ≠ ino ∨ !l.sameOwner session owner
    · rw [if_pos hother, ih _ _ hls hn, keptOf, if_pos hother, growOf, if_pos hother]
    · rw [if_neg hother, relockOne_eq hl hrange hend, keptOf, if_neg hother, growOf, if_neg hother, hn]
      exact ih _ _ hls (grow_kind.trans hn)

theorem relock_eq (hheld : ∀ l ∈ held, l.Valid) (hrange : start ≤ end_) (hend : end_ ≤ u64Max) :
    relock held ino session owner kind start end_ pid = (held.flatMap (keptOf ino session owner start end_ kind) ++
        (held.foldl (growOf ino session owner start end_)
          (kind.map fun kind => ⟨ino, session, owner, kind, start, end_, pid⟩)).toList).insertionSort
        (fun a b => FileLock.keyLe a b) := by
  unfold relock
  dsimp only
  rw [foldl_relock kind hrange hend held [] _ hheld (by cases kind <;> rfl)]
  rfl

/-- A piece that is left lies beside the range, and not next to it if of the new kind. -/
theorem kept_spec (hl : l.Valid) (hp : p ∈ kept start end_ kind l) :
    p.Part l ∧ ¬ Absorbed start end_ kind l ∧ (p.end_ < start ∨ end_ < p.start) ∧
      (kind = some p.kind → p.end_ + 1 < start ∨ end_ + 1 < p.start) := by
  unfold kept at hp
  split at hp
  · cases hp
  rename_i habs
  have hfar : kind = some l.kind → l.end_ + 1 < start ∨ end_ + 1 < l.start := by
    intro hk
    have hnot : ¬ Touches start end_ l := fun ht => habs ⟨ht, hk⟩
    unfold Touches at hnot
    omega
  split at hp
  · rename_i hover
    rw [mem_singleton] at hp
    subst hp
    simp only [overlaps, Bool.not_eq_true', Bool.and_eq_false_iff, decide_eq_false_iff_not] at hover
    exact ⟨hl.part, habs, by omega, hfar⟩
  · rename_i hover
    simp only [overlaps, Bool.not_eq_true', Bool.not_eq_false, Bool.and_eq_true, decide_eq_true_eq] at hover
    have hdiff : kind ≠ some l.kind := fun hk => by have := hfar hk; omega
    rw [mem_append, mem_ite_nil_right, mem_ite_nil_right, mem_singleton, mem_singleton] at hp
    rcases hp with ⟨hlt, rfl⟩ | ⟨hlt, rfl⟩
    · refine ⟨⟨rfl, rfl, rfl, rfl, le_rfl, ?_, ?_⟩, habs, .inl ?_, fun hk => absurd hk hdiff⟩ <;>
        dsimp only <;> omega
    · refine ⟨⟨rfl, rfl, rfl, rfl, ?_, le_rfl, ?_⟩, habs, .inr ?_, fun hk => absurd hk hdiff⟩ <;>
        dsimp only <;> omega

theorem kept_pairwise (hrange : start ≤ end_) : (kept start end_ kind l).Pairwise Compatible := by
  unfold kept
  split
  · exact .nil
  split
  · exact pairwise_singleton _ _
  rw [pairwise_append]
  refine ⟨?_, ?_, fun a ha b hb => ?_⟩
  · split <;> simp
  · split <;> simp
  · rw [mem_ite_nil_right, mem_singleton] at ha hb
    obtain ⟨ha, rfl⟩ := ha
    obtain ⟨hb, rfl⟩ := hb
    refine fun _ => ⟨fun _ => ⟨.inl ?_, fun _ => .inl ?_⟩, fun hs => absurd ⟨rfl, rfl⟩ hs⟩ <;>
      dsimp only <;> omega

/-- The owner's locks on the inode. -/
def Mine (ino : Nat) (session : String) (owner : Nat) (l : FileLock) : Prop :=
  l.ino = ino ∧ l.session = session ∧ l.owner = owner

theorem not_mine : (l.ino ≠ ino ∨ (!l.sameOwner session owner) = true) ↔ ¬ Mine ino session owner l := by
  simp only [Mine, sameOwner, Bool.not_eq_true', Bool.and_eq_false_iff, decide_eq_false_iff_not]
  tauto

/-- `m` is `n` grown over locks of `held` that it absorbs. -/
structure Grown (ino : Nat) (session : String) (owner start end_ : Nat) (held : List FileLock)
    (n m : FileLock) : Prop where
  same : m.ino = n.ino ∧ m.session = n.session ∧ m.owner = n.owner ∧ m.kind = n.kind
  first : m.start = n.start ∨ ∃ a ∈ held, Mine ino session owner a ∧
    Absorbed start end_ (some n.kind) a ∧ m.start = a.start
  last : m.end_ = n.end_ ∨ ∃ a ∈ held, Mine ino session owner a ∧
    Absorbed start end_ (some n.kind) a ∧ m.end_ = a.end_
  start_le : m.start ≤ n.start
  le_end : n.end_ ≤ m.end_
  covers : ∀ a ∈ held, Mine ino session owner a → Absorbed start end_ (some n.kind) a →
    m.start ≤ a.start ∧ a.end_ ≤ m.end_

theorem growOf_fold (held : List FileLock) (n : FileLock) :
    ∃ m, held.foldl (growOf ino session owner start end_) (some n) = some m ∧
      Grown ino session owner start end_ held n m := by
  induction held generalizing n with
  | nil => exact ⟨n, rfl, ⟨rfl, rfl, rfl, rfl⟩, .inl rfl, .inl rfl, le_rfl, le_rfl, nofun⟩
  | cons l held ih =>
    rw [foldl_cons]
    -- either `l` is passed over, or the rest starts from a lock grown by it
    by_cases habs : Mine ino session owner l ∧ Absorbed start end_ (some n.kind) l
    · have hstep : growOf ino session owner start end_ (some n) l =
          some { n with start := min n.start l.start, end_ := max n.end_ l.end_ } := by
        rw [growOf, if_neg (fun h => not_mine.mp h habs.1), grow, map_some, if_pos habs.2]
      obtain ⟨m, hm, h⟩ := ih { n with start := min n.start l.start, end_ := max n.end_ l.end_ }
      have hstart := h.start_le
      have hend := h.le_end
      dsimp only at hstart hend
      refine ⟨m, by rw [hstep, hm], h.same, ?_, ?_, by omega, by omega, fun a ha hmine ha' => ?_⟩
      · rcases h.first with heq | ⟨a, ha, hrest⟩
        · dsimp only at heq
          rcases le_total n.start l.start with hle | hle
          · exact .inl (by omega)
          · exact .inr ⟨l, mem_cons_self, habs.1, habs.2, by omega⟩
        · exact .inr ⟨a, mem_cons_of_mem _ ha, hrest⟩
      · rcases h.last with heq | ⟨a, ha, hrest⟩
        · dsimp only at heq
          rcases le_total l.end_ n.end_ with hle | hle
          · exact .inl (by omega)
          · exact .inr ⟨l, mem_cons_self, habs.1, habs.2, by omega⟩
        · exact .inr ⟨a, mem_cons_of_mem _ ha, hrest⟩
      · rcases mem_cons.mp ha with rfl | ha
        · omega
        · exact h.covers a ha hmine ha'
    · have hstep : growOf ino session owner start end_ (some n) l = some n := by
        unfold growOf
        split
        · rfl
        · rename_i hmine
          rw [not_mine, not_not] at hmine
          rw [grow, map_some, if_neg fun h => habs ⟨hmine, h⟩]
      obtain ⟨m, hm, h⟩ := ih n
      refine ⟨m, by rw [hstep, hm], h.same, ?_, ?_, h.start_le, h.le_end, fun a ha hmine ha' => ?_⟩
      · exact h.first.imp_right fun ⟨a, ha, hrest⟩ => ⟨a, mem_cons_of_mem _ ha, hrest⟩
      · exact h.last.imp_right fun ⟨a, ha, hrest⟩ => ⟨a, mem_cons_of_mem _ ha, hrest⟩
      · rcases mem_cons.mp ha with rfl | ha
        · exact absurd ⟨hmine, ha'⟩ habs
        · exact h.covers a ha hmine ha'

/-- Who the grown lock may meet: anyone apart from what it absorbed and aside from its range. -/
theorem Grown.compatible {n m : FileLock} (h : Grown ino session owner start end_ held n m)
    (hn : n = ⟨ino, session, owner, n.kind, start, end_, pid⟩) (hp : p.start ≤ p.end_)
    (habs : ∀ a ∈ held, Mine ino session owner a → Absorbed start end_ (some n.kind) a → a.Compatible p)
    (hrange : n.Compatible p) : m.Compatible p := by
  obtain ⟨hino, hsession, howner, hkind⟩ := h.same
  have hstart : n.start = start := by rw [hn]
  have hend : n.end_ = end_ := by rw [hn]
  have hholder : ∀ a : FileLock, Mine ino session owner a → Absorbed start end_ (some n.kind) a →
      a.ino = n.ino ∧ a.session = n.session ∧ a.owner = n.owner ∧ a.kind = n.kind ∧
        a.start ≤ end_ + 1 ∧ start ≤ a.end_ + 1 := by
    rintro a ⟨h1, h2, h3⟩ ⟨⟨h4, h5⟩, h6⟩
    rw [hn]
    exact ⟨h1, h2, h3, (some.inj h6).symm, h4, h5⟩
  -- the ends of `m` are those of the range or of locks that touch it, all on one side of `p`
  have hhull : ∀ g, (n.end_ + g < p.start ∨ p.end_ + g < n.start) →
      (∀ a ∈ held, Mine ino session owner a → Absorbed start end_ (some n.kind) a →
        a.end_ + g < p.start ∨ p.end_ + g < a.start) →
      m.end_ + g < p.start ∨ p.end_ + g < m.start := by
    intro g hn' ha'
    rcases hn' with hleft | hright
    · rcases h.last with heq | ⟨a, ha, hmine, habs', heq⟩
      · exact .inl (by omega)
      · have hside := ha' a ha hmine habs'
        obtain ⟨-, -, -, -, hlo, hhi⟩ := hholder a hmine habs'
        exact .inl (by omega)
    · rcases h.first with heq | ⟨a, ha, hmine, habs', heq⟩
      · exact .inr (by omega)
      · have hside := ha' a ha hmine habs'
        obtain ⟨-, -, -, -, hlo, hhi⟩ := hholder a hmine habs'
        exact .inr (by omega)
  intro hpino
  obtain ⟨hown, hother⟩ := hrange (hino ▸ hpino)
  have hown' : ∀ a ∈ held, Mine ino session owner a → Absorbed start end_ (some n.kind) a →
      (a.SameHolder p ↔ n.SameHolder p) ∧ (a.SameHolder p → a.Apart p) ∧
        (¬ a.SameHolder p → a.Shared p) ∧ a.kind = n.kind := by
    intro a ha hmine habs'
    obtain ⟨h1, h2, h3, h4, -⟩ := hholder a hmine habs'
    obtain ⟨h5, h6⟩ := habs a ha hmine habs' (h1.trans (hino ▸ hpino))
    exact ⟨by unfold SameHolder; rw [h2, h3], h5, h6, h4⟩
  refine ⟨fun hs => ?_, fun hs => ?_⟩
  · have hs' : n.SameHolder p := by
      unfold SameHolder at hs ⊢
      rwa [← hsession, ← howner]
    obtain ⟨hdisj, hgap⟩ := hown hs'
    refine ⟨hhull 0 hdisj fun a ha hmine habs' => ?_, fun hk => hhull 1 ?_ fun a ha hmine habs' => ?_⟩
    · obtain ⟨hiff, hap, -, -⟩ := hown' a ha hmine habs'
      exact (hap (hiff.mpr hs')).1
    · exact hgap (hkind ▸ hk)
    · obtain ⟨hiff, hap, -, hak⟩ := hown' a ha hmine habs'
      exact (hap (hiff.mpr hs')).2 (hak.trans (hkind ▸ hk))
  · have hs' : ¬ n.SameHolder p := by
      unfold SameHolder at hs ⊢
      rwa [← hsession, ← howner]
    by_cases hread : n.kind = .read ∧ p.kind = .read
    · exact .inr (.inr ⟨hkind ▸ hread.1, hread.2⟩)
    have hdisj : n.end_ + 0 < p.start ∨ p.end_ + 0 < n.start := by
      rcases hother hs' with h' | h' | h'
      · exact .inl h'
      · exact .inr h'
      · exact absurd h' hread
    refine (hhull 0 hdisj fun a ha hmine habs' => ?_).imp_right .inl
    obtain ⟨hiff, -, hsh, hak⟩ := hown' a ha hmine habs'
    rcases hsh (hiff.not.mpr hs') with h' | h' | h'
    · exact .inl h'
    · exact .inr h'
    · exact absurd (hak ▸ h') hread

theorem keptOf_cases (hl : l.Valid) (hp : p ∈ keptOf ino session owner start end_ kind l) :
    p.Part l ∧ (p = l ∧ ¬ Mine ino session owner l ∨
      Mine ino session owner l ∧ ¬ Absorbed start end_ kind l ∧ (p.end_ < start ∨ end_ < p.start) ∧
        (kind = some p.kind → p.end_ + 1 < start ∨ end_ + 1 < p.start)) := by
  unfold keptOf at hp
  split at hp
  · rename_i hother
    rw [mem_singleton] at hp
    subst hp
    exact ⟨hl.part, .inl ⟨rfl, not_mine.mp hother⟩⟩
  · rename_i hmine
    rw [not_mine, not_not] at hmine
    obtain ⟨hpart, hrest⟩ := kept_spec hl hp
    exact ⟨hpart, .inr ⟨hmine, hrest⟩⟩

section

variable (hvalid : ∀ l ∈ held, l.Valid) (hpair : held.Pairwise Compatible)
include hvalid hpair

theorem flatMap_keptOf (hrange : start ≤ end_) :
    (held.flatMap (keptOf ino session owner start end_ kind)).Pairwise Compatible := by
  rw [pairwise_flatMap]
  refine ⟨fun l hl => ?_, hpair.imp_of_mem fun ha hb hab p hp q hq => ?_⟩
  · unfold keptOf
    split
    · exact pairwise_singleton _ _
    · exact kept_pairwise hrange
  · exact hab.part (keptOf_cases (hvalid _ ha) hp).1 (keptOf_cases (hvalid _ hb) hq).1

theorem grown_keptOf {n m : FileLock} (hn : n = ⟨ino, session, owner, n.kind, start, end_, pid⟩)
    (hconf : ∀ l ∈ held, l.ino = ino → l.conflicts session owner n.kind start end_ = false)
    (hm : Grown ino session owner start end_ held n m) (hl : l ∈ held)
    (hp : p ∈ keptOf ino session owner start end_ (some n.kind) l) : m.Compatible p := by
  obtain ⟨hpart, hcases⟩ := keptOf_cases (hvalid l hl) hp
  have hstart : n.start = start := by rw [hn]
  have hend : n.end_ = end_ := by rw [hn]
  refine hm.compatible hn hpart.valid (fun a ha hmine habs => ?_) fun hpino => ?_
  · have hne : a ≠ l := by
      rintro rfl
      rcases hcases with ⟨-, h⟩ | ⟨-, h, -⟩
      · exact h hmine
      · exact h habs
    have hal : a.Compatible l := by
      have hsymm : Std.Symm Compatible := ⟨fun _ _ h => h.symm⟩
      exact hpair.forall ha hl hne
    exact hal.part (hvalid a ha).part hpart
  · rcases hcases with ⟨rfl, hnot⟩ | ⟨hmine, -, hside, hgap⟩
    · refine ⟨fun hs => absurd ?_ hnot, fun hs => ?_⟩
      · rw [hn] at hpino hs
        exact ⟨hpino.symm, hs.1.symm, hs.2.symm⟩
      · have hpi : p.ino = ino := by rw [← hpino, hn]
        have hfree := hconf p hl hpi
        have hdiff : p.sameOwner session owner = false := by
          rw [← Bool.not_eq_true]
          simp only [sameOwner, Bool.and_eq_true, decide_eq_true_eq]
          exact fun h => hnot ⟨hpi, h.1, h.2⟩
        rw [conflicts, hdiff, Bool.not_false, Bool.true_and, overlaps] at hfree
        simp only [Bool.and_eq_false_iff, Bool.or_eq_false_iff, decide_eq_false_iff_not] at hfree
        rcases hfree with (h | h) | ⟨h1, h2⟩
        · exact .inl (by omega)
        · exact .inr (.inl (by omega))
        · refine .inr (.inr ⟨?_, ?_⟩)
          · cases hk : n.kind with
            | read => rfl
            | write => exact absurd hk h2
          · cases hk : p.kind with
            | read => rfl
            | write => exact absurd hk h1
    · refine ⟨fun _ => ⟨by omega, fun hk => ?_⟩, fun hs => absurd ?_ hs⟩
      · have := hgap (congrArg some hk)
        omega
      · rw [hn]
        exact ⟨(hpart.session.trans hmine.2.1).symm, (hpart.owner.trans hmine.2.2).symm⟩

end

/-! #### The order -/

/-- Inode, session, owner and start, in this order. -/
def key (l : FileLock) : ℕ ×ₗ String ×ₗ ℕ ×ₗ ℕ :=
  toLex (l.ino, toLex (l.session, toLex (l.owner, l.start)))

theorem keyLe_iff {a b : FileLock} : a.keyLe b = true ↔ key a ≤ key b := by
  simp only [FileLock.keyLe, key, Bool.or_eq_true, Bool.and_eq_true, decide_eq_true_eq, Prod.Lex.toLex_le_toLex]

instance : Std.Total fun a b : FileLock => a.keyLe b = true :=
  ⟨fun a b => by rw [keyLe_iff, keyLe_iff]; exact le_total _ _⟩

instance : IsTrans FileLock fun a b => a.keyLe b = true :=
  ⟨fun a b c hab hbc => by rw [keyLe_iff] at *; exact hab.trans hbc⟩

/-- Everything the table asks of the locks of one filesystem. -/
structure Orderly (ls : List FileLock) : Prop where
  valid : ∀ l ∈ ls, l.Valid
  compatible : ls.Pairwise Compatible
  sorted : ls.Pairwise fun a b => a.keyLe b = true

theorem Orderly.filter {ls : List FileLock} (h : Orderly ls) (f : FileLock → Bool) : Orderly (ls.filter f) :=
  ⟨fun l hl => h.valid l (mem_of_mem_filter hl), h.compatible.filter f, h.sorted.filter f⟩

theorem orderly_nil : Orderly [] := ⟨nofun, .nil, .nil⟩

theorem Grown.valid {n m : FileLock} (h : Grown ino session owner start end_ held n m)
    (hheld : ∀ l ∈ held, l.Valid) (hn : n.Valid) : m.Valid := by
  have hstart := h.start_le
  have hend := h.le_end
  refine ⟨by have := hn.1; omega, ?_⟩
  rcases h.last with heq | ⟨a, ha, -, -, heq⟩
  · exact heq ▸ hn.2
  · exact heq ▸ (hheld a ha).2

theorem orderly_sort {ls : List FileLock} (hvalid : ∀ l ∈ ls, l.Valid) (hpair : ls.Pairwise Compatible) :
    Orderly (ls.insertionSort fun a b => FileLock.keyLe a b) := by
  have hperm := perm_insertionSort (fun a b : FileLock => a.keyLe b = true) ls
  exact ⟨fun l hl => hvalid l (hperm.mem_iff.mp hl),
    (hperm.pairwise_iff Compatible.symm).mpr hpair, pairwise_insertionSort _ ls⟩

theorem growOf_none (held : List FileLock) : held.foldl (growOf ino session owner start end_) none = none := by
  induction held with
  | nil => rfl
  | cons l held ih =>
    rw [foldl_cons]
    have hstep : growOf ino session owner start end_ none l = none := by
      unfold growOf
      split <;> rfl
    rw [hstep, ih]

theorem growOf_new (held : List FileLock) (ino : Nat) (session : String) (owner : Nat) (k : LockKind)
    (start end_ pid : Nat) : ∃ m, held.foldl (growOf ino session owner start end_)
      (some ⟨ino, session, owner, k, start, end_, pid⟩) = some m ∧
      Grown ino session owner start end_ held ⟨ino, session, owner, k, start, end_, pid⟩ m :=
  growOf_fold held _

theorem Orderly.relock (h : Orderly held) (hrange : start ≤ end_) (hend : end_ ≤ u64Max)
    (hconf : ∀ k, kind = some k → ∀ l ∈ held, l.ino = ino → l.conflicts session owner k start end_ = false) :
    Orderly (relock held ino session owner kind start end_ pid) := by
  rw [relock_eq h.valid hrange hend]
  have hkept : ∀ p ∈ held.flatMap (keptOf ino session owner start end_ kind), p.Valid := by
    intro p hp
    obtain ⟨l, hl, hp⟩ := mem_flatMap.mp hp
    exact (keptOf_cases (h.valid l hl) hp).1.isValid (h.valid l hl)
  have hpair : (held.flatMap (keptOf ino session owner start end_ kind)).Pairwise Compatible :=
    flatMap_keptOf h.valid h.compatible hrange
  cases kind with
  | none =>
    rw [map_none, growOf_none, toList_none, append_nil]
    exact orderly_sort hkept hpair
  | some k =>
    obtain ⟨m, hm, hgrown⟩ := growOf_new held ino session owner k start end_ pid
    rw [map_some, hm, toList_some]
    refine orderly_sort (fun p hp => ?_) (pairwise_append.mpr ⟨hpair, pairwise_singleton _ _, fun p hp q hq => ?_⟩)
    · rcases mem_append.mp hp with hp | hp
      · exact hkept p hp
      · exact mem_singleton.mp hp ▸ hgrown.valid h.valid ⟨hrange, hend⟩
    · obtain ⟨l, hl, hp⟩ := mem_flatMap.mp hp
      rw [mem_singleton.mp hq]
      exact (grown_keptOf h.valid h.compatible rfl (hconf k rfl) hgrown hl hp).symm

theorem keptOf_others {other : String} (hl : l.Valid) (hother : other ≠ session) :
    (keptOf ino session owner start end_ kind l).countP (·.session = other) = [l].countP (·.session = other) := by
  by_cases hmine : Mine ino session owner l
  · have hne : l.session ≠ other := fun h => hother (h.symm.trans hmine.2.1)
    rw [countP_eq_zero.mpr, countP_eq_zero.mpr]
    · simpa using hne
    · intro p hp
      rw [(keptOf_cases hl hp).1.session]
      simpa using hne
  · rw [keptOf, if_pos (not_mine.mpr hmine)]

theorem flatMap_keptOf_others {other : String} (hheld : ∀ l ∈ held, l.Valid) (hother : other ≠ session) :
    (held.flatMap (keptOf ino session owner start end_ kind)).countP (·.session = other) =
      held.countP (·.session = other) := by
  induction held with
  | nil => rfl
  | cons l held ih =>
    rw [flatMap_cons, countP_append, keptOf_others (hheld l mem_cons_self) hother,
      ih fun x hx => hheld x (mem_cons_of_mem _ hx), ← countP_append]
    rfl

section

variable (hheld : ∀ l ∈ held, l.Valid) (hrange : start ≤ end_) (hend : end_ ≤ u64Max)
include hheld hrange hend

/-- Locks of other sessions stay as they are. -/
theorem relock_others {other : String} (hother : other ≠ session) :
    (relock held ino session owner kind start end_ pid).countP (·.session = other) =
      held.countP (·.session = other) := by
  rw [relock_eq hheld hrange hend, (perm_insertionSort _ _).countP_eq, countP_append]
  have hnew : (held.foldl (growOf ino session owner start end_)
      (kind.map fun kind => ⟨ino, session, owner, kind, start, end_, pid⟩)).toList.countP (·.session = other) = 0 := by
    cases kind with
    | none => rw [map_none, growOf_none]; rfl
    | some k =>
      obtain ⟨m, hm, hgrown⟩ := growOf_new held ino session owner k start end_ pid
      rw [map_some, hm]
      simpa [hgrown.same.2.1] using hother.symm
  rw [hnew, add_zero, flatMap_keptOf_others hheld hother]

/-- Nobody gets a lock but the session that sets it. -/
theorem relock_sessions (hp : p ∈ relock held ino session owner kind start end_ pid) :
    p.session = session ∨ ∃ l ∈ held, p.session = l.session := by
  by_cases hs : p.session = session
  · exact .inl hs
  right
  have hpos : 0 < held.countP (·.session = p.session) := by
    have hcount : 0 < (relock held ino session owner kind start end_ pid).countP
        (·.session = p.session) := countP_pos_iff.mpr ⟨p, hp, by simp⟩
    rwa [relock_others hheld hrange hend hs] at hcount
  obtain ⟨l, hl, heq⟩ := countP_pos_iff.mp hpos
  exact ⟨l, hl, (of_decide_eq_true heq).symm⟩

end

end Relock

end AtlasNative
