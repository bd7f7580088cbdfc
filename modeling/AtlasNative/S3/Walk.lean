import AtlasNative.S3.Calls
import AtlasNative.S3.Frame
import AtlasNative.S3.Pages

/-!
# What a walk collects

A walk goes through the keys of a directory in their order. Whatever it leaves out, what it has found is
at every point the beginning of what the keys up to that point stand for: each key for itself if it is
an object's, or for its part up to the delimiter.
-/

namespace AtlasNative.S3

open Program List Files Query Set Option

def Found.text : Found → Text
  | .object key _ => key
  | .commonPrefix p => p

variable {cp : Text} {c : Nat}

namespace Query

variable (q : Query)

theorem cuts : Cuts q.keyPrefix q.cut := by
  unfold cut
  cases q.delimiter with
  | none => exact cuts_none _
  | some d => exact cuts_cut d _

/-- `x` is what the key `k` of `ino` stands for, where `object` are the inodes that are objects. -/
def Yields (object : Nat → Prop) (k : Text) (ino : Nat) (x : Found) : Prop :=
  match q.cut k with
  | some cp => x = .commonPrefix cp
  | none => x = .object k ino ∧ object ino

/-- What keys stand for. -/
def items (object : Nat → Prop) (K : Text → Nat → Prop) : Set Found :=
  {x | ∃ k ino, K k ino ∧ q.Yields object k ino x}

variable {q} {object : Nat → Prop} {K K' : Text → Nat → Prop} {k : Text} {ino : Nat} {x : Found}

theorem items_or : q.items object (fun k c => K k c ∨ K' k c) = q.items object K ∪ q.items object K' := by
  ext x
  constructor
  · rintro ⟨k, c, hk | hk, hx⟩
    · exact .inl ⟨k, c, hk, hx⟩
    · exact .inr ⟨k, c, hk, hx⟩
  · rintro (⟨k, c, hk, hx⟩ | ⟨k, c, hk, hx⟩)
    · exact ⟨k, c, .inl hk, hx⟩
    · exact ⟨k, c, .inr hk, hx⟩

theorem Yields.text_eq (h : q.Yields object k ino x) : x.text = label q.cut k := by
  unfold Yields at h
  unfold label
  split at h
  · rename_i cp hcp
    rw [h, hcp]
    rfl
  · rename_i hnone
    rw [h.1, hnone]
    rfl

theorem Yields.eq_commonPrefix (h : q.Yields object k ino x) (hcut : q.cut k = some cp) : x = .commonPrefix cp := by
  unfold Yields at h
  rwa [hcut] at h

theorem mem_items_object : .object k c ∈ q.items object K ↔ K k c ∧ q.cut k = none ∧ object c := by
  constructor
  · rintro ⟨k', c', hk, hx⟩
    unfold Yields at hx
    split at hx
    · cases hx
    · rename_i hnone
      cases hx.1
      exact ⟨hk, hnone, hx.2⟩
  · rintro ⟨hk, hnone, hobject⟩
    refine ⟨k, c, hk, ?_⟩
    rw [Yields, hnone]
    exact ⟨rfl, hobject⟩

theorem mem_items_commonPrefix : .commonPrefix cp ∈ q.items object K ↔ ∃ k c, K k c ∧ q.cut k = some cp := by
  constructor
  · rintro ⟨k, c, hk, hx⟩
    unfold Yields at hx
    split at hx
    · rename_i cp' hcp'
      cases hx
      exact ⟨k, c, hk, hcp'⟩
    · cases hx.1
  · rintro ⟨k, c, hk, hcp⟩
    refine ⟨k, c, hk, ?_⟩
    rw [Yields, hcp]

end Query

/-- All of `S` comes before all of `T`, but for a common prefix that is in both. -/
def Before (S T : Set Found) : Prop :=
  ∀ s ∈ S, ∀ t ∈ T, s.text < t.text ∨ ∃ cp, s = .commonPrefix cp ∧ t = .commonPrefix cp

theorem Before.union {S S' T : Set Found} (h : Before S T) (h' : Before S' T) : Before (S ∪ S') T := by
  rintro s (hs | hs) t ht
  · exact h s hs t ht
  · exact h' s hs t ht

theorem Before.mono {S T T' : Set Found} (h : Before S T) (hT : T' ⊆ T) : Before S T' :=
  fun s hs t ht => h s hs t (hT ht)

/-- What keys in order stand for is in order. -/
theorem before_items {q : Query} {object : Nat → Prop} {K K' : Text → Nat → Prop}
    (hK : ∀ {k c}, K k c → q.keyPrefix <+: k) (hK' : ∀ {k c}, K' k c → q.keyPrefix <+: k)
    (h : ∀ {k c k' c'}, K k c → K' k' c' → k < k') : Before (q.items object K) (q.items object K') := by
  rintro s ⟨k, c, hk, hs⟩ t ⟨k', c', hk', ht⟩
  obtain hlt | ⟨cp, hcp, hcp'⟩ := q.cuts.label_lt (hK hk) (hK' hk') (h hk hk')
  · rw [hs.text_eq, ht.text_eq]
    exact .inl hlt
  · exact .inr ⟨cp, hs.eq_commonPrefix hcp, ht.eq_commonPrefix hcp'⟩

/-! ### The invariant of a walk -/

/-- `w` has found the first of `S`, as many as a page and one more can hold. -/
structure Collected (q : Query) (S : Set Found) (w : Walk) : Prop where
  sorted : w.found.Pairwise (·.text < ·.text)
  bound : w.found.length ≤ q.max + 1
  sound : ∀ x ∈ w.found, x ∈ S ∧ q.past x.text
  complete : ∀ x ∈ S, q.past x.text → x ∈ w.found ∨ w.full q ∧ ∀ y ∈ w.found, y.text < x.text
  last : ∀ cp, w.lastPrefix = some cp → .commonPrefix cp ∈ S
  /-- The common prefix that may come again is the last one. -/
  kept : ¬ w.full q → ∀ cp, .commonPrefix cp ∈ S → q.past cp → (∀ x ∈ S, ¬ cp < x.text) →
    w.lastPrefix = some cp

theorem collected_empty (q : Query) : Collected q ∅ {} where
  sorted := List.Pairwise.nil
  bound := Nat.zero_le _
  sound := nofun
  complete := nofun
  last := nofun
  kept := nofun

variable {ino : Nat}

namespace Collected

variable {q : Query} {S T : Set Found} {w : Walk}

/-- A walk that is full needs nothing of what comes later. -/
theorem of_full (h : Collected q S w) (hfull : w.full q) (hbefore : Before S T) : Collected q (S ∪ T) w where
  sorted := h.sorted
  bound := h.bound
  sound x hx := ⟨.inl (h.sound x hx).1, (h.sound x hx).2⟩
  complete x hx hpast := by
    obtain hx | hx := hx
    · exact h.complete x hx hpast
    · by_cases hmem : x ∈ w.found
      · exact .inl hmem
      · refine .inr ⟨hfull, fun y hy => ?_⟩
        obtain hlt | ⟨cp, rfl, rfl⟩ := hbefore y (h.sound y hy).1 x hx
        · exact hlt
        · exact absurd hy hmem
  last cp hcp := .inl (h.last cp hcp)
  kept hnot := absurd hfull hnot

theorem skip (h : Collected q S w) (hT : ∀ x ∈ T, ¬ q.past x.text) : Collected q (S ∪ T) w where
  sorted := h.sorted
  bound := h.bound
  sound x hx := ⟨.inl (h.sound x hx).1, (h.sound x hx).2⟩
  complete x hx hpast := by
    obtain hx | hx := hx
    · exact h.complete x hx hpast
    · exact absurd hpast (hT x hx)
  last cp hcp := .inl (h.last cp hcp)
  kept hnot cp hcp hpast hle := by
    obtain hcp | hcp := hcp
    · exact h.kept hnot cp hcp hpast fun x hx => hle x (.inl hx)
    · exact absurd hpast (hT _ hcp)

section

variable (h : Collected q S w) (hnot : ¬ w.full q)
include h hnot

theorem mem_of_not_full {x : Found} (hx : x ∈ S) (hpast : q.past x.text) : x ∈ w.found := by
  obtain hmem | ⟨hfull, -⟩ := h.complete x hx hpast
  · exact hmem
  · exact absurd hfull hnot

theorem push (x : Found) (hpast : q.past x.text) (hlt : ∀ y ∈ S, y.text < x.text) {l : Option Text}
    (hl : ∀ cp, l = some cp → .commonPrefix cp ∈ S ∪ {x})
    (hx : ∀ cp, x = .commonPrefix cp → l = some cp) :
    Collected q (S ∪ {x}) ⟨w.found ++ [x], l⟩ where
  sorted := by
    refine pairwise_append.mpr ⟨h.sorted, pairwise_singleton .., fun y hy z hz => ?_⟩
    rw [mem_singleton.mp hz]
    exact hlt y (h.sound y hy).1
  bound := by
    simp only [Walk.full, decide_eq_true_eq] at hnot
    simp only [length_append, length_singleton]
    omega
  sound y hy := by
    obtain hy | hy := mem_append.mp hy
    · exact ⟨.inl (h.sound y hy).1, (h.sound y hy).2⟩
    · rw [mem_singleton.mp hy]
      exact ⟨.inr rfl, hpast⟩
  complete y hy hpast' := by
    left
    obtain hy | rfl := hy
    · exact mem_append_left _ (h.mem_of_not_full hnot hy hpast')
    · exact mem_append_right _ (mem_singleton.mpr rfl)
  last := hl
  kept _ cp hcp _ hle := by
    obtain hcp | rfl := hcp
    · exact absurd (hlt _ hcp) (hle x (.inr rfl))
    · exact hx cp rfl

theorem push_object {key : Text} (hpast : q.past key) (hlt : ∀ y ∈ S, y.text < key) :
    Collected q (S ∪ {.object key ino}) (w.push (.object key ino)) :=
  h.push hnot (.object key ino) hpast hlt (fun cp hcp => .inl (h.last cp hcp)) nofun

theorem share (hle : Before S {.commonPrefix cp}) : Collected q (S ∪ {.commonPrefix cp}) (w.share q cp) := by
  unfold Walk.share
  have hlast : ∀ x ∈ S, ¬ cp < x.text := fun x hx hlt => by
    obtain hlt' | ⟨cp', rfl, hcp⟩ := hle x hx _ rfl
    · exact lt_asymm hlt hlt'
    · cases hcp
      exact lt_irrefl _ hlt
  split
  · rename_i hsame
    rwa [union_eq_self_of_subset_right (singleton_subset_iff.mpr (h.last cp hsame))]
  · rename_i hdiff
    split
    · rename_i hpast
      have hnew : .commonPrefix cp ∉ S := fun hcp => hdiff (h.kept hnot cp hcp hpast hlast)
      refine h.push hnot (.commonPrefix cp) hpast (fun y hy => ?_) (fun cp' hcp' => ?_) (fun cp' hcp' => ?_)
      · obtain hlt | ⟨cp', rfl, hcp⟩ := hle y hy _ rfl
        · exact hlt
        · cases hcp
          exact absurd hy hnew
      · cases hcp'
        exact .inr rfl
      · cases hcp'
        rfl
    · rename_i hpast
      have hskip : Collected q (S ∪ {.commonPrefix cp}) w := h.skip fun x hx => by
        rw [mem_singleton_iff.mp hx]
        exact hpast
      refine { hskip with last := fun cp' hcp' => ?_, kept := fun hnot' cp' hcp' hpast' hle' => ?_ }
      · cases hcp'
        exact .inr rfl
      · -- only `cp` itself has nothing after it, and it is not past the resume point
        obtain hcp' | hcp' := hcp'
        · obtain hlt | ⟨_, heq, heq'⟩ := hle _ hcp' _ rfl
          · exact absurd hlt (hle' _ (.inr rfl))
          · cases heq
            cases heq'
            exact absurd hpast' hpast
        · cases hcp'
          exact absurd hpast' hpast

theorem own {object : Nat → Prop} {key : Text} (hcut : q.cut key = none) {marked : Bool}
    (hmarked : q.past key → (marked ↔ object ino)) (hpast : marked → q.past key)
    (hbefore : Before S (q.items object fun k c => k = key ∧ c = ino)) :
    Collected q (S ∪ q.items object fun k c => k = key ∧ c = ino) (if marked then w.push (.object key ino) else w) := by
  have hyields : ∀ {x}, q.Yields object key ino x ↔ x = .object key ino ∧ object ino := by
    intro x
    rw [Yields, hcut]
  split
  · rename_i htrue
    have hobject := (hmarked (hpast htrue)).mp htrue
    have hitems : (q.items object fun k c => k = key ∧ c = ino) = {.object key ino} := by
      ext x
      constructor
      · rintro ⟨k, c, ⟨rfl, rfl⟩, hx⟩
        exact (hyields.mp hx).1
      · rintro rfl
        exact ⟨key, ino, ⟨rfl, rfl⟩, hyields.mpr ⟨rfl, hobject⟩⟩
    rw [hitems] at hbefore ⊢
    refine h.push_object hnot (hpast htrue) fun y hy => ?_
    obtain hlt | ⟨cp, -, hcp⟩ := hbefore y hy _ rfl
    · exact hlt
    · cases hcp
  · rename_i hfalse
    refine h.skip ?_
    rintro x ⟨k, c, ⟨rfl, rfl⟩, hx⟩ hpast'
    obtain ⟨rfl, hobject⟩ := hyields.mp hx
    exact hfalse ((hmarked hpast').mpr hobject)

end

end Collected

/-! ### Keys of a tree -/

/-- A name that a filesystem takes. -/
structure FileName (name : Text) : Prop where
  nonempty : name ≠ []
  noSlash : '/' ∉ name
  noDots : name ≠ ['.'] ∧ name ≠ ['.', '.']
  short : utf8Bytes name ≤ maxNameBytes

variable {e : Entry} {path k : Text}

namespace Files

variable {D W : Type} {f : Files D W} {dir c : Nat} {d : Node D W} {name key : Text}

/-- Directories form a tree, in which every name leads to an inode. Files may have several names. -/
structure Tree (f : Files D W) : Prop where
  root : ∃ n, f.Has rootIno n ∧ n.kind = .dir
  live : ∀ {dir d name c}, f.Names dir d name c → ∃ n, f.Has c n
  name : ∀ {dir d name c}, f.Names dir d name c → FileName name
  height : ∃ height : Nat → Nat, ∀ {dir d name c}, f.Names dir d name c → height c < height dir

/-- `name` can be seen in a directory, and is the name of an inode of some kind. -/
structure Sees (f : Files D W) (dir : Nat) (name : Text) (c : Nat) (kind : NodeType) : Prop where
  names : ∃ d, f.Names dir d name c
  visible : ¬ reservedPrefix <+: name
  has : ∃ n, f.Has c n ∧ n.kind = kind

/-- `key` leads from a directory to an inode: a file's path, or a directory's path and `/`. No segment of
it is reserved. -/
inductive KeyTo (f : Files D W) : Nat → Text → Nat → Prop
  | file {dir c : Nat} {name : Text} (h : f.Sees dir name c .file) : KeyTo f dir name c
  | dir {dir c : Nat} {name : Text} (h : f.Sees dir name c .dir) : KeyTo f dir (name ++ ['/']) c
  | inside {dir c c' : Nat} {name key : Text} (h : f.Sees dir name c .dir) (hkey : KeyTo f c key c') :
      KeyTo f dir (name ++ ['/'] ++ key) c'

/-- An inode that is an object: a file, or a directory with a marker. -/
def IsObject (f : Files D W) (c : Nat) : Prop :=
  ∃ n, f.Has c n ∧ (n.kind = .file ∨ n.kind = .dir ∧ n.recorded.isSome)

/-- `e` is what a walk sees of `name` in a directory. -/
inductive EntryAt (f : Files D W) (dir : Nat) : Text → Entry → Prop
  | file {c : Nat} {name : Text} (h : f.Sees dir name c .file) : EntryAt f dir name ⟨name, c, false⟩
  | dir {c : Nat} {name : Text} (h : f.Sees dir name c .dir) : EntryAt f dir name ⟨name ++ ['/'], c, true⟩

/-- The keys of an entry at `path`: its own and, if it is a directory, those below it. -/
def keysAt (f : Files D W) (path : Text) (e : Entry) (k : Text) (c : Nat) : Prop :=
  k = path ++ e.rel ∧ c = e.ino ∨ e.isDir ∧ ∃ t, k = path ++ e.rel ++ t ∧ f.KeyTo e.ino t c

theorem keyTo_iff : f.KeyTo dir key c ↔ ∃ name e, f.EntryAt dir name e ∧ f.keysAt [] e key c := by
  constructor
  · rintro (h | h | ⟨h, hkey⟩)
    · exact ⟨_, _, .file h, .inl ⟨rfl, rfl⟩⟩
    · exact ⟨_, _, .dir h, .inl ⟨rfl, rfl⟩⟩
    · exact ⟨_, _, .dir h, .inr ⟨rfl, _, rfl, hkey⟩⟩
  · rintro ⟨name, e, h, hkey⟩
    cases h with
    | file h =>
      obtain ⟨rfl, rfl⟩ | ⟨hdir, -⟩ := hkey
      · exact .file h
      · cases hdir
    | dir h =>
      obtain ⟨rfl, rfl⟩ | ⟨-, t, rfl, ht⟩ := hkey
      · exact .dir h
      · exact .inside h ht

theorem EntryAt.sees (h : f.EntryAt dir name e) : ∃ kind, f.Sees dir name e.ino kind := by
  cases h with
  | file h | dir h => exact ⟨_, h⟩

theorem keysAt.isPrefix (h : f.keysAt path e k c) : path ++ e.rel <+: k := by
  obtain ⟨rfl, -⟩ | ⟨-, t, rfl, -⟩ := h
  · exact prefix_rfl
  · exact prefix_append ..

theorem keysAt.append : f.keysAt path e k c ↔ ∃ t, k = path ++ t ∧ f.keysAt [] e t c := by
  constructor
  · rintro (⟨rfl, rfl⟩ | ⟨hdir, t, rfl, ht⟩)
    · exact ⟨_, rfl, .inl ⟨rfl, rfl⟩⟩
    · exact ⟨_, append_assoc .., .inr ⟨hdir, t, rfl, ht⟩⟩
  · rintro ⟨t, rfl, ⟨rfl, rfl⟩ | ⟨hdir, u, rfl, hu⟩⟩
    · exact .inl ⟨rfl, rfl⟩
    · exact .inr ⟨hdir, u, (append_assoc ..).symm, hu⟩

theorem EntryAt.fileName (h : f.Tree) (he : f.EntryAt dir name e) : FileName name := by
  obtain ⟨_, hs⟩ := he.sees
  exact h.name hs.names.choose_spec

variable {name' : Text} {e' : Entry}

section

variable (h : f.Tree) (he : f.EntryAt dir name e) (he' : f.EntryAt dir name' e')
include h he he'

/-- Nothing in a directory goes on from another directory's `/`. -/
theorem EntryAt.eq_of_isPrefix (hdir : e.isDir) (hrel : e.rel <+: e'.rel) : e.rel = e'.rel := by
  have hslash := (he'.fileName h).noSlash
  cases he with
  | file _ => cases hdir
  | dir _ =>
    cases he' with
    | file _ => exact absurd (hrel.subset (by simp)) hslash
    | dir _ =>
      obtain hlt | heq := lt_or_eq_of_le hrel.length_le
      · have hpre := prefix_of_prefix_length_le hrel (prefix_append name' ['/'])
          (by simp only [length_append, length_singleton] at hlt ⊢; omega)
        exact absurd (hpre.subset (by simp)) hslash
      · exact hrel.eq_of_length heq

/-- Two entries in order have all their keys in order. -/
theorem Tree.keysAt_lt {k' : Text} {c' : Nat} (hlt : e.rel < e'.rel) (hk : f.keysAt path e k c)
    (hk' : f.keysAt path e' k' c') : k < k' := by
  have hpath : path ++ e.rel < path ++ e'.rel := append_left_lt hlt
  by_cases hrel : e.rel <+: e'.rel
  · obtain ⟨rfl, -⟩ | ⟨hdir, -⟩ := hk
    · exact lt_of_lt_of_le hpath (not_lt.mp (not_lt_of_isPrefix hk'.isPrefix))
    · rw [he.eq_of_isPrefix h he' hdir hrel] at hlt
      exact absurd hlt (lt_irrefl _)
  · refine lt_of_not_isPrefix hpath (fun hp => hrel ?_) hk.isPrefix hk'.isPrefix
    exact (prefix_append_right_inj path).mp hp

theorem EntryAt.rel_inj (hrel : e.rel = e'.rel) : name = name' := by
  have hslash := (he.fileName h).noSlash
  have hslash' := (he'.fileName h).noSlash
  cases he with
  | file _ =>
    cases he' with
    | file _ => exact hrel
    | dir _ => exact absurd (show '/' ∈ name by rw [show name = name' ++ ['/'] from hrel]; simp) hslash
  | dir _ =>
    cases he' with
    | file _ => exact absurd (show '/' ∈ name' by rw [show name' = name ++ ['/'] from hrel.symm]; simp) hslash'
    | dir _ => exact append_cancel_right hrel

end

theorem keysAt_file : f.keysAt path ⟨name, c, false⟩ = fun k c' => k = path ++ name ∧ c' = c := by
  funext k c'
  simp [keysAt]

theorem Tree.keyTo_ne_nil (h : f.Tree) (hkey : f.KeyTo dir key c) : key ≠ [] := by
  obtain hs | - | - := hkey
  · exact (h.name hs.names.choose_spec).nonempty
  · simp
  · simp

/-! ### Entries as they are read -/

theorem readdir_eq (hd : f.Has dir d) (hk : d.kind = .dir) :
    ∃ entries, f.readdir dir = .ok entries ∧ entries.Pairwise (·.name ≠ ·.name) ∧
      ∀ e : DirEntry, e ∈ entries ↔ d.entries.lookup e.name = some e.ino ∧
        (∃ n, f.nodes e.ino = some n ∧ n.kind = e.kind) ∧ ¬ hiddenPrefix <+: e.name := by
  refine ⟨_, by rw [readdir, dir_eq_ok.mpr ⟨hd, hk⟩]; rfl, ?_, fun e => ?_⟩
  · refine List.Pairwise.filter _ (List.Pairwise.filterMap _ ?_ (nodupKeys_iff_pairwise.mp d.entries.nodupKeys))
    intro a a' hne e he e' he'
    obtain ⟨n, -, rfl⟩ := map_eq_some_iff.mp he
    obtain ⟨n', -, rfl⟩ := map_eq_some_iff.mp he'
    exact hne
  · rw [mem_filter, mem_filterMap]
    constructor
    · rintro ⟨⟨a, ha, he⟩, hhidden⟩
      obtain ⟨n, hn, rfl⟩ := map_eq_some_iff.mp he
      exact ⟨AList.mem_lookup_iff.mpr ha, ⟨n, hn, rfl⟩, by simpa [← isPrefixOf_iff_prefix] using hhidden⟩
    · rintro ⟨hlookup, ⟨n, hn, hkind⟩, hhidden⟩
      refine ⟨⟨⟨e.name, e.ino⟩, AList.mem_lookup_iff.mp hlookup, ?_⟩, by simpa [← isPrefixOf_iff_prefix] using hhidden⟩
      rw [hn, map_some, hkind]

theorem reserved_isPrefix_hidden : reservedPrefix <+: hiddenPrefix := by decide

theorem readdir_sees (h : f.Tree) (hd : f.Has dir d) (hk : d.kind = .dir) :
    ∃ entries, f.readdir dir = .ok entries ∧ entries.Pairwise (·.name ≠ ·.name) ∧
      ∀ e : DirEntry, (e ∈ entries ∧ ¬ reservedPrefix <+: e.name) ↔ f.Sees dir e.name e.ino e.kind := by
  obtain ⟨entries, hread, hdistinct, hmem⟩ := readdir_eq hd hk
  refine ⟨entries, hread, hdistinct, fun e => ?_⟩
  rw [hmem]
  constructor
  · rintro ⟨⟨hlookup, ⟨n, hn, hkind⟩, -⟩, hvisible⟩
    have hnames : f.Names dir d e.name e.ino := ⟨hd, hk, hlookup⟩
    obtain ⟨m, hm⟩ := h.live hnames
    exact ⟨⟨d, hnames⟩, hvisible, m, hm, mem_unique hm.1 hn ▸ hkind⟩
  · rintro ⟨⟨d', hnames⟩, hvisible, n, hn, hkind⟩
    obtain rfl := hnames.has.unique hd
    exact ⟨⟨hnames.entry, ⟨n, hn.1, hkind⟩, fun hhidden => hvisible (reserved_isPrefix_hidden.trans hhidden)⟩, hvisible⟩

theorem Sees.walked {a : DirEntry} (hs : f.Sees dir a.name a.ino a.kind) (he : a.walked = some e) :
    f.EntryAt dir a.name e := by
  unfold DirEntry.walked at he
  split at he
  · rename_i hkind
    cases he
    exact .file (hkind ▸ hs)
  · rename_i hkind
    cases he
    exact .dir (hkind ▸ hs)
  · cases he

theorem EntryAt.walked (he : f.EntryAt dir name e) :
    ∃ a : DirEntry, a.name = name ∧ f.Sees dir a.name a.ino a.kind ∧ a.walked = some e := by
  obtain hs | hs := he
  · exact ⟨⟨name, _, .file⟩, rfl, hs, rfl⟩
  · exact ⟨⟨name, _, .dir⟩, rfl, hs, rfl⟩

theorem pairwise_entriesOf (filter : Option Text) {entries : List DirEntry}
    (h : (entries.filter fun e => !reservedPrefix.isPrefixOf e.name).Pairwise fun a a' =>
      ∀ e, a.walked = some e → ∀ e', a'.walked = some e' → e.rel ≠ e'.rel) :
    (entriesOf filter entries).Pairwise (·.rel < ·.rel) := by
  let r : Entry → Entry → Prop := fun a b => ¬ b.rel < a.rel
  have : Std.Total r := ⟨fun a b => (lt_or_ge a.rel b.rel).imp lt_asymm not_lt_of_ge⟩
  have : IsTrans Entry r := ⟨fun a b c hab hbc => not_lt_of_ge ((not_lt.mp hab).trans (not_lt.mp hbc))⟩
  have hsorted := pairwise_insertionSort r (((entries.filter fun e => !reservedPrefix.isPrefixOf e.name).filter
      fun e => filter.all (·.isPrefixOf e.name)).filterMap DirEntry.walked)
  have hne : (entriesOf filter entries).Pairwise (·.rel ≠ ·.rel) :=
    ((perm_insertionSort _ _).pairwise_iff Ne.symm).mpr (pairwise_filterMap.mpr (h.filter _))
  exact (hsorted.and hne).imp fun hab => lt_of_le_of_ne (not_lt.mp hab.1) hab.2

/-- What a walk goes through in a directory: everything that can be seen there, in order. -/
theorem Tree.entriesOf_spec (h : f.Tree) (hd : f.Has dir d) (hk : d.kind = .dir) (filter : Option Text) :
    ∃ entries, f.readdir dir = .ok entries ∧ (∀ e, e ∈ entriesOf filter entries ↔
        ∃ name, f.EntryAt dir name e ∧ filter.all (·.isPrefixOf name)) ∧
      (entriesOf filter entries).Pairwise (·.rel < ·.rel) := by
  obtain ⟨entries, hread, hdistinct, hsees⟩ := readdir_sees h hd hk
  have hseen : ∀ a, a ∈ entries.filter (fun e => !reservedPrefix.isPrefixOf e.name) ↔
      f.Sees dir a.name a.ino a.kind := by
    intro a
    rw [← hsees a, mem_filter]
    simp [← isPrefixOf_iff_prefix]
  refine ⟨entries, hread, fun e => ?_, pairwise_entriesOf filter ?_⟩
  · rw [entriesOf, mem_insertionSort, mem_filterMap]
    constructor
    · rintro ⟨a, ha, he⟩
      obtain ⟨ha, hfilter⟩ := mem_filter.mp ha
      exact ⟨a.name, ((hseen a).mp ha).walked he, hfilter⟩
    · rintro ⟨name, he, hfilter⟩
      obtain ⟨a, rfl, hs, ha⟩ := he.walked
      exact ⟨a, mem_filter.mpr ⟨(hseen a).mpr hs, hfilter⟩, ha⟩
  · refine (hdistinct.filter _).imp_of_mem fun {a a'} ha ha' hne e he e' he' hrel => ?_
    exact hne ((((hseen a).mp ha).walked he).rel_inj h (((hseen a').mp ha').walked he') hrel)

end Files

/-! ### Walks -/

variable {D W α β ε : Type} {f : Files D W}

/-- Alone on the files `f`, `x` succeeds with `a` and changes nothing. -/
def Returns (f : Files D W) (x : ExceptT ε (Client (Reply (D := D))) α) (a : α) : Prop :=
  ∀ (who : W) (nowNs : Int), x.run.run (fun r f => f.perform who nowNs r) f = (.ok a, f)

theorem Returns.pure (a : α) : Returns f (Pure.pure a : ExceptT ε _ α) a := fun _ _ => rfl

theorem Returns.bind {x : ExceptT ε (Client (Reply (D := D))) α}
    {g : α → ExceptT ε (Client (Reply (D := D))) β} {a : α} {b : β} (hx : Returns f x a) (hg : Returns f (g a) b) : Returns f (x >>= g) b := fun who nowNs => by
  refine (Client.run_bind _ x.run _ f).trans ?_
  rw [hx who nowNs]
  exact hg who nowNs

theorem Returns.ask (r : Request D) (reply : Reply r) {k : Reply r → Client (Reply (D := D)) (Except ε α)} {a : α}
    (hreply : ∀ who nowNs, f.perform who nowNs r = (reply, f)) (hk : Returns f (ExceptT.mk (k reply)) a) :
    Returns f (ExceptT.mk (Client.request r >>= k)) a := fun who nowNs => by
  change (k (f.perform who nowNs r).1).run _ (f.perform who nowNs r).2 = _
  rw [hreply who nowNs]
  exact hk who nowNs

section Bucket

variable (md5 : Md5 D) (readOnly : Bool) {q : Query} {S : Set Found} {w : Walk}

variable {n : Node D W}

theorem returns_recorded (hn : f.Has ino n) : Returns f ((bucket md5 readOnly).recorded ino) n.recorded := by
  refine Returns.ask (.getRecorded ino) (.ok n.recorded) (fun who nowNs => ?_) (Returns.pure _)
  rw [perform, inode_eq_ok.mpr hn]
  rfl

theorem returns_isMarker (hn : f.Has ino n) : Returns f ((bucket md5 readOnly).isMarker ino) n.recorded.isSome :=
  (returns_recorded md5 readOnly hn).bind (Returns.pure _)

theorem returns_readdir {entries : List DirEntry} (h : f.readdir ino = .ok entries) :
    Returns f ((bucket md5 readOnly).call (.readdir ino)) entries := by
  refine Returns.ask (.readdir ino) (.ok entries) (fun who nowNs => ?_) (Returns.pure _)
  rw [perform, h]
  rfl

/-- Walks with `run`, from whatever was found before the keys `K`, find what `K` stand for. -/
def Collects (f : Files D W) (q : Query) (K : Text → Nat → Prop)
    (run : Walk → Store (Reply (D := D)) (Walk × Bool)) : Prop :=
  ∀ S w, Collected q S w → Before S (q.items f.IsObject K) →
    ∃ w', Returns f (run w) (w', !w'.full q) ∧ Collected q (S ∪ q.items f.IsObject K) w'

/-- The keys below a directory. -/
def keysBelow (f : Files D W) (ino : Nat) (path k : Text) (c : Nat) : Prop :=
  ∃ t, k = path ++ t ∧ f.KeyTo ino t c

theorem keysAt_dir {rel : Text} :
    f.keysAt path ⟨rel, ino, true⟩ = fun k c => (k = path ++ rel ∧ c = ino) ∨ keysBelow f ino (path ++ rel) k c := by
  funext k c
  simp [keysAt, keysBelow]

theorem Files.Tree.lt_below (h : f.Tree) (hk : keysBelow f ino path k c) : path < k := by
  obtain ⟨t, rfl, ht⟩ := hk
  refine lt_of_le_of_ne (not_lt.mp (not_lt_of_isPrefix (prefix_append ..))) fun heq => ?_
  exact h.keyTo_ne_nil ht (append_right_eq_self.mp heq.symm)

/-- A key and what is below it, if its own part up to the delimiter is that of all. -/
theorem items_keysAt_of_cut (hpre : q.keyPrefix <+: path ++ e.rel) (hcut : q.cut (path ++ e.rel) = some cp) :
    q.items f.IsObject (f.keysAt path e) = {.commonPrefix cp} := by
  have hcp := q.cuts.isPrefix hpre hcut
  ext x
  constructor
  · rintro ⟨k, c, hk, hx⟩
    exact hx.eq_commonPrefix (q.cuts.stays hpre (hpre.trans hk.isPrefix) hcut (hcp.trans hk.isPrefix))
  · rintro rfl
    refine ⟨path ++ e.rel, e.ino, .inl ⟨rfl, rfl⟩, ?_⟩
    rw [Yields, hcut]

/-- Where the resume point is past a directory, it is past all that is below it. -/
theorem not_past_of_skips (hpre : q.keyPrefix <+: path ++ e.rel)
    (hcut : q.cut (path ++ e.rel) = none) (hskips : q.skips (path ++ e.rel)) :
    ∀ x ∈ q.items f.IsObject (f.keysAt path e), ¬ q.past x.text := by
  rintro x ⟨k, c, hk, hx⟩ hpast
  rw [hx.text_eq] at hpast
  unfold skips at hskips
  unfold past at hpast
  cases hafter : q.after with
  | none => simp [hafter] at hskips
  | some a =>
    simp only [hafter, any_some, Bool.and_eq_true, decide_eq_true_eq, Bool.not_eq_true', all_some] at hskips hpast
    have hlabel := q.cuts.isPrefix_label hpre hk.isPrefix hcut
    refine lt_asymm hpast (lt_of_not_isPrefix hskips.1 (fun hp => ?_) hlabel prefix_rfl)
    rw [List.isPrefixOf_iff_prefix.mpr hp] at hskips
    cases hskips.2

/-- What a directory is, as the walk asks, is what counts as an object. -/
theorem returns_askMarker (hn : f.Has c n) (hkind : n.kind = .dir) (past : Bool) :
    ∃ marked : Bool, Returns f ((bucket md5 readOnly).askMarker past c) marked ∧
      (past → (marked ↔ f.IsObject c)) ∧ (marked → past) := by
  cases past with
  | false => exact ⟨false, Returns.pure _, nofun, nofun⟩
  | true =>
    refine ⟨n.recorded.isSome, returns_isMarker md5 readOnly hn, fun _ => ⟨fun h => ?_, ?_⟩, fun _ => rfl⟩
    · exact ⟨n, hn, .inr ⟨hkind, h⟩⟩
    · rintro ⟨m, hm, hfile | ⟨-, hmarked⟩⟩
      · rw [hm.unique hn, hkind] at hfile
        cases hfile
      · exact hm.unique hn ▸ hmarked

theorem collects_entry (htree : f.Tree) {dir : Nat} {name : Text} (he : f.EntryAt dir name e)
    (hpre : q.keyPrefix <+: path ++ e.rel)
    {descend : Nat → Text → Walk → Store (Reply (D := D)) (Walk × Bool)}
    (hdescend : e.isDir → Collects f q (keysBelow f e.ino (path ++ e.rel)) (descend e.ino (path ++ e.rel)))
    {entries : List Entry} {K : Text → Nat → Prop}
    (hentries : Collects f q K ((bucket md5 readOnly).walkEntries q path descend entries))
    (hlt : ∀ {k c k' c'}, f.keysAt path e k c → K k' c' → k < k')
    (hK : ∀ {k c}, K k c → q.keyPrefix <+: k) :
    Collects f q (fun k c => f.keysAt path e k c ∨ K k c)
      ((bucket md5 readOnly).walkEntries q path descend (e :: entries)) := by
  intro S w h hbefore
  rw [items_or] at hbefore ⊢
  have hbeforeE := hbefore.mono subset_union_left
  have hbeforeK : Before (S ∪ q.items f.IsObject (f.keysAt path e)) (q.items f.IsObject K) :=
    (hbefore.mono subset_union_right).union (before_items (fun hk => hpre.trans hk.isPrefix) hK hlt)
  rw [← union_assoc]
  by_cases hfull : w.full q
  · refine ⟨w, ?_, (h.of_full hfull hbeforeE).of_full hfull hbeforeK⟩
    rw [Bucket.walkEntries, if_pos hfull, hfull]
    exact Returns.pure _
  rw [Bucket.walkEntries, if_neg hfull]
  dsimp only
  cases hcut : q.cut (path ++ e.rel) with
  | some cp =>
    rw [items_keysAt_of_cut hpre hcut] at hbeforeE hbeforeK ⊢
    exact hentries _ _ (h.share hfull hbeforeE) hbeforeK
  | none =>
    dsimp only
    cases he with
    | file hs =>
      obtain ⟨n, hn, hkind⟩ := hs.has
      rw [keysAt_file] at hbeforeE hbeforeK ⊢
      refine hentries _ _ (h.own hfull hcut (fun hpast => ?_) id hbeforeE) hbeforeK
      exact ⟨fun _ => ⟨n, hn, .inl hkind⟩, fun _ => hpast⟩
    | dir hs =>
      rw [if_pos rfl]
      split
      · rename_i hskips
        exact hentries _ _ (h.skip (not_past_of_skips hpre hcut hskips)) hbeforeK
      · obtain ⟨n, hn, hkind⟩ := hs.has
        obtain ⟨marked, hmarker, hmarked, hpast⟩ :=
          returns_askMarker md5 readOnly hn hkind (q.past (path ++ (name ++ ['/'])))
        rw [keysAt_dir, items_or, ← union_assoc] at hbeforeK ⊢
        rw [keysAt_dir, items_or] at hbeforeE
        have hown := h.own hfull hcut hmarked hpast (hbeforeE.mono subset_union_left)
        obtain ⟨w1, hw1, hc1⟩ := hdescend rfl _ _ hown ((hbeforeE.mono subset_union_right).union
          (before_items (fun hk => by rw [hk.1]; exact hpre) (fun ⟨t, ht, _⟩ => by rw [ht]; exact hpre.trans (prefix_append ..))
            (fun hk hk' => by rw [hk.1]; exact htree.lt_below hk')))
        by_cases hfull1 : w1.full q
        · refine ⟨w1, hmarker.bind (hw1.bind ?_), hc1.of_full hfull1 hbeforeK⟩
          simp only [hfull1]
          exact Returns.pure _
        · obtain ⟨w2, hw2, hc2⟩ := hentries _ _ hc1 hbeforeK
          refine ⟨w2, hmarker.bind (hw1.bind ?_), hc2⟩
          simpa only [hfull1, Bool.not_false, if_true] using hw2

theorem Collects.congr {K K' : Text → Nat → Prop} {run : Walk → Store (Reply (D := D)) (Walk × Bool)}
    (h : Collects f q K run) (hK : ∀ k c, K k c ↔ K' k c) : Collects f q K' run := by
  obtain rfl : K = K' := funext fun k => funext fun c => propext (hK k c)
  exact h

theorem collects_entries (htree : f.Tree) {dir : Nat}
    {descend : Nat → Text → Walk → Store (Reply (D := D)) (Walk × Bool)} {entries : List Entry}
    (hmem : ∀ e ∈ entries, ∃ name, f.EntryAt dir name e)
    (hsorted : entries.Pairwise (·.rel < ·.rel))
    (hpre : ∀ e ∈ entries, q.keyPrefix <+: path ++ e.rel) (hdescend : ∀ e ∈ entries, e.isDir →
      Collects f q (keysBelow f e.ino (path ++ e.rel)) (descend e.ino (path ++ e.rel))) :
    Collects f q (fun k c => ∃ e ∈ entries, f.keysAt path e k c)
      ((bucket md5 readOnly).walkEntries q path descend entries) := by
  induction entries with
  | nil =>
    intro S w h _
    refine ⟨w, Returns.pure _, ?_⟩
    have hempty : (q.items f.IsObject fun k c => ∃ e ∈ ([] : List Entry), f.keysAt path e k c) = ∅ := by
      simp [items]
    rwa [hempty, union_empty]
  | cons e entries ih =>
    rw [pairwise_cons] at hsorted
    simp only [forall_mem_cons] at hmem hpre hdescend
    obtain ⟨name, he⟩ := hmem.1
    refine (collects_entry md5 readOnly htree he hpre.1 hdescend.1
      (ih hmem.2 hsorted.2 hpre.2 hdescend.2) ?_ ?_).congr fun k c => ?_
    · rintro k c k' c' hk ⟨e', he', hk'⟩
      obtain ⟨name', hat'⟩ := hmem.2 e' he'
      exact htree.keysAt_lt he hat' (hsorted.1 e' he') hk hk'
    · rintro k c ⟨e', he', hk'⟩
      exact (hpre.2 e' he').trans hk'.isPrefix
    · simp

/-- The keys in a directory at `path` that begin with a name that `filter` keeps. -/
def keysIn (f : Files D W) (ino : Nat) (path : Text) (filter : Option Text) (k : Text) (c : Nat) : Prop :=
  ∃ name e, f.EntryAt ino name e ∧ filter.all (·.isPrefixOf name) ∧ f.keysAt path e k c

theorem keysIn_none : keysIn f ino path none k c ↔ keysBelow f ino path k c := by
  constructor
  · rintro ⟨name, e, he, -, hk⟩
    obtain ⟨t, rfl, ht⟩ := keysAt.append.mp hk
    exact ⟨t, rfl, keyTo_iff.mpr ⟨name, e, he, ht⟩⟩
  · rintro ⟨t, rfl, ht⟩
    obtain ⟨name, e, he, hk⟩ := keyTo_iff.mp ht
    exact ⟨name, e, he, rfl, keysAt.append.mpr ⟨t, rfl, hk⟩⟩

/-- A walk as deep as the directory collects its keys. -/
theorem collects_dir (htree : f.Tree) {height : Nat → Nat}
    (hheight : ∀ {dir d name c}, f.Names dir d name c → height c < height dir) {depth : Nat}
    {d : Node D W} (hdepth : height ino < depth) (hd : f.Has ino d) (hkind : d.kind = .dir)
    {filter : Option Text} (hpre : ∀ {k c}, keysIn f ino path filter k c → q.keyPrefix <+: k) :
    Collects f q (keysIn f ino path filter) ((bucket md5 readOnly).walkDir q depth ino path filter) := by
  induction depth generalizing ino d path filter with
  | zero => exact absurd hdepth (Nat.not_lt_zero _)
  | succ depth ih =>
    obtain ⟨entries, hread, hmem, hsorted⟩ := htree.entriesOf_spec hd hkind filter
    have hkeys : Collects f q (fun k c => ∃ e ∈ entriesOf filter entries, f.keysAt path e k c)
        ((bucket md5 readOnly).walkEntries q path
          (fun child key w => (bucket md5 readOnly).walkDir q depth child key none w)
          (entriesOf filter entries)) := by
      have hown : ∀ e ∈ entriesOf filter entries, q.keyPrefix <+: path ++ e.rel := fun e he => by
        obtain ⟨name, hat, hfilter⟩ := (hmem e).mp he
        exact hpre ⟨name, e, hat, hfilter, .inl ⟨rfl, rfl⟩⟩
      have hat : ∀ e ∈ entriesOf filter entries, ∃ name, f.EntryAt ino name e := fun e he => by
        obtain ⟨name, hat, -⟩ := (hmem e).mp he
        exact ⟨name, hat⟩
      refine collects_entries md5 readOnly htree hat hsorted hown fun e he hdir => ?_
      obtain ⟨name, hs | hs⟩ := hat e he
      · cases hdir
      · obtain ⟨d', hd', hkind'⟩ := hs.has
        have hlt := hheight hs.names.choose_spec
        refine (ih (by omega) hd' hkind' ?_).congr fun k c => keysIn_none
        intro k c hk
        obtain ⟨t, rfl, -⟩ := keysIn_none.mp hk
        exact (hown _ he).trans (prefix_append ..)
    intro S w h hbefore
    have hset : (fun k c => ∃ e ∈ entriesOf filter entries, f.keysAt path e k c) = keysIn f ino path filter := by
      funext k c
      apply propext
      constructor
      · rintro ⟨e, he, hk⟩
        obtain ⟨name, hat, hfilter⟩ := (hmem e).mp he
        exact ⟨name, e, hat, hfilter, hk⟩
      · rintro ⟨name, e, hat, hfilter, hk⟩
        exact ⟨e, (hmem e).mpr ⟨name, hat, hfilter⟩, hk⟩
    rw [hset] at hkeys
    obtain ⟨w', hw', hc'⟩ := hkeys S w h hbefore
    exact ⟨w', (returns_readdir md5 readOnly hread).bind hw', hc'⟩

end Bucket

end AtlasNative.S3
