import AtlasNative.Catalog.Transfer
import AtlasNative.Program.Keeps

/-!
# A transfer brings over the whole catalog

The chunks of a transfer are numbered, and chunk `k` of a catalog is always the same one: chunks of
several transfers of one catalog may be mixed. A follower that has staged chunks `0` to `k` holds
everything before the cursor of chunk `k`; when the next chunk is `done`, it holds the catalog.
That comes after finitely many chunks.

Pages are cut out of maps in key order. `mem_page` says what a page leaves out.
-/

namespace AtlasNative

open List Std Option ExtTreeMap LawfulEqCmp Catalog

/-! ### Pages of an ordered map -/

section Page

variable {α β : Type} {cmp : α → α → Ordering}

/-- An element of a sorted list is on its first page, or after a full page. -/
theorem mem_page {l : List (α × β)} (hl : l.Pairwise fun a b => cmp a.1 b.1 = .lt) (n : Nat) {x : α × β} (hx : x ∈ l) :
    x ∈ l.take n ∨ (l.take n).length = n ∧ ∀ y ∈ l.take n, cmp y.1 x.1 = .lt := by
  rw [← take_append_drop n l] at hx hl
  rcases mem_append.mp hx with h | h
  · exact .inl h
  · refine .inr ⟨?_, fun y hy => (pairwise_append.mp hl).2.2 y hy x h⟩
    have := length_pos_of_mem h
    simp at this ⊢
    omega

variable [Std.TransCmp cmp] [Std.LawfulEqCmp cmp]

theorem getElem?_foldl_insert {full : ExtTreeMap α β cmp} (l : List (α × β))
    (hl : ∀ x ∈ l, full[x.1]? = some x.2) {m : ExtTreeMap α β cmp}
    (hm : ∀ (k : α) v, m[k]? = some v → full[k]? = some v) :
    (∀ (k : α) v, (l.foldl (fun m x => m.insert x.1 x.2) m)[k]? = some v → full[k]? = some v) ∧
    (∀ (k : α) v, m[k]? = some v → (l.foldl (fun m x => m.insert x.1 x.2) m)[k]? = some v) ∧
    ∀ x ∈ l, (l.foldl (fun m x => m.insert x.1 x.2) m)[x.1]? = some x.2 := by
  induction l generalizing m with
  | nil => exact ⟨hm, fun _ _ h => h, by simp⟩
  | cons a l ih =>
    have ha := hl a (by simp)
    have hins : ∀ (k : α) v, (m.insert a.1 a.2)[k]? = some v → full[k]? = some v := by
      intro k v h
      rcases Program.getElem?_of_insert h with ⟨rfl, rfl⟩ | h
      · exact ha
      · exact hm k v h
    have hkeep : ∀ (k : α) v, m[k]? = some v → (m.insert a.1 a.2)[k]? = some v := by
      intro k v h
      rw [ExtTreeMap.getElem?_insert]
      split
      · rename_i hk
        have := hm k v h
        rwa [← eq_of_compare hk, ha] at this
      · exact h
    obtain ⟨h1, h2, h3⟩ := ih (fun x hx => hl x (by simp [hx])) hins
    refine ⟨h1, fun k v h => h2 k v (hkeep k v h), fun x hx => ?_⟩
    rcases mem_cons.mp hx with rfl | hx
    · exact h2 _ _ (by simp)
    · exact h3 x hx

end Page

/-! ### Tables -/

variable {t : MemTable} {k : Nat}

namespace MemTable

/-- `t` has inodes of `full` only, and all of those below `start`. -/
structure Part (full : MemTable) (start : Nat) (t : MemTable) : Prop where
  sub : ∀ (k : Nat) i, t.map[k]? = some i → full.map[k]? = some i
  below : ∀ (k : Nat) i, full.map[k]? = some i → k < start → t.map[k]? = some i

variable {full : MemTable}

theorem Part.mono {start start' : Nat} (h : Part full start t) (hs : start' ≤ start) : Part full start' t :=
  ⟨h.sub, fun k i hi hk => h.below k i hi (by omega)⟩

theorem Part.eq (h : ∀ start, Part full start t) : t = full := by
  refine ext' (ext_getElem? fun k => ?_)
  cases hf : full.map[k]? with
  | some i => exact (h (k + 1)).below k i hf (Nat.lt_succ_self k)
  | none =>
    cases ht : t.map[k]? with
    | none => rfl
    | some i => simp [(h 0).sub k i ht] at hf

theorem mem_page_iff {start n : Nat} {i : MemInode} (h : i ∈ t.page start n) :
    t.map[i.ino]? = some i ∧ start ≤ i.ino := by
  obtain ⟨⟨k, j⟩, hkj, rfl⟩ := mem_map.mp h
  have hmem := mem_of_mem_take hkj
  simp only [mem_filter, decide_eq_true_eq, mem_toList_iff_getElem?_eq_some] at hmem
  have := t.keyed k j hmem.1
  subst this
  exact hmem

theorem page_or_after {start n : Nat} {i : MemInode} (hi : t.map[k]? = some i) (hk : start ≤ k) :
    i ∈ t.page start n ∨ (t.page start n).length = n ∧ ∀ j ∈ t.page start n, j.ino < k := by
  have hsorted : (t.map.toList.filter fun kv => start ≤ kv.1).Pairwise
      fun a b => compare a.1 b.1 = .lt := ordered_keys_toList.filter _
  have hmem : (k, i) ∈ t.map.toList.filter fun kv => start ≤ kv.1 := by
    simp [mem_toList_iff_getElem?_eq_some, hi, hk]
  rcases mem_page hsorted n hmem with h | ⟨hlen, hlt⟩
  · exact .inl (mem_map.mpr ⟨_, h, rfl⟩)
  · refine .inr ⟨by rw [page, length_map, hlen], fun j hj => ?_⟩
    obtain ⟨⟨k', j'⟩, hkj, rfl⟩ := mem_map.mp hj
    have hkj' := mem_of_mem_take hkj
    simp only [mem_filter, mem_toList_iff_getElem?_eq_some] at hkj'
    rw [t.keyed k' j' hkj'.1]
    exact compare_eq_lt.mp (hlt _ hkj)

theorem foldl_insert_map (l : List MemInode) (t : MemTable) :
    (l.foldl insert t).map = (l.map fun i => (i.ino, i)).foldl (fun m x => m.insert x.1 x.2) t.map := by
  induction l generalizing t with
  | nil => rfl
  | cons i l ih => exact ih (t.insert i)

/-- A page extends what a table has of another one. -/
theorem Part.page {start : Nat} (h : Part full start t) (n : Nat) (stop : Nat)
    (hstop : ∀ (k : Nat) i, full.map[k]? = some i → start ≤ k → k < stop → i ∈ full.page start n) :
    Part full stop ((full.page start n).foldl insert t) := by
  obtain ⟨h1, h2, h3⟩ := getElem?_foldl_insert ((full.page start n).map fun i => (i.ino, i))
    (by simpa using fun i hi => (mem_page_iff hi).1) h.sub
  rw [← foldl_insert_map] at h1 h2 h3
  refine ⟨h1, fun k i hi hk => ?_⟩
  by_cases hlt : k < start
  · exact h2 k i (h.below k i hi hlt)
  · have := h3 (i.ino, i) (mem_map.mpr ⟨i, hstop k i hi (by omega) hk, rfl⟩)
    rwa [full.keyed k i hi] at this

end MemTable

/-! ### Chunks by number -/

abbrev MemChunk := SnapshotChunk MemTable MemEntries

namespace Outgoing

/-- The next page of inodes, read from memory. -/
def inodesChunk (c : MemCatalog) : List FsId → Nat → Nat → MemChunk × Cursor
  | [], _, _ => (.done, .finished)
  | id :: rest, fs, start =>
    let page := match c.filesystems[id]? with
      | some f => f.inodes.page start chunkInodes
      | none => []
    match page.getLast? with
    | none => inodesChunk c rest (fs + 1) 0
    | some last => (.inodes id page, if page.length = chunkInodes then .inodes fs (u64 (last.ino + 1))
        else .inodes (fs + 1) 0)

/-- What follows a cursor of a transfer of `c`. -/
def nextChunk (c : MemCatalog) : Cursor → Option (MemChunk × Cursor)
  | .extentsAfter after =>
    match (extentsPage c after).getLast? with
    | none => some (inodesChunk c c.filesystems.keys 0 0)
    | some last => some (.extents (extentsPage c after), .extentsAfter (some last.1))
  | .inodes fs start => some (inodesChunk c (c.filesystems.keys.drop fs) fs start)
  | .done => some (.done, .finished)
  | .finished => none

/-- Chunk number `k` of a transfer of `c`, and the cursor after it. -/
def chunkNo (c : MemCatalog) : Nat → Option (MemChunk × Cursor)
  | 0 => some (.header c.header, .extentsAfter none)
  | k + 1 => (chunkNo c k).bind fun p => nextChunk c p.2

/-- What a follower holds after chunks `0` to `k` of a transfer of `c`. -/
def stagedNo (c : MemCatalog) : Nat → Option MemCatalog
  | 0 => some c.header
  | k + 1 => do
    let d ← stagedNo c k
    let p ← chunkNo c (k + 1)
    (d.stage p.1).toOption

/-- `o` is a transfer of `c`. -/
structure Of (c : MemCatalog) (o : Outgoing MemTable MemEntries) : Prop where
  catalog : o.catalog = c
  filesystems : o.filesystems = c.filesystems.keys
  index : o.index = c.appliedIndex
  chunk : chunkNo c o.seq = some (o.chunk, o.next)

theorem of_start (c : MemCatalog) (now : Nat) : Of c (start c now) := ⟨rfl, rfl, rfl, rfl⟩

theorem inodesFrom_eq (c : MemCatalog) (rest : List FsId) (fs start : Nat) :
    inodesFrom c rest fs start () = .ok (inodesChunk c rest fs start) () := by
  induction rest generalizing fs start with
  | nil => rfl
  | cons id rest ih =>
    unfold inodesFrom inodesChunk
    cases hf : c.filesystems[id]? with
    | none => exact ih _ _
    | some f =>
      dsimp only
      rw [Program.bind_ok (rfl : tab (Backend.pageFull f.inodes start chunkInodes) () =
        .ok (f.inodes.page start chunkInodes) ())]
      cases (f.inodes.page start chunkInodes).getLast? with
      | none => exact ih _ _
      | some last => rfl

theorem Of.chunkAt {c : MemCatalog} {o : Outgoing MemTable MemEntries} (h : Of c o) :
    o.chunkAt () = .ok (nextChunk c o.next) () := by
  unfold Outgoing.chunkAt nextChunk
  rw [h.catalog, h.filesystems]
  have hmap : ∀ (x : Rd Unit (MemChunk × Cursor)) a, x () = .ok a () → (some <$> x) () = .ok (some a) () := by
    intro x a hx
    show EStateM.map some x () = _
    rw [EStateM.map, hx]
  cases o.next with
  | extentsAfter after =>
    dsimp only
    cases (extentsPage c after).getLast? with
    | none => exact hmap _ _ (inodesFrom_eq ..)
    | some last => rfl
  | inodes fs start => exact hmap _ _ (inodesFrom_eq ..)
  | done | finished => rfl

theorem Of.advance {c : MemCatalog} {o o' : Outgoing MemTable MemEntries} (h : Of c o) {now : Nat}
    (hadv : o.advance now () = .ok o' ()) : Of c o' := by
  unfold Outgoing.advance at hadv
  rw [Program.bind_ok h.chunkAt] at hadv
  cases hnext : nextChunk c o.next with
  | none =>
    rw [hnext] at hadv
    cases hadv
    exact h
  | some p =>
    rw [hnext] at hadv
    cases hadv
    refine ⟨h.catalog, h.filesystems, h.index, ?_⟩
    simp [chunkNo, h.chunk, hnext]

/-! ### What the chunks bring -/

/-- The first `fs` filesystems of `c` are complete in `d`, the next one below inode `start`. -/
structure FsUpto (c d : MemCatalog) (fs start : Nat) : Prop where
  table : ∀ (j : Nat) (id : FsId) f, c.filesystems.keys[j]? = some id → c.filesystems[id]? = some f →
    ∃ t, d.filesystems[id]? = some { f with inodes := t } ∧
      MemTable.Part f.inodes (if j = fs then start else 0) t ∧ (j < fs → t = f.inodes)
  absent : ∀ id : FsId, c.filesystems[id]? = none → d.filesystems[id]? = none

/-- The extents of `c` up to `after` are in `d`. -/
structure ExtentsUpto (c d : MemCatalog) (after : Option ExtentId) : Prop where
  sub : ∀ (id : ExtentId) e, d.extents[id]? = some e → c.extents[id]? = some e
  below : ∀ (id : ExtentId) e, c.extents[id]? = some e → (∃ a, after = some a ∧ ¬ a < id) →
    d.extents[id]? = some e

/-- `d` agrees with `c` except that extents and inodes may be missing. -/
def Frame (c d : MemCatalog) : Prop :=
  { d with extents := c.extents, filesystems := c.filesystems } = c

/-- `d` holds what precedes a cursor of a transfer of `c`. -/
def Upto (c d : MemCatalog) : Cursor → Prop
  | .extentsAfter after => Frame c d ∧ ExtentsUpto c d after ∧ FsUpto c d 0 0
  | .inodes fs start => Frame c d ∧ d.extents = c.extents ∧ FsUpto c d fs start
  | .done | .finished => d = c

variable {c d : MemCatalog}

variable {id : FsId}

theorem keys_getElem? {j : Nat} (h : c.filesystems.keys[j]? = some id) : ∃ f, c.filesystems[id]? = some f := by
  have hmem := mem_keys.mp (mem_of_getElem? h)
  exact ⟨_, getElem?_eq_some_getElem hmem⟩

theorem keys_inj {i j : Nat} (hi : c.filesystems.keys[i]? = some id)
    (hj : c.filesystems.keys[j]? = some id) : i = j := by
  obtain ⟨hlt, -⟩ := List.getElem?_eq_some_iff.mp hi
  exact (getElem?_inj hlt nodup_keys).mp (hi.trans hj.symm)

theorem FsUpto.complete {fs start : Nat} (h : FsUpto c d fs start) (hframe : Frame c d)
    (hext : d.extents = c.extents) (hfs : c.filesystems.keys.length ≤ fs) : d = c := by
  have htables : d.filesystems = c.filesystems := by
    refine ext_getElem? fun id => ?_
    cases hf : c.filesystems[id]? with
    | none => exact h.absent id hf
    | some f =>
      have hmem : id ∈ c.filesystems.keys := by
        rw [ExtTreeMap.mem_keys, mem_iff_isSome_getElem?, hf]
        rfl
      obtain ⟨j, hj⟩ := mem_iff_getElem?.mp hmem
      obtain ⟨hlt, -⟩ := List.getElem?_eq_some_iff.mp hj
      obtain ⟨t, ht, -, hdone⟩ := h.table j id f hj hf
      rw [ht, hdone (by omega)]
  rw [← hframe, ← hext, ← htables]

section

variable {fs start : Nat} {f : FsMeta MemTable} (h : FsUpto c d fs start)
  (hid : c.filesystems.keys[fs]? = some id) (hf : c.filesystems[id]? = some f)
include h hid hf

theorem FsUpto.page {fs' start' : Nat} (hpart : MemTable.Part f.inodes (if fs = fs' then start' else 0) t)
    (hdone : fs < fs' → t = f.inodes) (hfs : fs' = fs ∨ fs' = fs + 1 ∧ start' = 0) :
    FsUpto c { d with filesystems := d.filesystems.insert id { f with inodes := t } } fs' start' := by
  refine ⟨fun j id' f' hj hf' => ?_, fun id' hid' => ?_⟩
  · by_cases heq : id' = id
    · subst heq
      obtain rfl := keys_inj hj hid
      obtain rfl : f' = f := mem_unique hf' hf
      exact ⟨t, by simp, hpart, hdone⟩
    · have hne : j ≠ fs := by
        rintro rfl
        exact heq (mem_unique hj hid)
      obtain ⟨u, hu, hpart', hdone'⟩ := h.table j id' f' hj hf'
      refine ⟨u, ?_, hpart'.mono ?_, fun hlt => hdone' (by omega)⟩
      · rw [ExtTreeMap.getElem?_insert, if_neg]
        · exact hu
        · exact fun hc => heq (eq_of_compare hc).symm
      · rw [if_neg hne]
        split <;> omega
  · rw [ExtTreeMap.getElem?_insert, if_neg]
    · exact h.absent id' hid'
    · intro hc
      rw [← eq_of_compare hc, hf] at hid'
      simp at hid'

theorem FsUpto.skip (hend : ∀ (k : Nat) i, f.inodes.map[k]? = some i → k < start) : FsUpto c d (fs + 1) 0 := by
  refine ⟨fun j id' f' hj hf' => ?_, h.absent⟩
  obtain ⟨t, ht, hpart, hdone⟩ := h.table j id' f' hj hf'
  refine ⟨t, ht, hpart.mono (by simp), fun hlt => ?_⟩
  rcases lt_or_ge j fs with hj' | hj'
  · exact hdone hj'
  · obtain rfl : j = fs := by omega
    obtain rfl := mem_unique hj hid
    obtain rfl : f' = f := mem_unique hf' hf
    rw [if_pos rfl] at hpart
    exact MemTable.Part.eq fun s => ⟨hpart.sub, fun k i hi _ => hpart.below k i hi (hend k i hi)⟩

end

/-- The next page of inodes: the catalog is complete if there is none. -/
theorem inodesChunk_upto (rest : List FsId) (fs start : Nat)
    (hrest : rest = c.filesystems.keys.drop fs) (hframe : Frame c d) (hext : d.extents = c.extents)
    (h : FsUpto c d fs start) :
    ((inodesChunk c rest fs start).1 = .done → d = c) ∧
    ∀ d', d.stage (inodesChunk c rest fs start).1 = .ok d' → Upto c d' (inodesChunk c rest fs start).2 := by
  induction rest generalizing fs start with
  | nil =>
    have hlen : c.filesystems.keys.length ≤ fs := drop_eq_nil_iff.mp hrest.symm
    exact ⟨fun _ => h.complete hframe hext hlen, fun d' hd' => by cases hd'⟩
  | cons id rest ih =>
    have hid : c.filesystems.keys[fs]? = some id := by
      rw [← head?_drop, ← hrest]
      rfl
    have hrest' : rest = c.filesystems.keys.drop (fs + 1) := by
      rw [← tail_drop, ← hrest]
      rfl
    obtain ⟨f, hf⟩ := keys_getElem? hid
    obtain ⟨t, ht, hpart, -⟩ := h.table fs id f hid hf
    rw [if_pos rfl] at hpart
    unfold inodesChunk
    simp only [hf]
    cases hlast : (f.inodes.page start chunkInodes).getLast? with
    | none =>
      refine ih _ _ hrest' (h.skip hid hf fun k i hi => ?_)
      have hpage : f.inodes.page start chunkInodes = [] := getLast?_eq_none_iff.mp hlast
      by_contra hk
      rcases MemTable.page_or_after (n := chunkInodes) hi (Nat.le_of_not_lt hk) with hmem | ⟨hlen, -⟩
      · simp [hpage] at hmem
      · rw [hpage] at hlen
        exact absurd hlen (by decide)
    | some last =>
      refine ⟨by simp, fun d' hd' => ?_⟩
      simp only [stage, ht, Except.ok.injEq] at hd'
      subst hd'
      have hmem : last ∈ f.inodes.page start chunkInodes := mem_of_getLast? hlast
      dsimp only
      split
      · -- a full page: the rest starts after its last inode
        refine ⟨hframe, hext, h.page hid hf ?_ (fun hlt => absurd hlt (lt_irrefl _)) (.inl rfl)⟩
        rw [if_pos rfl]
        refine (hpart.page chunkInodes (last.ino + 1) fun k i hi hk hlt => ?_).mono (Nat.mod_le _ _)
        rcases MemTable.page_or_after (n := chunkInodes) hi hk with hin | ⟨-, hall⟩
        · exact hin
        · have := hall last hmem
          omega
      · rename_i hshort
        have hall : ∀ stop, MemTable.Part f.inodes stop
            ((f.inodes.page start chunkInodes).foldl MemTable.insert t) := by
          refine fun stop => hpart.page chunkInodes stop fun k i hi hk _ => ?_
          rcases MemTable.page_or_after (n := chunkInodes) hi hk with hin | ⟨hlen, -⟩
          · exact hin
          · exact absurd hlen hshort
        exact ⟨hframe, hext, h.page hid hf (hall _) (fun _ => MemTable.Part.eq hall) (.inr ⟨rfl, rfl⟩)⟩

theorem mem_extentsPage {after : Option ExtentId} {x : ExtentId × ExtentMeta}
    (h : x ∈ extentsPage c after) : c.extents[x.1]? = some x.2 := by
  have := mem_of_mem_take h
  simp only [mem_filter] at this
  exact mem_toList_iff_getElem?_eq_some.mp this.1

theorem extentsPage_or_after {after : Option ExtentId} {id : ExtentId} {e : ExtentMeta}
    (he : c.extents[id]? = some e) (hid : ¬ ∃ a, after = some a ∧ ¬ a < id) :
    (id, e) ∈ extentsPage c after ∨
      (extentsPage c after).length = chunkExtents ∧ ∀ x ∈ extentsPage c after, x.1 < id := by
  have hafter : after.all (· < id) = true := by
    cases after with
    | none => rfl
    | some a => simpa using hid
  have hsorted : (c.extents.toList.filter fun kv => after.all (· < kv.1)).Pairwise
      fun a b => compare a.1 b.1 = .lt := ordered_keys_toList.filter _
  have hmem : (id, e) ∈ c.extents.toList.filter fun kv => after.all (· < kv.1) :=
    mem_filter.mpr ⟨mem_toList_iff_getElem?_eq_some.mpr he, hafter⟩
  exact (mem_page hsorted chunkExtents hmem).imp_right fun h =>
    ⟨h.1, fun x hx => compare_lt_iff_lt.mp (h.2 x hx)⟩

theorem nextChunk_upto {cur next : Cursor} {chunk : MemChunk} (h : Upto c d cur)
    (hnext : nextChunk c cur = some (chunk, next)) :
    (chunk = .done → d = c) ∧ ∀ d', d.stage chunk = .ok d' → Upto c d' next := by
  cases cur with
  | extentsAfter after =>
    obtain ⟨hframe, hext, hfs⟩ := h
    simp only [nextChunk] at hnext
    cases hlast : (extentsPage c after).getLast? with
    | none =>
      -- no extent is left
      rw [hlast] at hnext
      have hpage : extentsPage c after = [] := getLast?_eq_none_iff.mp hlast
      have hall : d.extents = c.extents := by
        refine ext_getElem? fun id => ?_
        cases he : c.extents[id]? with
        | some e =>
          refine hext.below id e he ?_
          by_contra hno
          rcases extentsPage_or_after he hno with hmem | ⟨hlen, -⟩
          · simp [hpage] at hmem
          · rw [hpage] at hlen
            exact absurd hlen (by decide)
        | none =>
          cases hd : d.extents[id]? with
          | none => rfl
          | some e => simp [hext.sub id e hd] at he
      have := inodesChunk_upto c.filesystems.keys 0 0 (by simp) hframe hall hfs
      obtain ⟨rfl, rfl⟩ := Prod.mk.inj (some.inj hnext)
      exact this
    | some last =>
      rw [hlast] at hnext
      obtain ⟨rfl, rfl⟩ := Prod.mk.inj (some.inj hnext)
      refine ⟨by simp, fun d' hd' => ?_⟩
      simp only [stage, Except.ok.injEq] at hd'
      subst hd'
      obtain ⟨h1, h2, h3⟩ := getElem?_foldl_insert (extentsPage c after) (fun x hx => mem_extentsPage hx) hext.sub
      refine ⟨hframe, ⟨h1, ?_⟩, hfs.1, hfs.2⟩
      rintro id e he ⟨a, ha, hle⟩
      obtain rfl := some.inj ha
      by_cases hbelow : ∃ a, after = some a ∧ ¬ a < id
      · exact h2 id e (hext.below id e he hbelow)
      · rcases extentsPage_or_after he hbelow with hmem | ⟨-, hall⟩
        · exact h3 (id, e) hmem
        · exact absurd (hall last (mem_of_getLast? hlast)) hle
  | inodes fs start =>
    obtain ⟨hframe, hext, hfs⟩ := h
    have := inodesChunk_upto (c.filesystems.keys.drop fs) _ _ rfl hframe hext hfs
    obtain ⟨rfl, rfl⟩ := Prod.mk.inj (some.inj hnext)
    exact this
  | done =>
    obtain ⟨rfl, rfl⟩ := Prod.mk.inj (some.inj hnext)
    exact ⟨fun _ => h, fun d' hd' => by cases hd'⟩
  | finished => cases hnext

theorem header_upto (c : MemCatalog) : Upto c c.header (.extentsAfter none) := by
  refine ⟨rfl, ⟨by simp [header], by simp⟩, ⟨fun j id f hj hf => ?_, fun id hid => ?_⟩⟩
  · refine ⟨{}, ?_, ⟨by simp, fun k i _ hk => ?_⟩, fun h => absurd h (Nat.not_lt_zero j)⟩
    · simp [header, hf]
      rfl
    · split at hk <;> exact absurd hk (Nat.not_lt_zero k)
  · simp [header, hid]

theorem staged_upto {p : MemChunk × Cursor} (hd : stagedNo c k = some d)
    (hp : chunkNo c k = some p) : Upto c d p.2 := by
  induction k generalizing d p with
  | zero =>
    obtain rfl := some.inj hd
    obtain rfl := some.inj hp
    exact header_upto c
  | succ k ih =>
    simp only [stagedNo, bind_eq_bind, bind_eq_some_iff] at hd
    obtain ⟨d0, hd0, p', hp', hstage⟩ := hd
    obtain rfl : p = p' := mem_unique hp hp'
    simp only [chunkNo, bind_eq_some_iff] at hp
    obtain ⟨q, hq, hnext⟩ := hp
    refine (nextChunk_upto (ih hd0 hq) hnext).2 d ?_
    cases hs : d0.stage p.1 with
    | error msg => simp [hs, Except.toOption] at hstage
    | ok d' =>
      rw [hs] at hstage
      exact congrArg _ (some.inj hstage)

/-- What a follower holds when the transfer is done is the catalog. -/
theorem staged_done {next : Cursor} (hd : stagedNo c k = some d)
    (hp : chunkNo c (k + 1) = some (.done, next)) : d = c := by
  simp only [chunkNo, bind_eq_some_iff] at hp
  obtain ⟨q, hq, hnext⟩ := hp
  exact (nextChunk_upto (staged_upto hd hq) hnext).1 rfl

/-! ### A transfer comes to its end -/

/-- The leader moves on to the next chunk and the follower stages it. -/
def Relays (p q : Outgoing MemTable MemEntries × MemCatalog) : Prop :=
  ∃ now, p.1.advance now () = .ok q.1 () ∧ p.2.stage q.1.chunk = .ok q.2

/-- A cursor that has chunks before it. -/
def IsOpen : Cursor → Prop
  | .extentsAfter _ => True
  | .inodes _ start => start < 2 ^ 64
  | .done | .finished => False

/-- A bound for the chunks after a cursor. -/
def rank (c : MemCatalog) : Cursor → Nat
  | .extentsAfter after =>
    (c.filesystems.keys.length + 1) * 2 ^ 64 + (c.extents.toList.filter fun kv => after.all (· < kv.1)).length + 1
  | .inodes fs start => (c.filesystems.keys.length + 1 - fs) * 2 ^ 64 - start
  | .done | .finished => 0

/-- No inode has the last number there is. -/
def Numbered (c : MemCatalog) : Prop :=
  ∀ (id : FsId) f, c.filesystems[id]? = some f → ∀ (k : Nat) i, f.inodes.map[k]? = some i → k < u64Max

theorem inodesChunk_step (hnum : Numbered c) (rest : List FsId) (fs start : Nat)
    (hrest : rest = c.filesystems.keys.drop fs) (hstart : start < 2 ^ 64) :
    inodesChunk c rest fs start = (.done, .finished) ∨ ∃ id page next, inodesChunk c rest fs start = (.inodes id page, next) ∧
      id ∈ c.filesystems.keys ∧ IsOpen next ∧ rank c next < rank c (.inodes fs start) := by
  induction rest generalizing fs start with
  | nil => exact .inl rfl
  | cons id rest ih =>
    have hid : c.filesystems.keys[fs]? = some id := by
      rw [← head?_drop, ← hrest]
      rfl
    have hrest' : rest = c.filesystems.keys.drop (fs + 1) := by
      rw [← tail_drop, ← hrest]
      rfl
    obtain ⟨hfs, -⟩ := List.getElem?_eq_some_iff.mp hid
    have hlt : rank c (.inodes (fs + 1) 0) < rank c (.inodes fs start) := by
      simp only [rank]
      omega
    obtain ⟨f, hf⟩ := keys_getElem? hid
    unfold inodesChunk
    simp only [hf]
    cases hlast : (f.inodes.page start chunkInodes).getLast? with
    | none =>
      rcases ih (fs + 1) 0 hrest' (by decide) with h | ⟨id', page, next, heq, hmem, hopen, hrank⟩
      · exact .inl h
      · exact .inr ⟨id', page, next, heq, hmem, hopen, hrank.trans hlt⟩
    | some last =>
      refine .inr ⟨id, _, _, rfl, mem_of_getElem? hid, ?_⟩
      split
      · obtain ⟨hlook, hle⟩ := MemTable.mem_page_iff (mem_of_getLast? hlast)
        have hmax := hnum id f hf _ _ hlook
        simp only [IsOpen, rank, u64, u64Max] at hmax ⊢
        omega
      · exact ⟨by simp [IsOpen], hlt⟩

theorem rank_extentsAfter {after : Option ExtentId} {last : ExtentId × ExtentMeta}
    (h : last ∈ extentsPage c after) : rank c (.extentsAfter (some last.1)) < rank c (.extentsAfter after) := by
  have hmem := mem_of_mem_take h
  obtain ⟨-, hafter⟩ := mem_filter.mp hmem
  have hsub : c.extents.toList.filter (fun kv => (some last.1).all (· < kv.1)) =
      (c.extents.toList.filter fun kv => after.all (· < kv.1)).filter (fun kv => last.1 < kv.1) := by
    rw [List.filter_filter]
    refine filter_congr fun kv _ => ?_
    cases after with
    | none => simp
    | some a =>
      have ha : a < last.1 := by simpa using hafter
      simpa using fun h => ha.trans h
  have hlen := (length_filter_lt_length_iff_exists (p := fun kv : ExtentId × ExtentMeta => last.1 < kv.1)).mpr
    ⟨last, hmem, by simp⟩
  simp only [rank, hsub]
  omega

theorem Upto.filesystem {cur : Cursor} (h : Upto c d cur) (hcur : IsOpen cur) (hid : id ∈ c.filesystems.keys) :
    ∃ f, d.filesystems[id]? = some f := by
  obtain ⟨j, hj⟩ := mem_iff_getElem?.mp hid
  obtain ⟨f, hf⟩ := keys_getElem? hj
  cases cur with
  | extentsAfter after | inodes fs start =>
    obtain ⟨t, ht, -⟩ := h.2.2.table j id f hj hf
    exact ⟨_, ht⟩
  | done | finished => exact hcur.elim

/-- The transfer is done and the follower has it all, or another chunk is staged. -/
def Moves (c d : MemCatalog) (cur : Cursor) : Prop :=
  nextChunk c cur = some (.done, .finished) ∧ d = c ∨ ∃ chunk next d', nextChunk c cur = some (chunk, next) ∧
    d.stage chunk = .ok d' ∧ Upto c d' next ∧ IsOpen next ∧ rank c next < rank c cur

theorem Upto.moves (hnum : Numbered c) {cur : Cursor} (h : Upto c d cur) (hcur : IsOpen cur) : Moves c d cur := by
  have hinodes : ∀ fs start, start < 2 ^ 64 → rank c (.inodes fs start) ≤ rank c cur →
      nextChunk c cur = some (inodesChunk c (c.filesystems.keys.drop fs) fs start) → Moves c d cur := by
    intro fs start hstart hle hnext
    rcases inodesChunk_step hnum _ fs start rfl hstart with heq | ⟨id, page, next, heq, hid, hopen, hrank⟩
    · rw [heq] at hnext
      exact .inl ⟨hnext, (nextChunk_upto h hnext).1 rfl⟩
    · rw [heq] at hnext
      obtain ⟨f, hf⟩ := h.filesystem hcur hid
      obtain ⟨d', hstage⟩ : ∃ d', d.stage (.inodes id page : MemChunk) = .ok d' := by simp [stage, hf]
      exact .inr ⟨_, next, d', hnext, hstage, (nextChunk_upto h hnext).2 _ hstage, hopen, hrank.trans_le hle⟩
  cases cur with
  | extentsAfter after =>
    cases hlast : (extentsPage c after).getLast? with
    | none =>
      refine hinodes 0 0 (by decide) ?_ (by simp [nextChunk, hlast])
      simp only [rank]
      omega
    | some last =>
      have hnext : nextChunk c (.extentsAfter after) = some (.extents (extentsPage c after), .extentsAfter (some last.1)) := by
        simp [nextChunk, hlast]
      exact .inr ⟨_, _, _, hnext, rfl, (nextChunk_upto h hnext).2 _ rfl, trivial,
        rank_extentsAfter (mem_of_getLast? hlast)⟩
  | inodes fs start => exact hinodes fs start hcur le_rfl rfl
  | done | finished => exact hcur.elim

open Relation (ReflTransGen)

variable {o : Outgoing MemTable MemEntries} {now : Nat}

theorem Of.advance_eq {p : MemChunk × Cursor} (h : Of c o) (hnext : nextChunk c o.next = some p) (now : Nat) :
    o.advance now () = .ok { o with chunk := p.1, next := p.2, seq := o.seq + 1, sentAt := now } () := by
  unfold Outgoing.advance
  rw [Program.bind_ok h.chunkAt, hnext]
  rfl

theorem upto_of_relays (hnum : Numbered c) {p : Outgoing MemTable MemEntries × MemCatalog}
    (h : ReflTransGen Relays (start c now, c.header) p) : Of c p.1 ∧ Upto c p.2 p.1.next ∧ IsOpen p.1.next := by
  induction h with
  | refl => exact ⟨of_start c now, header_upto c, trivial⟩
  | @tail p q _ hpq ih =>
    obtain ⟨o', d₁⟩ := q
    obtain ⟨hof, hupto, hopen⟩ := ih
    obtain ⟨now, hadv, hstage⟩ := hpq
    refine ⟨hof.advance hadv, ?_⟩
    rcases hupto.moves hnum hopen with ⟨hnext, -⟩ | ⟨chunk, next, d', hnext, hstage', hupto', hopen', -⟩
    · cases (hof.advance_eq hnext now).symm.trans hadv
      cases hstage
    · cases (hof.advance_eq hnext now).symm.trans hadv
      cases hstage'.symm.trans hstage
      exact ⟨hupto', hopen'⟩

/-- From wherever a transfer is, finitely many chunks bring the follower the leader's catalog. -/
theorem transfer_completes (hnum : Numbered c) (h : ReflTransGen Relays (start c now, c.header) (o, d)) (t : Nat) :
    (∀ o', o.advance t () = .ok o' () → o'.isDone = true → d = c) ∧
    ∃ o₁ o₂, ReflTransGen Relays (o, d) (o₁, c) ∧ o₁.advance t () = .ok o₂ () ∧ o₂.isDone = true := by
  constructor
  · intro o' hadv hdone
    obtain ⟨hof, hupto, hopen⟩ := upto_of_relays hnum h
    rcases hupto.moves hnum hopen with ⟨-, heq⟩ | ⟨chunk, next, d', hnext, hstage, -⟩
    · exact heq
    · cases (hof.advance_eq hnext t).symm.trans hadv
      cases chunk with
      | done => cases hstage
      | header | extents | inodes => cases hdone
  · induction hr : rank c o.next using Nat.strong_induction_on generalizing o d with
    | h r ih =>
      obtain ⟨hof, hupto, hopen⟩ := upto_of_relays hnum h
      rcases hupto.moves hnum hopen with ⟨hnext, rfl⟩ | ⟨chunk, next, d', hnext, hstage, -, -, hlt⟩
      · exact ⟨o, _, .refl, hof.advance_eq hnext t, rfl⟩
      · have hstep : Relays (o, d) (_, d') := ⟨t, hof.advance_eq hnext t, hstage⟩
        obtain ⟨o₁, o₂, hpath, hend⟩ := ih _ (hr ▸ hlt) (h.tail hstep) rfl
        exact ⟨o₁, o₂, hpath.head hstep, hend⟩

theorem numbered_of_toList (h : ∀ x ∈ c.filesystems.toList, ∀ y ∈ x.2.inodes.map.toList, y.1 < u64Max) :
    Numbered c := fun id f hf k i hi =>
  h (id, f) (mem_toList_iff_getElem?_eq_some.mpr hf) (k, i) (mem_toList_iff_getElem?_eq_some.mpr hi)

/-- A filesystem with a file of one extent. -/
def oneFile : MemCatalog :=
  [.fs (.createFs "f" "f" 0 none), .fs (.mknode "f" 1 "a" "op" .file none 0 0 none 0 0 0),
    .fs (.installFileExtent "f" 2 0 ⟨"e", 0, 1, [], [], none, 0, some "o"⟩ 1 0 false)].zipIdx.foldl
      (fun c (cmd, i) => (c.applyCommitted 1 (i + 1) cmd).2) {}

theorem transfer_completes_extent : "e" ∈ oneFile.extents ∧
    (∃ f, oneFile.filesystems["f"]? = some f ∧ 2 ∈ f.inodes.map) ∧
    ∃ (o₁ o₂ : Outgoing MemTable MemEntries), ReflTransGen Relays (start oneFile 0, oneFile.header) (o₁, oneFile) ∧
      o₁.advance 1 () = .ok o₂ () ∧ o₂.isDone = true := by
  have hfile : (oneFile.filesystems["f"]?).any (2 ∈ ·.inodes.map) = true := by decide +kernel
  obtain ⟨f, hf, hino⟩ := (Option.any_eq_true _ _).mp hfile
  have hnum : Numbered oneFile := numbered_of_toList (by decide +kernel)
  exact ⟨by decide +kernel, ⟨f, hf, of_decide_eq_true hino⟩, (transfer_completes hnum .refl 1).2⟩

end Outgoing

end AtlasNative
