import AtlasNative.S3.Exact

/-!
# Listings as clients see them

A client that goes on with the token of each truncated page sees the pages of the listing: a token says
exactly where the page ended.
-/

namespace AtlasNative.S3

open Program S3.Bucket List

/-! ### Tokens -/

theorem hexDigit_hexChar : ∀ n < 16, hexDigit (hexChar n) = some n ∧ hexChar n ≠ '+' := by decide

theorem byteOf_hexChar (b : UInt8) : byteOf (hexChar (b.toNat / 16)) (hexChar (b.toNat % 16)) = some b := by
  have hb : b.toNat < 256 := b.toNat_lt
  obtain ⟨hhi, hsign⟩ := hexDigit_hexChar (b.toNat / 16) (by omega)
  obtain ⟨hlo, -⟩ := hexDigit_hexChar (b.toNat % 16) (by omega)
  rw [byteOf, if_neg hsign, hhi, hlo]
  change some (UInt8.ofNat (16 * (b.toNat / 16) + b.toNat % 16)) = some b
  rw [Nat.div_add_mod, UInt8.ofNat_toNat]

theorem bytesOf_hex (bytes : Bytes) : bytesOf (hex bytes) = some bytes := by
  induction bytes with
  | nil => rfl
  | cons b bytes ih =>
    change (do let byte ← byteOf _ _; let rest ← bytesOf (hex bytes); pure (byte :: rest)) = some (b :: bytes)
    rw [byteOf_hexChar, ih]
    rfl

theorem decodeToken_hex (k : Text) : decodeToken (hex (utf8 k)) = .ok k := by
  have hk : ((some (utf8 k)).bind fun bytes => bytes.toByteArray.utf8Decode?) = some k.toArray :=
    utf8Decode?_utf8Encode
  rw [decodeToken, bytesOf_hex, hk]

/-! ### Pages in responses -/

variable {D W : Type} {f : Files D W} {md5 : Md5 D} {readOnly : Bool}

/-- A key as it is written in a response. -/
def written (url : Bool) (t : Text) : Text := if url then urlEncode t else t

def ListedItem.content (url : Bool) : ListedItem D → Option (ListedContent D)
  | .object key o => some ⟨written url key, o.size, timestamp o.mtimeNs, o.etag⟩
  | .commonPrefix _ => none

def ListedItem.shared (url : Bool) : ListedItem D → Option Text
  | .object _ _ => none
  | .commonPrefix p => some (written url p)

/-- What a response shows of the objects on a page. -/
def contentsOf (url : Bool) (items : List (ListedItem D)) : List (ListedContent D) := items.filterMap (ListedItem.content url)

/-- What a response shows of the common prefixes on a page. -/
def prefixesOf (url : Bool) (items : List (ListedItem D)) : List Text := items.filterMap (ListedItem.shared url)

theorem foldl_add (items : List (ListedItem D)) (p : Page D) : items.foldl Page.add p = { p with
      contents := p.contents ++ contentsOf p.url items
      prefixes := p.prefixes ++ prefixesOf p.url items
      next := (items.getLast?.map ListedItem.text).or p.next } := by
  induction items generalizing p with
  | nil => simp [contentsOf, prefixesOf]
  | cons l items ih =>
    have hlast : ((l :: items).getLast?.map ListedItem.text).or p.next =
        (items.getLast?.map ListedItem.text).or (some l.text) := by
      rw [getLast?_cons]
      cases items.getLast? <;> rfl
    rw [foldl_cons, ih, hlast]
    cases l with
    | object | commonPrefix =>
      simp only [Page.add, contentsOf, prefixesOf, append_assoc]
      rfl

theorem returns_blocking {α : Type} {x : Store (Reply (D := D)) α} {a : α} (h : Returns f x a) :
    Returns f (blocking x) a := fun who nowNs => by
  refine (Client.run_bind _ _ _ f).trans ?_
  rw [h who nowNs]
  rfl

/-- A response shows a page, and its token is where the page ended. -/
structure Answers (input : ListInput) (items : List (ListedItem D)) (truncated : Bool) (out : ListOutput D) :
    Prop where
  isTruncated : out.isTruncated = truncated
  contents : out.contents = contentsOf input.url items
  commonPrefixes : out.commonPrefixes = prefixesOf input.url items
  next : out.nextContinuationToken = ((items.getLast?.map ListedItem.text).filter fun _ => truncated).map
    fun k => hex (utf8 k)

theorem returns_listObjectsV2 {depth : Nat} (input : ListInput) {after : Option Text} {items : List (ListedItem D)}
    {truncated : Bool} (htoken : input.continuationToken = after.map fun k => hex (utf8 k))
    (hstart : input.startAfter = none)
    (h : Returns f ((bucket md5 readOnly).list depth (input.keyPrefix.getD []) input.delimiter after
      (pageSize input.maxKeys)) (items, truncated)) :
    ∃ out, Returns f ((bucket md5 readOnly).listObjectsV2 depth input) out ∧ Answers input items truncated out := by
  have hpage : Returns f ((bucket md5 readOnly).listPage depth input.keyPrefix input.delimiter after input.maxKeys
      input.url) (items.foldl Page.add ⟨[], [], truncated, none, pageSize input.maxKeys, input.url⟩) :=
    (returns_blocking h).bind (Returns.pure _)
  rw [foldl_add] at hpage
  have hafter : input.resumesAfter = .ok after := by
    rw [ListInput.resumesAfter, htoken, hstart]
    cases after with
    | none => rfl
    | some k => simp [decodeToken_hex, Except.map]
  have hresume : Returns f (ExceptT.mk (pure input.resumesAfter) : Service (Reply (D := D)) _) after :=
    fun who nowNs => by rw [hafter]; rfl
  refine ⟨_, hresume.bind (hpage.bind (Returns.pure _)), rfl, by simp, by simp, by simp⟩

/-- The responses to a listing and to those that go on with it, to the first that is not truncated. -/
inductive Responses (f : Files D W) (md5 : Md5 D) (readOnly : Bool) (depth : Nat) :
    ListInput → List (ListOutput D) → Prop
  | last {input : ListInput} {out : ListOutput D}
      (h : Returns f ((bucket md5 readOnly).listObjectsV2 depth input) out) (hend : out.isTruncated = false) :
      Responses f md5 readOnly depth input [out]
  | more {input : ListInput} {out : ListOutput D} {token : Text} {outs : List (ListOutput D)}
      (h : Returns f ((bucket md5 readOnly).listObjectsV2 depth input) out) (hmore : out.isTruncated = true)
      (htoken : out.nextContinuationToken = some token)
      (hrest : Responses f md5 readOnly depth { input with continuationToken := some token } outs) :
      Responses f md5 readOnly depth input (out :: outs)

theorem exists_responses {depth : Nat} (input : ListInput) (hstart : input.startAfter = none) {after : Option Text}
    {pages : List (List (ListedItem D))} (hpages : listingPages f md5 readOnly depth (input.keyPrefix.getD [])
      input.delimiter (pageSize input.maxKeys) after pages) :
    ∃ outs, Responses f md5 readOnly depth { input with continuationToken := after.map fun k => hex (utf8 k) } outs ∧
      outs.map ListOutput.contents = pages.map (contentsOf input.url) ∧
      outs.map ListOutput.commonPrefixes = pages.map (prefixesOf input.url) := by
  induction hpages with
  | @last after items h =>
    obtain ⟨out, hret, hout⟩ := returns_listObjectsV2
      { input with continuationToken := after.map fun k => hex (utf8 k) } rfl hstart h
    exact ⟨[out], .last hret hout.isTruncated, by simp [hout.contents], by simp [hout.commonPrefixes]⟩
  | @more after items l pages h hl hrest ih =>
    obtain ⟨out, hret, hout⟩ := returns_listObjectsV2
      { input with continuationToken := after.map fun k => hex (utf8 k) } rfl hstart h
    obtain ⟨outs, houts, hcontents, hprefixes⟩ := ih
    refine ⟨out :: outs, .more hret hout.isTruncated ?_ houts, ?_, ?_⟩
    · rw [hout.next, hl]
      rfl
    · simp [hout.contents, hcontents]
    · simp [hout.commonPrefixes, hprefixes]

/-- Listing a bucket shows, page after page, exactly the keys and common prefixes that there are, each
once and in order, an empty delimiter counting as none; and so do the responses that go on by their
tokens. -/
theorem listing_exact {f : Files D W} (htree : f.Tree) (md5 : Md5 D) (readOnly : Bool) : ∃ deep, ∀ depth, deep ≤ depth →
    ∀ (p : Text) (delimiter : Option Text), ShortSegments p →
      (∀ max, 1 ≤ max → ∃ pages, listingPages f md5 readOnly depth p delimiter max none pages ∧
        pages.flatten.Pairwise (·.text < ·.text) ∧
        ∀ l, l ∈ pages.flatten ↔ Lists md5 f p (delimiter.filter (· ≠ [])) l) ∧
      ∀ (maxKeys : Option Int) (url : Bool), 1 ≤ pageSize maxKeys → ∃ (pages : List (List (ListedItem D))) (outs : _),
        Responses f md5 readOnly depth { keyPrefix := some p, delimiter, maxKeys, url } outs ∧
        outs.map ListOutput.contents = pages.map (contentsOf url) ∧
        outs.map ListOutput.commonPrefixes = pages.map (prefixesOf url) ∧
        pages.flatten.Pairwise (·.text < ·.text) ∧
        ∀ l, l ∈ pages.flatten ↔ Lists md5 f p (delimiter.filter (· ≠ [])) l := by
  obtain ⟨deep, hdeep⟩ := exists_listingPages readOnly htree
  refine ⟨deep, fun depth hdepth p delimiter hshort => ⟨fun max hmax => ?_, fun maxKeys url hmax => ?_⟩⟩
  · obtain ⟨pages, hpages, hsorted, hmem⟩ := hdeep depth hdepth p delimiter max hmax hshort
    exact ⟨pages, hpages, hsorted, by simpa using hmem⟩
  · obtain ⟨pages, hpages, hsorted, hmem⟩ := hdeep depth hdepth p delimiter _ hmax hshort
    obtain ⟨outs, houts, hcontents, hprefixes⟩ := exists_responses
      { keyPrefix := some p, delimiter, maxKeys, url } rfl hpages
    exact ⟨pages, outs, houts, hcontents, hprefixes, hsorted, by simpa using hmem⟩

/-! ### A bucket to look at -/

/-- The file `a`, and the file `x` in the directory `d`. -/
def smallFiles : Files Bytes Nat where
  nodes
    | 1 => some { kind := .dir, entries := AList.insert ['d'] 3 (AList.insert ['a'] 2 ∅), mtimeNs := 0, ctimeNs := 0 }
    | 2 => some { kind := .file, mtimeNs := 0, ctimeNs := 0 }
    | 3 => some { kind := .dir, entries := AList.insert ['x'] 4 ∅, mtimeNs := 0, ctimeNs := 0 }
    | 4 => some { kind := .file, mtimeNs := 0, ctimeNs := 0 }
    | _ => none
  next := 5

theorem smallFiles_names {dir c : Nat} {d : Node Bytes Nat} {name : Text} (h : smallFiles.Names dir d name c) :
    (dir, name, c) ∈ [(1, ['d'], 3), (1, ['a'], 2), (3, ['x'], 4)] := by
  obtain ⟨⟨hn, -⟩, hkind, hentry⟩ := h
  simp only [smallFiles] at hn
  split at hn
  · cases hn
    have hmem : (⟨name, c⟩ : Sigma fun _ : Text => Nat) ∈ [⟨['d'], 3⟩, ⟨['a'], 2⟩] := AList.mem_lookup_iff.mp hentry
    simpa using hmem
  · cases hn
    cases hkind
  · cases hn
    have hmem : (⟨name, c⟩ : Sigma fun _ : Text => Nat) ∈ [⟨['x'], 4⟩] := AList.mem_lookup_iff.mp hentry
    simpa using hmem
  · cases hn
    cases hkind
  · cases hn

theorem smallFiles_tree : smallFiles.Tree where
  root := ⟨_, ⟨rfl, rfl⟩, rfl⟩
  live h := by
    have := smallFiles_names h
    simp only [mem_cons, Prod.mk.injEq, not_mem_nil, or_false] at this
    obtain ⟨-, -, rfl⟩ | ⟨-, -, rfl⟩ | ⟨-, -, rfl⟩ := this
    · exact ⟨_, rfl, rfl⟩
    · exact ⟨_, rfl, rfl⟩
    · exact ⟨_, rfl, rfl⟩
  name h := by
    have := smallFiles_names h
    simp only [mem_cons, Prod.mk.injEq, not_mem_nil, or_false] at this
    obtain ⟨-, rfl, -⟩ | ⟨-, rfl, -⟩ | ⟨-, rfl, -⟩ := this
    · exact ⟨by decide, by decide, by decide, by decide⟩
    · exact ⟨by decide, by decide, by decide, by decide⟩
    · exact ⟨by decide, by decide, by decide, by decide⟩
  height := by
    refine ⟨(4 - ·), fun h => ?_⟩
    have := smallFiles_names h
    simp only [mem_cons, Prod.mk.injEq, not_mem_nil, or_false] at this
    dsimp only
    omega

theorem listing_exact_small : smallFiles.Tree ∧ ShortSegments [] ∧
    ∃ deep, ∀ depth, deep ≤ depth →
      ∃ pages, listingPages smallFiles plainMd5 false depth [] (some ['/']) 1 none pages ∧
        pages.flatten.Pairwise (·.text < ·.text) ∧
        ∀ l, l ∈ pages.flatten ↔ Lists plainMd5 smallFiles [] (some ['/']) l := by
  have hshort : ShortSegments [] := by unfold ShortSegments; decide
  obtain ⟨deep, hdeep⟩ := listing_exact smallFiles_tree plainMd5 false
  exact ⟨smallFiles_tree, hshort, deep, fun depth hdepth =>
    (hdeep depth hdepth [] (some ['/']) hshort).1 1 le_rfl⟩

theorem not_lists_object {p key : Text} {o : Object D} : ¬ Lists md5 f p (some []) (.object key o) := by
  intro h
  cases h with
  | object _ _ _ _ hwhole => exact hwhole [] rfl nil_infix

/-- With an empty delimiter, which stands after every prefix, keys are shown whole. -/
theorem listing_empty_delimiter : smallFiles.Tree ∧ ∀ depth, ∃ items,
    Returns smallFiles ((bucket plainMd5 false).list (depth + 2) [] (some []) none 1) (items, true) ∧
      ∃ l ∈ items, ¬ Lists plainMd5 smallFiles [] (some []) l := by
  exact ⟨smallFiles_tree, fun depth => ⟨_, fun who nowNs => rfl, _, mem_cons_self, not_lists_object⟩⟩

end AtlasNative.S3
