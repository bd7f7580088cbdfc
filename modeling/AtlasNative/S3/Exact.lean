import AtlasNative.S3.Prefixes

/-!
# Listings are exact

On files that do not change, the pages of a listing show together, in key order and each once, every
object key with the prefix that has no delimiter after it, and every part of a key up to the first
delimiter after the prefix.
-/

namespace AtlasNative.S3

open Program S3.Bucket List Files Query Set Returns Option

variable {D W : Type} {f : Files D W} (md5 : Md5 D) (readOnly : Bool)

/-! ### What is shown of what was found -/

/-- The object that an inode is. -/
def Node.object (n : Node D W) (c : Nat) : Object D := (bucket md5 false).described (n.attr c) n.recorded

inductive Shows (f : Files D W) : Found → ListedItem D → Prop
  | object {key : Text} {c : Nat} {n : Node D W} (hn : f.Has c n) :
      Shows f (.object key c) (.object key (n.object md5 c))
  | commonPrefix (p : Text) : Shows f (.commonPrefix p) (.commonPrefix p)

variable {x : Found} {l : ListedItem D}

theorem Shows.text_eq (h : Shows md5 f x l) : l.text = x.text := by
  cases h with
  | object | commonPrefix => rfl

theorem returns_resolveOne (h : ∀ k c, x = .object k c → ∃ n, f.Has c n) :
    ∃ l, Shows md5 f x l ∧ Returns f ((bucket md5 readOnly).resolveOne x) (some l) := by
  cases x with
  | commonPrefix p => exact ⟨_, .commonPrefix p, pure _⟩
  | object k c =>
    obtain ⟨n, hn⟩ := h k c rfl
    refine ⟨_, .object hn, ask (.getattr c) (.ok (n.attr c)) (fun who nowNs => ?_) ?_⟩
    · rw [perform, getattr_eq_ok.mpr ⟨n, hn, rfl⟩]
      rfl
    · intro who nowNs
      have hobject : Returns f ((bucket md5 readOnly).object (n.attr c)) (n.object md5 c) :=
        (returns_recorded md5 readOnly hn).bind (pure _)
      refine (Client.run_bind _ _ _ f).trans ?_
      rw [hobject who nowNs]
      rfl

variable {found : List Found}

theorem run_resolveSlots (h : ∀ x ∈ found, ∀ k c, x = .object k c → ∃ n, f.Has c n) :
    ∃ listed, List.Forall₂ (Shows md5 f) found listed ∧ ∀ (who : W) (nowNs : Int),
      ((bucket md5 readOnly).resolveSlots found).run (fun r f => f.perform who nowNs r) f =
        (listed.map fun l => .ok (some l), f) := by
  induction found with
  | nil => exact ⟨[], .nil, fun _ _ => rfl⟩
  | cons x found ih =>
    obtain ⟨hx, hfound⟩ := forall_mem_cons.mp h
    obtain ⟨l, hl, hone⟩ := returns_resolveOne md5 readOnly hx
    obtain ⟨listed, hlisted, hrun⟩ := ih hfound
    refine ⟨l :: listed, .cons hl hlisted, fun who nowNs => ?_⟩
    refine (Client.run_bind _ _ _ f).trans ?_
    rw [hone who nowNs]
    refine (Client.run_bind _ _ _ f).trans ?_
    rw [hrun who nowNs]
    rfl

theorem collect_ok (listed : List (ListedItem D)) : collect (listed.map fun l => .ok (some l)) = .ok listed := by
  induction listed with
  | nil => rfl
  | cons l listed ih =>
    rw [map_cons, collect, ih]
    rfl

theorem returns_resolve (h : ∀ x ∈ found, ∀ k c, x = .object k c → ∃ n, f.Has c n) :
    ∃ listed, List.Forall₂ (Shows md5 f) found listed ∧ Returns f ((bucket md5 readOnly).resolve found) listed := by
  obtain ⟨listed, hlisted, hrun⟩ := run_resolveSlots md5 readOnly h
  refine ⟨listed, hlisted, fun who nowNs => ?_⟩
  refine (Client.run_bind _ _ _ f).trans ?_
  rw [hrun who nowNs]
  change (collect (listed.map fun l => .ok (some l)), f) = _
  rw [collect_ok]

/-! ### One page -/

variable {start : Nat}

theorem Files.Leads.height_le {height : Nat → Nat}
    (hheight : ∀ {dir d name c}, f.Names dir d name c → height c < height dir) {dir : Nat}
    {dirs : List Text} (h : f.Leads dir dirs start) : height start ≤ height dir := by
  induction h with
  | nil => exact le_rfl
  | cons hs _ ih => exact ih.trans (hheight hs.names.choose_spec).le

variable {p dirPath rest : Text}

theorem Files.KeyWith.checks (htree : f.Tree) (hsplit : splitPrefix p = (dirPath, rest)) {k : Text}
    {c : Nat} (h : f.KeyWith p k c) :
    (dirsOf dirPath).length = dirPath.count '/' ∧ (dirsOf dirPath).any hides = false ∧
      ∃ start, f.Leads rootIno (dirsOf dirPath) start := by
  obtain ⟨dirs, start, rfl, hlead, -⟩ := h.leads hsplit htree
  have hnames := hlead.names htree
  have hdirs : dirsOf (joinDirs dirs) = dirs :=
    dirsOf_joinDirs fun x hx => ⟨(hnames x hx).1.noSlash, (hnames x hx).1.nonempty⟩
  rw [hdirs, count_joinDirs fun x hx => (hnames x hx).1.noSlash]
  refine ⟨rfl, any_eq_false.mpr fun x hx => ?_, start, hlead⟩
  obtain ⟨hname, hvisible⟩ := hnames x hx
  simp [hides, hname.noDots, hvisible]

variable {q : Query}

theorem Query.items_of_none {object : Nat → Prop} {K : Text → Nat → Prop} (h : ∀ k c, ¬ K k c) : q.items object K = ∅ :=
  eq_empty_of_forall_notMem fun _ ⟨k, c, hk, _⟩ => h k c hk

theorem queryOf_delimiter {delimiter after : Option Text} {max : Nat} :
    ∀ d ∈ (queryOf p delimiter after max).delimiter, d ≠ [] := fun d hd => by
  simpa using (mem_filter_iff.mp hd).2

/-- The segments of a prefix are no longer than names. -/
def ShortSegments (p : Text) : Prop := ∀ x ∈ p.splitOn '/', utf8Bytes x ≤ maxNameBytes

theorem dirs_short (hsplit : splitPrefix p = (dirPath, rest)) (hshort : ShortSegments p)
    (hjoin : joinDirs (dirsOf dirPath) = dirPath)
    (hhides : (dirsOf dirPath).any hides = false) :
    ∀ x ∈ dirsOf dirPath, utf8Bytes x ≤ maxNameBytes ∧ ¬ reservedPrefix <+: x := by
  obtain ⟨hp, hclosed, hslash⟩ := hsplit ▸ splitPrefix_spec p
  have hsplitOn := splitOn_joinDirs (dirsOf_spec hclosed).1 rest hslash
  rw [hjoin, hp] at hsplitOn
  intro x hx
  refine ⟨hshort x (by simp [hsplitOn, hx]), fun hreserved => ?_⟩
  have hno := any_eq_false.mp hhides x hx
  simp [hides, isPrefixOf_iff_prefix.mpr hreserved] at hno

theorem keysIn.below {ino : Nat} {path k : Text} {filter : Option Text} {c : Nat} (h : keysIn f ino path filter k c) :
    keysBelow f ino path k c := by
  obtain ⟨name, e, he, -, hk⟩ := h
  exact keysIn_none.mp ⟨name, e, he, rfl, hk⟩

theorem Query.cut_keyPrefix (hdelim : ∀ d ∈ q.delimiter, d ≠ []) : q.cut q.keyPrefix = none := by
  unfold cut
  cases h : q.delimiter with
  | none => rfl
  | some d => simp [Program.cut, Program.find, hdelim d h]

theorem collected_start (hdelim : ∀ d ∈ q.delimiter, d ≠ []) (hp : dirPath ++ rest = q.keyPrefix)
    {d : Node D W} (hd : f.Has start d) (hkind : d.kind = .dir) :
    ∃ marked, Returns f ((bucket md5 readOnly).askMarker (dirPath ≠ [] ∧ rest = [] ∧ q.past dirPath) start) marked ∧
      Collected q (q.items f.IsObject fun k c => dirPath ≠ [] ∧ rest = [] ∧ k = dirPath ∧ c = start)
        (if marked then Walk.push {} (.object dirPath start) else {}) := by
  obtain ⟨marked, hret, hmarked, hmatters⟩ :=
    returns_askMarker md5 readOnly hd hkind (dirPath ≠ [] ∧ rest = [] ∧ q.past dirPath)
  refine ⟨marked, hret, ?_⟩
  simp only [decide_eq_true_eq] at hmarked hmatters
  by_cases hown : dirPath ≠ [] ∧ rest = []
  · have hkey : dirPath = q.keyPrefix := by rw [← hp, hown.2, append_nil]
    have hcut : q.cut dirPath = none := hkey ▸ cut_keyPrefix hdelim
    have hempty := (collected_empty q).own (by simp [Walk.full]) hcut
      (fun hpast => hmarked ⟨hown.1, hown.2, hpast⟩) (fun h => (hmatters h).2.2) nofun
    simpa [hown] using hempty
  · have hfalse : marked = false := by
      cases marked with
      | false => rfl
      | true => exact absurd ⟨(hmatters rfl).1, (hmatters rfl).2.1⟩ hown
    rw [hfalse, items_of_none fun k c hk => hown ⟨hk.1, hk.2.1⟩]
    exact collected_empty q

/-- The keys under the prefix are walked, and as many as a page holds are shown. -/
theorem returns_listDir (htree : f.Tree) {height : Nat → Nat}
    (hheight : ∀ {dir d name c}, f.Names dir d name c → height c < height dir) {depth : Nat}
    (hdepth : height rootIno < depth) (q : Query) (hdelim : ∀ d ∈ q.delimiter, d ≠ [])
    {dirs : List Text} (hsplit : splitPrefix q.keyPrefix = (dirPath, rest))
    (hdirs : dirPath = joinDirs dirs) (hlead : f.Leads rootIno dirs start) :
    ∃ (w : Walk) (listed : List (ListedItem D)), Returns f ((bucket md5 readOnly).listDir depth q start dirPath rest)
        (listed, decide (q.max < w.found.length)) ∧
      List.Forall₂ (Shows md5 f) (w.found.take q.max) listed ∧
      Collected q (q.items f.IsObject (f.KeyWith q.keyPrefix)) w := by
  obtain ⟨hp, -, -⟩ := hsplit ▸ splitPrefix_spec q.keyPrefix
  obtain ⟨d, hd, hkind⟩ := hlead.isDir htree.root
  have hkeys : f.KeyWith q.keyPrefix = fun k c => (dirPath ≠ [] ∧ rest = [] ∧ k = dirPath ∧ c = start) ∨
      keysIn f start dirPath (some rest) k c :=
    funext fun k => funext fun c => propext (keyWith_iff hsplit htree hdirs hlead)
  have hpre : ∀ {k c}, keysIn f start dirPath (some rest) k c → q.keyPrefix <+: k := fun hk =>
    ((keyWith_iff hsplit htree hdirs hlead).mpr (.inr hk)).2
  have hown : ∀ {k c}, dirPath ≠ [] ∧ rest = [] ∧ k = dirPath ∧ c = start → q.keyPrefix <+: k := fun hk =>
    ((keyWith_iff hsplit htree hdirs hlead).mpr (.inl hk)).2
  obtain ⟨marked, hmarker, hstart⟩ := collected_start md5 readOnly hdelim hp hd hkind
  obtain ⟨w, hwalk, hcollected⟩ := collects_dir md5 readOnly htree hheight
    ((hlead.height_le hheight).trans_lt hdepth) hd hkind hpre _ _ hstart
    (before_items hown hpre fun hk hk' => hk.2.2.1 ▸ htree.lt_below hk'.below)
  rw [← items_or, ← hkeys] at hcollected
  have hfound : ∀ x ∈ w.found.take q.max, ∀ k c, x = .object k c → ∃ n, f.Has c n := by
    rintro x hx k c rfl
    obtain ⟨-, -, n, hn, -⟩ := mem_items_object.mp (hcollected.sound _ (mem_of_mem_take hx)).1
    exact ⟨n, hn⟩
  obtain ⟨listed, hlisted, hresolve⟩ := returns_resolve md5 readOnly hfound
  exact ⟨w, listed, hmarker.bind (hwalk.bind (hresolve.bind (pure _))), hlisted, hcollected⟩

theorem returns_list (htree : f.Tree) : ∃ deep, ∀ depth, deep ≤ depth → ∀ {p : Text} {delimiter after : Option Text}
    {max : Nat}, 0 < max → ShortSegments p → ∃ (w : Walk) (listed : List (ListedItem D)),
      Returns f ((bucket md5 readOnly).list depth p delimiter after max) (listed, decide (max < w.found.length)) ∧
      List.Forall₂ (Shows md5 f) (w.found.take max) listed ∧
      Collected (queryOf p delimiter after max) ((queryOf p delimiter after max).items f.IsObject (f.KeyWith p)) w := by
  obtain ⟨height, hheight⟩ := htree.height
  refine ⟨height rootIno + 1, fun depth hdepth p delimiter after max hmax hshort => ?_⟩
  obtain ⟨⟨dirPath, rest⟩, hsplit⟩ : ∃ x, splitPrefix p = x := ⟨_, rfl⟩
  obtain ⟨hp, hclosed, hslash⟩ := hsplit ▸ splitPrefix_spec p
  rw [list, if_neg (by omega), hsplit]
  dsimp only
  -- no key has the prefix
  have hempty : ∀ {x : Store (Reply (D := D)) (List (ListedItem D) × Bool)}, (∀ k c, ¬ f.KeyWith p k c) →
      Returns f x ([], false) → ∃ (w : Walk) (listed : List (ListedItem D)),
        Returns f x (listed, decide (max < w.found.length)) ∧
        List.Forall₂ (Shows md5 f) (w.found.take max) listed ∧
        Collected (queryOf p delimiter after max)
          ((queryOf p delimiter after max).items f.IsObject (f.KeyWith p)) w := fun hnone hret => by
    refine ⟨{}, [], hret, by simp, ?_⟩
    rw [items_of_none hnone]
    exact collected_empty _
  split
  · rename_i hbad
    refine hempty (fun k c hk => ?_) (pure _)
    obtain ⟨hcount, hhides, -⟩ := hk.checks htree hsplit
    simp [hcount, hhides] at hbad
  · rename_i hgood
    obtain ⟨hcount, hhides⟩ := not_or.mp hgood
    have hjoin := (dirsOf_spec hclosed).2.2 (not_not.mp hcount)
    obtain ⟨r, hfind, hr⟩ := returns_findFrom md5 readOnly htree htree.root
      (dirs_short hsplit hshort hjoin (by simpa using hhides))
    cases r with
    | none =>
      refine hempty (fun k c hk => ?_) (hfind.bind (pure _))
      obtain ⟨-, -, start, hlead⟩ := hk.checks htree hsplit
      cases (hr start).mpr hlead
    | some start =>
      obtain ⟨w, listed, hret, hshow, hcollected⟩ := returns_listDir md5 readOnly htree hheight hdepth
        (queryOf p delimiter after max) queryOf_delimiter hsplit hjoin.symm ((hr start).mp rfl)
      exact ⟨w, listed, hfind.bind hret, hshow, hcollected⟩

/-! ### What a listing is to show -/

/-- Every object key with the prefix and no delimiter after it, with its object; and every part of a key
with the prefix up to the first delimiter after it. -/
inductive Lists (f : Files D W) (p : Text) (delimiter : Option Text) : ListedItem D → Prop
  | object {key : Text} {c : Nat} {n : Node D W} (hkey : f.KeyTo rootIno key c) (hn : f.Has c n)
      (hobject : n.kind = .file ∨ n.kind = .dir ∧ n.recorded.isSome) (hp : p <+: key)
      (hwhole : ∀ d ∈ delimiter, ¬ d <:+: key.drop p.length) :
      Lists f p delimiter (.object key (n.object md5 c))
  | commonPrefix {key d cp : Text} {c : Nat} (hkey : f.KeyTo rootIno key c) (hp : p <+: key)
      (hd : d ∈ delimiter) (hcut : CutAt d p key cp) : Lists f p delimiter (.commonPrefix cp)

variable {md5} {p : Text} {delimiter after : Option Text} {max : Nat}

section

variable (hempty : delimiter ≠ some [])
include hempty

theorem queryOf_cut_eq_some {key cp : Text} (hp : p <+: key) :
    (queryOf p delimiter after max).cut key = some cp ↔ ∃ d ∈ delimiter, CutAt d p key cp := by
  cases delimiter with
  | none => simp [queryOf, Query.cut]
  | some d =>
    have hd : d ≠ [] := fun h => hempty (h ▸ rfl)
    simp [queryOf, Query.cut, Option.filter, hd, cut_eq_some_iff hp]

theorem queryOf_cut_eq_none {key : Text} :
    (queryOf p delimiter after max).cut key = none ↔ ∀ d ∈ delimiter, ¬ d <:+: key.drop p.length := by
  cases delimiter with
  | none => simp [queryOf, Query.cut]
  | some d =>
    have hd : d ≠ [] := fun h => hempty (h ▸ rfl)
    simp [queryOf, Query.cut, hd, cut_eq_none_iff]

/-- What the keys stand for is what is to be shown. -/
theorem lists_iff : Lists md5 f p delimiter l ↔
    ∃ x ∈ (queryOf p delimiter after max).items f.IsObject (f.KeyWith p), Shows md5 f x l := by
  constructor
  · rintro (⟨hkey, hn, hobject, hp, hwhole⟩ | ⟨hkey, hp, hd, hcut⟩)
    · exact ⟨_, mem_items_object.mpr ⟨⟨hkey, hp⟩, (queryOf_cut_eq_none hempty).mpr hwhole, _, hn, hobject⟩, .object hn⟩
    · exact ⟨_, mem_items_commonPrefix.mpr
        ⟨_, _, ⟨hkey, hp⟩, (queryOf_cut_eq_some hempty hp).mpr ⟨_, hd, hcut⟩⟩, .commonPrefix _⟩
  · rintro ⟨x, hx, hn | cp⟩
    · obtain ⟨⟨hkey, hp⟩, hwhole, m, hm, hobject⟩ := mem_items_object.mp hx
      obtain rfl := hm.unique hn
      exact .object hkey hm hobject hp ((queryOf_cut_eq_none hempty).mp hwhole)
    · obtain ⟨k, c, ⟨hkey, hp⟩, hcut⟩ := mem_items_commonPrefix.mp hx
      obtain ⟨d, hd, hcut⟩ := (queryOf_cut_eq_some hempty hp).mp hcut
      exact .commonPrefix hkey hp hd hcut

end

theorem Shows.unique {l' : ListedItem D} (h : Shows md5 f x l) (h' : Shows md5 f x l') : l = l' := by
  cases h with
  | object hn =>
    cases h' with
    | object hn' => rw [hn.unique hn']
  | commonPrefix _ =>
    cases h'
    rfl

/-- A page of what is to be shown, from a resume point on. -/
structure IsPage (L : ListedItem D → Prop) (after : Option Text) (max : Nat) (items : List (ListedItem D))
    (truncated : Bool) : Prop where
  sorted : items.Pairwise (·.text < ·.text)
  sound : ∀ l ∈ items, L l ∧ after.all (· < l.text)
  complete : ∀ l, L l → after.all (· < l.text) → l ∈ items ∨ truncated ∧ ∀ l' ∈ items, l'.text < l.text
  full : truncated → items.length = max

variable {listed : List (ListedItem D)}

theorem exists_of_shown (h : List.Forall₂ (Shows md5 f) found listed) :
    (∀ x ∈ found, ∃ l ∈ listed, Shows md5 f x l) ∧ ∀ l ∈ listed, ∃ x ∈ found, Shows md5 f x l := by
  induction h with
  | nil => simp
  | cons hs _ ih => exact ⟨by simpa using ⟨.inl hs, fun x hx => .inr (ih.1 x hx)⟩, by simpa using ⟨.inl hs, fun l hl => .inr (ih.2 l hl)⟩⟩

theorem text_of_shown (h : List.Forall₂ (Shows md5 f) found listed) :
    listed.map ListedItem.text = found.map Found.text := by
  induction h with
  | nil => rfl
  | cons hs _ ih => simp [hs.text_eq, ih]

theorem Collected.isPage {w : Walk} (hempty : delimiter ≠ some []) (h : Collected (queryOf p delimiter after max)
      ((queryOf p delimiter after max).items f.IsObject (f.KeyWith p)) w)
    (hshows : List.Forall₂ (Shows md5 f) (w.found.take max) listed) :
    IsPage (Lists md5 f p delimiter) after max listed (decide (max < w.found.length)) := by
  obtain ⟨hleft, hright⟩ := exists_of_shown hshows
  have hsorted := h.sorted
  rw [← take_append_drop max w.found, pairwise_append] at hsorted
  refine ⟨?_, fun l hl => ?_, fun l hl hpast => ?_, fun htrunc => ?_⟩
  · rw [← pairwise_map (f := ListedItem.text) (R := (· < ·)), text_of_shown hshows, pairwise_map]
    exact hsorted.1
  · obtain ⟨x, hx, hs⟩ := hright l hl
    obtain ⟨hitem, hpast⟩ := h.sound x (mem_of_mem_take hx)
    refine ⟨(lists_iff hempty).mpr ⟨x, hitem, hs⟩, ?_⟩
    rw [hs.text_eq]
    exact hpast
  · obtain ⟨x, hitem, hs⟩ := (lists_iff hempty).mp hl
    rw [hs.text_eq] at hpast ⊢
    -- what was found and is not shown is the one that is found beyond the page
    obtain hx | ⟨hfull, hlt⟩ := h.complete x hitem hpast
    · rw [← take_append_drop max w.found, mem_append] at hx
      obtain hx | hx := hx
      · obtain ⟨l', hl', hs'⟩ := hleft x hx
        exact .inl (hs.unique hs' ▸ hl')
      · refine .inr ⟨?_, fun l' hl' => ?_⟩
        · have := length_pos_of_mem hx
          simp only [length_drop] at this
          exact decide_eq_true (by omega)
        · obtain ⟨x', hx', hs'⟩ := hright l' hl'
          rw [hs'.text_eq]
          exact hsorted.2.2 x' hx' x hx
    · refine .inr ⟨hfull, fun l' hl' => ?_⟩
      obtain ⟨x', hx', hs'⟩ := hright l' hl'
      rw [hs'.text_eq]
      exact hlt x' (mem_of_mem_take hx')
  · rw [← hshows.length_eq, length_take]
    exact min_eq_left (of_decide_eq_true htrunc).le

/-! ### All pages -/

/-- Pages one after another, each from the last that the one before shows, to the first that is not
truncated. -/
inductive PagesFrom (page : Option Text → List (ListedItem D) → Bool → Prop) :
    Option Text → List (List (ListedItem D)) → Prop
  | last {after : Option Text} {items : List (ListedItem D)} (h : page after items false) :
      PagesFrom page after [items]
  | more {after : Option Text} {items : List (ListedItem D)} {l : ListedItem D} {pages : List (List (ListedItem D))}
      (h : page after items true) (hl : items.getLast? = some l) (hrest : PagesFrom page (some l.text) pages) :
      PagesFrom page after (items :: pages)

/-- `pages` show all of `L` from the resume point on, in order. -/
def Exact (L : ListedItem D → Prop) (after : Option Text) (pages : List (List (ListedItem D))) : Prop :=
  pages.flatten.Pairwise (·.text < ·.text) ∧ ∀ l, l ∈ pages.flatten ↔ L l ∧ after.all (· < l.text)

variable {L : ListedItem D → Prop}

theorem exact_last {items : List (ListedItem D)} (h : IsPage L after max items false) : Exact L after [items] := by
  refine ⟨by simpa using h.sorted, fun l => ?_⟩
  rw [flatten_singleton]
  refine ⟨h.sound l, fun hl => ?_⟩
  obtain hmem | ⟨hfalse, -⟩ := h.complete l hl.1 hl.2
  · exact hmem
  · cases hfalse

theorem exact_more {items : List (ListedItem D)} {pages : List (List (ListedItem D))}
    (h : IsPage L after max items true) (hl : items.getLast? = some l)
    (hrest : Exact L (some l.text) pages) : Exact L after (items :: pages) := by
  obtain ⟨init, rfl⟩ := getLast?_eq_some_iff.mp hl
  have hle : ∀ l' ∈ init ++ [l], ¬ l.text < l'.text := fun l' hl' hlt => by
    obtain hl' | hl' := mem_append.mp hl'
    · exact lt_asymm hlt ((pairwise_append.mp h.sorted).2.2 l' hl' l (mem_singleton.mpr rfl))
    · rw [mem_singleton.mp hl'] at hlt
      exact lt_irrefl _ hlt
  obtain ⟨hsorted, hmem⟩ := hrest
  simp only [all_some, decide_eq_true_eq] at hmem
  refine ⟨?_, fun l' => ?_⟩
  · rw [flatten_cons]
    refine pairwise_append.mpr ⟨h.sorted, hsorted, fun a ha b hb => ?_⟩
    exact lt_of_le_of_lt (not_lt.mp (hle a ha)) ((hmem b).mp hb).2
  · rw [flatten_cons, mem_append, hmem]
    constructor
    · rintro (hl' | ⟨hL, hlt⟩)
      · exact h.sound l' hl'
      · refine ⟨hL, ?_⟩
        have hpast := (h.sound l (by simp)).2
        cases after with
        | none => rfl
        | some a =>
          simp only [all_some, decide_eq_true_eq] at hpast ⊢
          exact lt_trans hpast hlt
    · rintro ⟨hL, hpast⟩
      obtain hl' | ⟨-, hlt⟩ := h.complete l' hL hpast
      · exact .inl hl'
      · exact .inr ⟨hL, hlt l (by simp)⟩

/-- Where there is always a page and finitely much to show, the pages come to an end, and are exact. -/
theorem exists_pages {page : Option Text → List (ListedItem D) → Bool → Prop} (hmax : 0 < max)
    {T : Set Text} (hfinite : T.Finite) (hT : ∀ l, L l → l.text ∈ T)
    (hpage : ∀ after, ∃ items truncated, page after items truncated ∧ IsPage L after max items truncated)
    (after : Option Text) : ∃ pages, PagesFrom page after pages ∧ Exact L after pages := by
  induction hn : {t ∈ T | after.all (· < t)}.ncard using Nat.strongRecOn generalizing after with
  | ind n ih =>
    obtain ⟨items, truncated, hp, hitems⟩ := hpage after
    cases truncated with
    | false => exact ⟨[items], .last hp, exact_last hitems⟩
    | true =>
      have hlen := hitems.full rfl
      obtain ⟨l, hl⟩ : ∃ l, items.getLast? = some l := by
        cases hlast : items.getLast? with
        | none =>
          rw [getLast?_eq_none_iff.mp hlast, length_nil] at hlen
          omega
        | some l => exact ⟨l, rfl⟩
      obtain ⟨hL, hpast⟩ := hitems.sound l (mem_of_getLast? hl)
      have hless : {t ∈ T | (some l.text).all (· < t)}.ncard < n := by
        rw [← hn]
        refine ncard_lt_ncard ⟨fun t ht => ?_, fun hsub => ?_⟩ (hfinite.subset fun t ht => ht.1)
        · refine ⟨ht.1, ?_⟩
          have hlt := ht.2
          cases after with
          | none => rfl
          | some a =>
            simp only [all_some, decide_eq_true_eq] at hpast hlt ⊢
            exact lt_trans hpast hlt
        · have := (hsub ⟨hT l hL, hpast⟩).2
          simp only [all_some, decide_eq_true_eq] at this
          exact lt_irrefl _ this
      obtain ⟨pages, hpages, hexact⟩ := ih _ hless (some l.text) rfl
      exact ⟨items :: pages, .more hp hl hpages, exact_more hitems hl hexact⟩

/-! ### Finitely many keys -/

theorem Files.Tree.finite_keyTo (htree : f.Tree) (dir : Nat) : {x : Text × Nat | f.KeyTo dir x.1 x.2}.Finite := by
  obtain ⟨height, hheight⟩ := htree.height
  induction hn : height dir using Nat.strongRecOn generalizing dir with
  | ind n ih =>
    by_cases hdir : ∃ d, f.Has dir d ∧ d.kind = .dir
    · obtain ⟨d, hd, hkind⟩ := hdir
      obtain ⟨entries, -, hmem, -⟩ := htree.entriesOf_spec hd hkind none
      have hsubset : {x : Text × Nat | f.KeyTo dir x.1 x.2} ⊆
          ⋃ e ∈ {e | e ∈ entriesOf none entries}, {x | f.keysAt [] e x.1 x.2} := by
        intro x hx
        obtain ⟨name, e, he, hk⟩ := keyTo_iff.mp hx
        exact mem_biUnion ((hmem e).mpr ⟨name, he, rfl⟩) hk
      refine Finite.subset (Finite.biUnion (finite_toSet _) fun e he => ?_) hsubset
      obtain ⟨name, hs | hs, -⟩ := (hmem e).mp he
      · rw [keysAt_file]
        exact (finite_singleton (([] ++ name : Text), _)).subset fun x hx => Prod.ext hx.1 hx.2
      · rename_i child
        have hlt := hheight hs.names.choose_spec
        refine ((finite_singleton (name ++ ['/'], child)).union
          ((ih _ (hn ▸ hlt) _ rfl).image fun x => (name ++ ['/'] ++ x.1, x.2))).subset ?_
        rintro ⟨k, c⟩ (⟨hk, hc⟩ | ⟨-, t, hk, ht⟩)
        · exact .inl (Prod.ext hk hc)
        · exact .inr ⟨(t, c), ht, Prod.ext hk.symm rfl⟩
    · refine finite_empty.subset fun x hx => hdir ?_
      obtain ⟨name, e, he, -⟩ := keyTo_iff.mp hx
      obtain ⟨kind, hs⟩ := he.sees
      exact ⟨_, hs.names.choose_spec.has, hs.names.choose_spec.isDir⟩

/-- All that a listing shows is a key, or a part of a key. -/
theorem Lists.text_mem (h : Lists md5 f p delimiter l) :
    l.text ∈ ⋃ x ∈ {x : Text × Nat | f.KeyTo rootIno x.1 x.2}, {t | t ∈ x.1.inits} := by
  obtain ⟨hkey, -, -, -, -⟩ | ⟨hkey, -, -, hcut⟩ := h
  · exact mem_biUnion (x := (_, _)) hkey (by simp [ListedItem.text])
  · exact mem_biUnion (x := (_, _)) hkey (by simpa [ListedItem.text] using hcut.isPrefix)

/-- The pages of a listing, on files that stay as they are. -/
def listingPages (f : Files D W) (md5 : Md5 D) (readOnly : Bool) (depth : Nat) (p : Text) (delimiter : Option Text) (max : Nat) :
    Option Text → List (List (ListedItem D)) → Prop :=
  PagesFrom fun after items truncated =>
    Returns f ((bucket md5 readOnly).list depth p delimiter after max) (items, truncated)

theorem queryOf_filter : queryOf p (delimiter.filter (· ≠ [])) after max = queryOf p delimiter after max := by
  simp [queryOf]

theorem exists_listingPages (htree : f.Tree) : ∃ deep, ∀ depth, deep ≤ depth → ∀ p delimiter max, 0 < max →
    ShortSegments p → ∃ pages, listingPages f md5 readOnly depth p delimiter max none pages ∧
      Exact (Lists md5 f p (delimiter.filter (· ≠ []))) none pages := by
  obtain ⟨deep, hdeep⟩ := returns_list md5 readOnly htree
  refine ⟨deep, fun depth hdepth p delimiter max hmax hshort => ?_⟩
  refine exists_pages hmax ((htree.finite_keyTo rootIno).biUnion fun x _ => finite_toSet _)
    (fun l hl => hl.text_mem) (fun after => ?_) none
  obtain ⟨w, listed, hret, hshows, hcollected⟩ := hdeep depth hdepth hmax hshort
  rw [← queryOf_filter] at hcollected
  have hempty : delimiter.filter (· ≠ []) ≠ some [] := by simp [Option.filter_eq_some_iff]
  exact ⟨listed, _, hret, hcollected.isPage hempty hshows⟩

end AtlasNative.S3
