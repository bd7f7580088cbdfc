import AtlasNative.S3.Walk

/-!
# Prefixes and directories

A prefix is a path of directories and the beginning of a name. The keys with that prefix are the keys in
the directory at that path whose first name begins so, and the path itself.
-/

namespace AtlasNative.S3

open Program S3.Bucket List Files

/-- The key of a directory: each name on the way with `/` after it. -/
def joinDirs (dirs : List Text) : Text := dirs.flatMap (· ++ ['/'])

@[simp] theorem joinDirs_cons (x : Text) (dirs : List Text) : joinDirs (x :: dirs) = x ++ '/' :: joinDirs dirs := by
  simp [joinDirs]

/-- It is empty, or ends in `/`. -/
def Closed (t : Text) : Prop := ∀ c, t.getLast? = some c → c = '/'

theorem Closed.of_append {a b : Text} (h : Closed (a ++ b)) : Closed b := fun c hc => by
  refine h c ?_
  rw [getLast?_append, hc]
  rfl

variable {t : Text}

theorem Closed.eq_nil (h : Closed t) (hslash : '/' ∉ t) : t = [] := by
  cases hlast : t.getLast? with
  | none => exact getLast?_eq_none_iff.mp hlast
  | some c =>
    refine absurd (h c hlast ▸ mem_of_getLast? hlast) hslash

theorem splitPrefix_spec (p : Text) : (splitPrefix p).1 ++ (splitPrefix p).2 = p ∧
    Closed (splitPrefix p).1 ∧ '/' ∉ (splitPrefix p).2 := by
  refine ⟨rdropWhile_append_rtakeWhile, fun c hc => ?_, fun hmem => ?_⟩
  · change (p.rdropWhile (· != '/')).getLast? = some c at hc
    have hne : p.rdropWhile (· != '/') ≠ [] := fun h => by simp [h] at hc
    have hlast := rdropWhile_last_not (· != '/') p hne
    rw [getLast?_eq_some_getLast hne] at hc
    rw [Option.some.inj hc] at hlast
    simpa using hlast
  · simpa using mem_rtakeWhile_imp hmem

variable {dirs : List Text}

theorem splitOn_joinDirs (h : ∀ x ∈ dirs, '/' ∉ x) (rest : Text) (hrest : '/' ∉ rest) :
    (joinDirs dirs ++ rest).splitOn '/' = dirs ++ [rest] := by
  induction dirs with
  | nil => exact splitOn_eq_singleton hrest
  | cons x dirs ih =>
    rw [forall_mem_cons] at h
    rw [joinDirs_cons, append_assoc, cons_append, splitOn_append_cons_self_of_not_mem h.1, ih h.2]
    rfl

theorem count_joinDirs (h : ∀ x ∈ dirs, '/' ∉ x) : (joinDirs dirs).count '/' = dirs.length := by
  induction dirs with
  | nil => rfl
  | cons x dirs ih =>
    rw [forall_mem_cons] at h
    simp [count_eq_zero_of_not_mem h.1, ih h.2]

variable {x : Text}

theorem dirsOf_cons (hx : '/' ∉ x) : dirsOf (x ++ '/' :: t) = (if x = [] then [] else [x]) ++ dirsOf t := by
  unfold dirsOf
  rw [splitOn_append_cons_self_of_not_mem hx, filter_cons]
  split <;> split <;> simp_all

/-- A path has no more names than slashes; if it has as many, it is those names. -/
theorem dirsOf_spec {path : Text} (h : Closed path) : (∀ x ∈ dirsOf path, '/' ∉ x) ∧
    (dirsOf path).length ≤ path.count '/' ∧
      ((dirsOf path).length = path.count '/' → joinDirs (dirsOf path) = path) := by
  induction hn : path.length using Nat.strongRecOn generalizing path with
  | ind n ih =>
    by_cases hslash : '/' ∈ path
    · obtain ⟨x, t, rfl, hx⟩ := eq_append_cons_of_mem hslash
      have ht : Closed t := Closed.of_append (a := x ++ ['/']) (by simpa using h)
      obtain ⟨hmem, hle, hjoin⟩ := ih t.length (by simp at hn; omega) ht rfl
      have hcount : (x ++ '/' :: t).count '/' = t.count '/' + 1 := by
        simp [count_eq_zero_of_not_mem hx]
      rw [dirsOf_cons hx, hcount]
      split
      · refine ⟨by simpa using hmem, by simp; omega, fun hlen => ?_⟩
        simp at hlen
        omega
      · refine ⟨by simpa using ⟨hx, hmem⟩, by simp; omega, fun hlen => ?_⟩
        simp at hlen
        simp [hjoin (by omega)]
    · rw [h.eq_nil hslash]
      exact ⟨by decide, by decide, fun _ => rfl⟩

theorem dirsOf_joinDirs (h : ∀ x ∈ dirs, '/' ∉ x ∧ x ≠ []) : dirsOf (joinDirs dirs) = dirs := by
  have hsplit := splitOn_joinDirs (fun x hx => (h x hx).1) [] not_mem_nil
  rw [append_nil] at hsplit
  rw [dirsOf, hsplit]
  simpa using fun x hx => (h x hx).2

/-! ### Directories on the way -/

variable {dir c start : Nat}

namespace Files

variable {D W : Type} {f : Files D W}

/-- Names that lead from a directory to another. -/
inductive Leads (f : Files D W) : Nat → List Text → Nat → Prop
  | nil (dir : Nat) : Leads f dir [] dir
  | cons {dir c start : Nat} {x : Text} {dirs : List Text} (h : f.Sees dir x c .dir)
      (hrest : Leads f c dirs start) : Leads f dir (x :: dirs) start

theorem KeyTo.split (htree : f.Tree) {key path : Text} (h : f.KeyTo dir key c)
    (hpath : path <+: key) (hclosed : Closed path) :
    ∃ dirs start, path = joinDirs dirs ∧ f.Leads dir dirs start ∧
      ((∃ t, key = path ++ t ∧ f.KeyTo start t c) ∨ key = path ∧ c = start ∧ path ≠ []) := by
  obtain rfl | hne := eq_or_ne path []
  · exact ⟨[], dir, rfl, .nil dir, .inl ⟨key, rfl, h⟩⟩
  -- a path that is not empty goes beyond the first name
  have hfirst : ∀ {path dir name c kind}, path ≠ [] → Closed path → f.Sees dir name c kind →
      path <+: name ++ ['/'] → path = name ++ ['/'] := fun hne hclosed hs hp => by
    obtain heq | hp := prefix_concat_iff.mp hp
    · exact heq
    · refine absurd (hclosed.eq_nil fun hslash => ?_) hne
      exact (htree.name hs.names.choose_spec).noSlash (hp.subset hslash)
  induction h generalizing path with
  | file hs =>
    have hp := hfirst hne hclosed hs (hpath.trans (prefix_append ..))
    exact absurd (hpath.length_le) (by rw [hp]; simp)
  | dir hs =>
    obtain rfl := hfirst hne hclosed hs hpath
    exact ⟨[_], _, by simp [joinDirs], .cons hs (.nil _), .inr ⟨rfl, rfl, hne⟩⟩
  | @inside dir c c' name key hs hkey ih =>
    have hhere : path = name ++ ['/'] → ∃ dirs start, path = joinDirs dirs ∧ f.Leads dir dirs start ∧
        ((∃ t, name ++ ['/'] ++ key = path ++ t ∧ f.KeyTo start t c') ∨
          name ++ ['/'] ++ key = path ∧ c' = start ∧ path ≠ []) := fun h =>
      ⟨[name], c, by simp [h, joinDirs], .cons hs (.nil _), .inl ⟨key, by rw [h], hkey⟩⟩
    obtain hp | ⟨p, rfl⟩ := prefix_or_prefix_of_prefix hpath (prefix_append (name ++ ['/']) key)
    · exact hhere (hfirst hne hclosed hs hp)
    · obtain rfl | hne' := eq_or_ne p []
      · exact hhere (append_nil _)
      · obtain ⟨dirs, start, rfl, hlead, hend⟩ := ih ((prefix_append_right_inj _).mp hpath) hclosed.of_append hne'
        refine ⟨name :: dirs, start, by simp, .cons hs hlead, hend.imp ?_ ?_⟩
        · rintro ⟨t, rfl, ht⟩
          exact ⟨t, by simp, ht⟩
        · rintro ⟨rfl, rfl, -⟩
          exact ⟨rfl, rfl, hne⟩

theorem Leads.names (htree : f.Tree) (h : f.Leads dir dirs start) :
    ∀ x ∈ dirs, FileName x ∧ ¬ reservedPrefix <+: x := by
  induction h with
  | nil => simp
  | cons hs _ ih => exact forall_mem_cons.mpr ⟨⟨htree.name hs.names.choose_spec, hs.visible⟩, ih⟩

section

variable (h : f.Leads dir dirs start)
include h

/-- The keys below a directory are those that go on from its key. -/
theorem Leads.keyTo (ht : f.KeyTo start t c) : f.KeyTo dir (joinDirs dirs ++ t) c := by
  induction h with
  | nil => exact ht
  | cons hs _ ih => simpa using KeyTo.inside hs (ih ht)

theorem Leads.keyTo_self (hne : dirs ≠ []) : f.KeyTo dir (joinDirs dirs) start := by
  induction h with
  | nil => exact absurd rfl hne
  | @cons dir c start x dirs hs hrest ih =>
    cases hrest with
    | nil => simpa [joinDirs] using KeyTo.dir hs
    | cons _ _ => simpa using KeyTo.inside hs (ih (cons_ne_nil _ _))

theorem Leads.isDir (hdir : ∃ d, f.Has dir d ∧ d.kind = .dir) : ∃ d, f.Has start d ∧ d.kind = .dir := by
  induction h with
  | nil => exact hdir
  | cons hs _ ih => exact ih hs.has

omit h in
theorem Sees.eq_of_names {c' : Nat} {d : Node D W} {kind : NodeType} (hs : f.Sees dir x c kind)
    (hnames : f.Names dir d x c') : c = c' := by
  obtain ⟨d', hd'⟩ := hs.names
  obtain rfl := hd'.has.unique hnames.has
  exact Option.mem_unique hd'.entry hnames.entry

theorem Leads.unique {start' : Nat} (h' : f.Leads dir dirs start') : start = start' := by
  induction h with
  | nil =>
    cases h'
    rfl
  | cons hs _ ih =>
    cases h' with
    | cons hs' hrest' =>
      obtain rfl := hs'.eq_of_names hs.names.choose_spec
      exact ih hrest'

end

end Files

variable {D W : Type} {f : Files D W} (md5 : Md5 D) (readOnly : Bool)

theorem Files.lookup_noent {d : Node D W} (hd : f.Has dir d) (hkind : d.kind = .dir)
    (hshort : utf8Bytes x ≤ maxNameBytes) (hnone : d.entries.lookup x = none) :
    f.lookup dir x = .error .noent := by
  rw [lookup, checkName, if_neg (by omega)]
  simp only [entry, dir_eq_ok.mpr ⟨hd, hkind⟩, bind, Except.bind, hnone]

theorem returns_lookup {d : Node D W} (htree : f.Tree) (hd : f.Has dir d) (hkind : d.kind = .dir)
    (hshort : utf8Bytes x ≤ maxNameBytes) :
    d.entries.lookup x = none ∧ Returns f ((bucket md5 readOnly).lookup dir x) none ∨
      ∃ c n, f.Names dir d x c ∧ f.Has c n ∧ Returns f ((bucket md5 readOnly).lookup dir x) (some (n.attr c)) := by
  cases hlookup : d.entries.lookup x with
  | none =>
    refine .inl ⟨rfl, Returns.ask (.lookup dir x) (.error .noent) (fun who nowNs => ?_) (Returns.pure _)⟩
    rw [perform, lookup_noent hd hkind hshort hlookup]
    rfl
  | some c =>
    have hnames : f.Names dir d x c := ⟨hd, hkind, hlookup⟩
    obtain ⟨n, hn⟩ := htree.live hnames
    refine .inr ⟨c, n, hnames, hn, Returns.ask (.lookup dir x) (.ok (n.attr c)) (fun who nowNs => ?_) (Returns.pure _)⟩
    rw [perform, lookup_eq_ok.mpr ⟨by omega, d, c, n, hnames, hn, rfl⟩]
    rfl

theorem returns_findFrom (htree : f.Tree) (hdir : ∃ d, f.Has dir d ∧ d.kind = .dir)
    (hdirs : ∀ x ∈ dirs, utf8Bytes x ≤ maxNameBytes ∧ ¬ reservedPrefix <+: x) :
    ∃ r, Returns f ((bucket md5 readOnly).findFrom dir dirs) r ∧ ∀ start, r = some start ↔ f.Leads dir dirs start := by
  induction dirs generalizing dir with
  | nil =>
    refine ⟨some dir, Returns.pure _, fun start => ⟨fun h => ?_, fun h => ?_⟩⟩
    · cases h
      exact .nil dir
    · cases h
      rfl
  | cons x dirs ih =>
    obtain ⟨d, hd, hkind⟩ := hdir
    obtain ⟨⟨hshort, hvisible⟩, hdirs⟩ := forall_mem_cons.mp hdirs
    obtain ⟨hnone, hret⟩ | ⟨c, n, hnames, hn, hret⟩ := returns_lookup md5 readOnly htree hd hkind hshort
    · refine ⟨none, hret.bind (Returns.pure _), fun start => ⟨nofun, fun h => ?_⟩⟩
      cases h with
      | cons hs _ =>
        obtain ⟨d', hnames⟩ := hs.names
        obtain rfl := hd.unique hnames.has
        rw [hnames.entry] at hnone
        cases hnone
    · by_cases hdir : n.kind = .dir
      · obtain ⟨r, hr, hlead⟩ := ih ⟨n, hn, hdir⟩ hdirs
        refine ⟨r, hret.bind ?_, fun start => (hlead start).trans ⟨fun h => ?_, fun h => ?_⟩⟩
        · change Returns f (if n.kind = .dir then _ else _) r
          rwa [if_pos hdir]
        · exact .cons ⟨⟨d, hnames⟩, hvisible, n, hn, hdir⟩ h
        · cases h with
          | cons hs hrest => exact hs.eq_of_names hnames ▸ hrest
      · refine ⟨none, hret.bind ?_, fun start => ⟨nofun, fun h => ?_⟩⟩
        · change Returns f (if n.kind = .dir then _ else _) none
          rw [if_neg hdir]
          exact Returns.pure _
        · cases h with
          | cons hs hrest =>
            obtain rfl := hs.eq_of_names hnames
            obtain ⟨m, hm, hkind⟩ := hs.has
            exact absurd (hm.unique hn ▸ hkind) hdir

/-! ### The keys with a prefix -/

/-- What begins a key with a whole name before it is a beginning of the name. -/
theorem Files.EntryAt.isPrefix_name {name rest : Text} {e : Entry} (he : f.EntryAt dir name e)
    (ht : f.keysAt [] e t c) (hrest : '/' ∉ rest) : rest <+: t ↔ rest <+: name := by
  have hname : name <+: e.rel := by
    cases he with
    | file _ => exact prefix_rfl
    | dir _ => exact prefix_append ..
  have hrel : e.rel <+: t := ht.isPrefix
  refine ⟨fun h => ?_, fun h => h.trans (hname.trans hrel)⟩
  obtain h | hlong := prefix_or_prefix_of_prefix h (hname.trans hrel)
  · exact h
  cases he with
  | file hs =>
    rw [keysAt_file] at ht
    rwa [ht.1] at h
  | dir hs =>
    -- what goes beyond the name of a directory has its `/`
    obtain ⟨u, rfl⟩ := hlong
    cases u with
    | nil => simp
    | cons y u =>
      obtain ⟨v, rfl⟩ := hrel
      rw [append_assoc, prefix_append_right_inj, singleton_append, cons_prefix_cons] at h
      exact absurd (by simp [h.1]) hrest

section Prefix

variable {p dirPath rest : Text} (hsplit : splitPrefix p = (dirPath, rest))
include hsplit

/-- The keys that a listing is about. -/
def Files.KeyWith (f : Files D W) (p k : Text) (c : Nat) : Prop := f.KeyTo rootIno k c ∧ p <+: k

theorem Files.KeyWith.leads (htree : f.Tree) {k : Text} (h : f.KeyWith p k c) :
    ∃ dirs start, dirPath = joinDirs dirs ∧ f.Leads rootIno dirs start ∧
      ((∃ t, k = dirPath ++ t ∧ f.KeyTo start t c ∧ rest <+: t) ∨
        k = dirPath ∧ c = start ∧ dirPath ≠ [] ∧ rest = []) := by
  obtain ⟨hp, hclosed, -⟩ := hsplit ▸ splitPrefix_spec p
  rw [← hp] at h
  obtain ⟨dirs, start, hdirs, hlead, hend⟩ := h.1.split htree ((prefix_append ..).trans h.2) hclosed
  refine ⟨dirs, start, hdirs, hlead, ?_⟩
  obtain ⟨t, rfl, ht⟩ | ⟨rfl, rfl, hne⟩ := hend
  · exact .inl ⟨t, rfl, ht, (prefix_append_right_inj _).mp h.2⟩
  · refine .inr ⟨rfl, rfl, hne, ?_⟩
    simpa using h.2.eq_of_length_le (by simp)

/-- They are in the directory at the prefix, or are its own. -/
theorem Files.keyWith_iff (htree : f.Tree) (hdirs : dirPath = joinDirs dirs)
    (hlead : f.Leads rootIno dirs start) {k : Text} :
    f.KeyWith p k c ↔ (dirPath ≠ [] ∧ rest = [] ∧ k = dirPath ∧ c = start) ∨
      keysIn f start dirPath (some rest) k c := by
  obtain ⟨hp, hclosed, hslash⟩ := hsplit ▸ splitPrefix_spec p
  have hnames : ∀ {dirs start}, f.Leads rootIno dirs start → dirsOf (joinDirs dirs) = dirs := fun h =>
    dirsOf_joinDirs fun x hx => ⟨(h.names htree x hx).1.noSlash, (h.names htree x hx).1.nonempty⟩
  constructor
  · intro h
    obtain ⟨dirs', start', hdirs', hlead', hend⟩ := h.leads hsplit htree
    obtain rfl : dirs' = dirs := by rw [← hnames hlead', ← hnames hlead, ← hdirs, ← hdirs']
    obtain rfl := hlead.unique hlead'
    obtain ⟨t, rfl, ht, hrest⟩ | ⟨rfl, rfl, hne, hempty⟩ := hend
    · obtain ⟨name, e, he, hk⟩ := keyTo_iff.mp ht
      refine .inr ⟨name, e, he, ?_, keysAt.append.mpr ⟨t, rfl, hk⟩⟩
      simpa using (he.isPrefix_name hk hslash).mp hrest
    · exact .inl ⟨hne, hempty, rfl, rfl⟩
  · rintro (⟨hne, rfl, rfl, rfl⟩ | ⟨name, e, he, hfilter, hk⟩)
    · rw [append_nil] at hp
      refine ⟨?_, hp ▸ prefix_rfl⟩
      rw [hdirs] at hne ⊢
      exact hlead.keyTo_self fun h => hne (h ▸ rfl)
    · obtain ⟨t, rfl, ht⟩ := keysAt.append.mp hk
      refine ⟨?_, ?_⟩
      · rw [hdirs]
        exact hlead.keyTo (keyTo_iff.mpr ⟨name, e, he, ht⟩)
      · rw [← hp, prefix_append_right_inj]
        exact (he.isPrefix_name ht hslash).mpr (by simpa using hfilter)

end Prefix

end AtlasNative.S3
