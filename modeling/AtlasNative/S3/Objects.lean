import AtlasNative.S3.Store
import AtlasNative.S3.Frame

/-!
# The object at a key

Where a key leads in the files. In a well-formed tree a directory is found at the path where it was
made, so that the object of a key is told from the inodes alone.
-/

namespace AtlasNative.S3

open Program List Option

variable {D W : Type}

/-! ### Keys and paths -/

/-- A segment that a key may have. -/
def Segment (x : Text) : Prop := refused x = none

variable {x : Text}

theorem Segment.facts (h : Segment x) : ¬ maxNameBytes < utf8Bytes x ∧ reservedPrefix.isPrefixOf x = false := by
  unfold Segment refused at h
  split_ifs at h with _ _ hlong _ hreserved
  exact ⟨hlong, Bool.eq_false_iff.mpr hreserved⟩

variable {key : Text}

/-- The segments of a key, and whether it is a marker. -/
theorem parseKey_eq_ok {p : KeyPath} (h : parseKey key = .ok p) :
    (∀ x ∈ p.dirs ++ p.name.toList, Segment x) ∧
      key = ['/'].intercalate (p.dirs ++ p.name.toList) ++ if p.name.isNone then ['/'] else [] := by
  unfold parseKey at h
  by_cases hmarker : key.getLast? = some '/'
  · simp only [hmarker, if_true, badKey] at h
    split_ifs at h
    split at h
    · cases h
    rename_i hrefused
    obtain rfl := Except.ok.inj h
    refine ⟨fun x hx => findSome?_eq_none_iff.mp hrefused x (by simpa using hx), ?_⟩
    simp only [toList_none, append_nil, isNone_none, if_true, intercalate_splitOn]
    exact (dropLast_append_getLast? '/' hmarker).symm
  · simp only [hmarker, if_false, badKey] at h
    split_ifs at h
    split at h
    · cases h
    rename_i hrefused
    obtain rfl := Except.ok.inj h
    have hne : key.splitOn '/' ≠ [] := splitOn_ne_nil '/' key
    have hlast : (key.splitOn '/').dropLast ++ (key.splitOn '/').getLast?.toList = key.splitOn '/' := by
      rw [getLast?_eq_some_getLast hne]
      exact dropLast_append_getLast hne
    have hsome : (key.splitOn '/').getLast?.isNone = false := by
      rw [getLast?_eq_some_getLast hne]
      rfl
    simp only [hlast, hsome, intercalate_splitOn]
    exact ⟨fun x hx => findSome?_eq_none_iff.mp hrefused x hx, by simp⟩

/-- Different keys have different places. -/
theorem parseKey_inj {key' : Text} {p : KeyPath} (h : parseKey key = .ok p) (h' : parseKey key' = .ok p) : key = key' :=
  (parseKey_eq_ok h).2.trans (parseKey_eq_ok h').2.symm

theorem ofDigitChars_pad (width n : Nat) : Nat.ofDigitChars 10 (pad width n) 0 = n := by
  rw [pad, Nat.ofDigitChars_append, Nat.ofDigitChars_replicate_zero, Nat.mul_zero, Nat.ofDigitChars_ten_toDigits]

theorem tempName_inj {i j : Nat} (h : tempName i = tempName j) : i = j := by
  have hpad : pad 32 i = pad 32 j := append_cancel_left h
  rw [← ofDigitChars_pad 32 i, hpad, ofDigitChars_pad]

theorem isDigit_of_mem_pad {width n : Nat} {c : Char} (h : c ∈ pad width n) : c.isDigit = true := by
  rcases mem_append.mp h with hzero | hdigit
  · rw [eq_of_mem_replicate hzero]
    rfl
  · exact Nat.isDigit_of_mem_toDigits (by decide) (by decide) hdigit

theorem pad_ne_nil (width n : Nat) : pad width n ≠ [] := by
  intro h
  exact Nat.toDigits_ne_nil (append_eq_nil_iff.mp h).2

theorem parseNumber_partName (number : Int) : parseNumber (partName number) = some number := by
  have hdigits : ∀ width n, (pad width n).all Char.isDigit = true :=
    fun width n => all_eq_true.mpr fun c hc => isDigit_of_mem_pad hc
  cases number with
  | ofNat n =>
    obtain ⟨c, t, hpad⟩ := exists_cons_of_ne_nil (pad_ne_nil 5 n)
    have hc : c.isDigit = true := isDigit_of_mem_pad (hpad ▸ mem_cons_self)
    have hminus : c ≠ '-' := by rintro rfl; cases hc
    have hplus : c ≠ '+' := by rintro rfl; cases hc
    have hvalue := ofDigitChars_pad 5 n
    have hall := hdigits 5 n
    rw [hpad] at hvalue hall
    simp only [partName, hpad, parseNumber]
    split
    · rename_i heq
      exact absurd (cons.inj heq).1 hminus
    · rename_i heq
      exact absurd (cons.inj heq).1 hplus
    · simp [hall, hvalue]
  | negSucc n =>
    simp [partName, parseNumber, hdigits, pad_ne_nil, ofDigitChars_pad, Int.negSucc_eq]

theorem partName_ne_tempName (number : Int) (i : Nat) : partName number ≠ tempName i := by
  intro h
  have hdot : (tempName i).head? = some '.' := rfl
  rw [← h] at hdot
  cases number with
  | ofNat n =>
    have hdigit := isDigit_of_mem_pad (mem_of_mem_head? hdot : '.' ∈ pad 5 n)
    cases hdigit
  | negSucc n => cases hdot

theorem Segment.ne_tempName (h : Segment x) (i : Nat) : x ≠ tempName i := by
  rintro rfl
  have hfree := h.facts.2
  rw [show reservedPrefix.isPrefixOf (tempName i) = true from rfl] at hfree
  cases hfree

/-! ### What is at a path -/

namespace Files

variable {f : Files D W} {ino d c : Nat} {path : List Text} {name : Text}

/-- The directory at `path` below `ino`. -/
def find (f : Files D W) (ino : Nat) : List Text → Option Nat
  | [] => some ino
  | x :: path =>
    match f.lookup ino x with
    | .ok a => if a.kind = .dir then f.find a.ino path else none
    | .error _ => none

/-- The inode of the object at `key`: a regular file, or a directory with a marker. -/
def objectAt (f : Files D W) (key : Text) : Option Nat :=
  match parseKey key with
  | .error _ => none
  | .ok ⟨dirs, some name⟩ => do
    let d ← f.find rootIno dirs
    match f.lookup d name with
    | .ok a => if a.kind = .file then some a.ino else none
    | .error _ => none
  | .ok ⟨dirs, none⟩ => do
    let d ← f.find rootIno dirs
    match f.inode d with
    | .ok n => if n.recorded.isSome then some d else none
    | .error _ => none

/-- `d` is a directory, made at `path`. -/
def DirAt (f : Files D W) (path : List Text) (d : Nat) : Prop :=
  ∃ n, f.Has d n ∧ n.kind = .dir ∧ n.path = path

variable {n : Node D W}

theorem dirAt_set {n' : Node D W} (hn : f.Has ino n) (hkind : n'.kind = n.kind)
    (hpath : n'.path = n.path) (hlive : n'.live = n.live) (hd : f.DirAt path d) :
    (f.set ino n').DirAt path d := by
  obtain ⟨m, hm, hk, hp⟩ := hd
  obtain ⟨m', hm', hk', hp', hl'⟩ := node_set (X := fun n n' => n'.kind = n.kind ∧
    n'.path = n.path ∧ n'.live = n.live) (fun _ => ⟨rfl, rfl, rfl⟩) hn ⟨hkind, hpath, hlive⟩ hm.1
  exact ⟨m', ⟨hm', hl'.trans hm.2⟩, hk'.trans hk, hp'.trans hp⟩

variable {nowNs : Int} {parent : Nat} {dn : Node D W}

theorem dirAt_dropped (hd : f.Names parent dn name ino) (hn : f.Has ino n) (hfile : n.kind ≠ .dir)
    (he : f.DirAt path d) : (dropped f nowNs parent dn name ino n).DirAt path d := by
  obtain ⟨m, hm, hk, hp⟩ := he
  obtain ⟨m', hm', hk', hp', hl'⟩ := node_dropped (X := fun n n' => n'.kind = n.kind ∧
    n'.path = n.path ∧ (n.kind = .dir → n'.live = n.live)) (fun _ => ⟨rfl, rfl, fun _ => rfl⟩) hd.has hn
    (fun _ => ⟨rfl, rfl, fun _ => rfl⟩) ⟨rfl, rfl, fun hdir => absurd hdir hfile⟩ hm.1
  exact ⟨m', ⟨hm', (hl' hk).trans hm.2⟩, hk'.trans hk, hp'.trans hp⟩

theorem dirAt_placed {newName : Text} (hd : f.Has parent dn) (hn : f.Has ino n)
    (he : f.DirAt path d) : (placed f nowNs parent dn name newName ino n).DirAt path d := by
  obtain ⟨m, hm, hk, hp⟩ := he
  obtain ⟨m', hm', hk', hp', hl'⟩ := node_placed (X := fun n n' => n'.kind = n.kind ∧
    n'.path = n.path ∧ n'.live = n.live) (fun _ => ⟨rfl, rfl, rfl⟩) hd hn
    (fun _ => ⟨rfl, rfl, rfl⟩) ⟨rfl, rfl, rfl⟩ hm.1
  exact ⟨m', ⟨hm', hl'.trans hm.2⟩, hk'.trans hk, hp'.trans hp⟩

theorem WF.dirAt_root (h : f.WF) : f.DirAt [] rootIno := h.root

theorem WF.dirAt_step (h : f.WF) {a : Attr} (hd : f.DirAt path d) (ha : f.lookup d name = .ok a)
    (hk : a.kind = .dir) : f.DirAt (path ++ [name]) a.ino := by
  obtain ⟨nd, hnd, -, rfl⟩ := hd
  obtain ⟨-, nd', c, nc, hnames, hnc, rfl⟩ := lookup_eq_ok.mp ha
  obtain ⟨-, nd'', nc', hd'', -, hc', hpath⟩ := h.link hnames.linked
  obtain rfl := hd''.unique hnd
  obtain rfl := hc'.unique hnc
  exact ⟨nc', hnc, hk, hpath hk⟩

theorem WF.dirAt_parent (h : f.WF) (hc : f.DirAt (path ++ [name]) c) :
    ∃ d nd, f.DirAt path d ∧ f.Names d nd name c := by
  obtain ⟨n, hn, hk, hpath⟩ := hc
  have hroot : c ≠ rootIno := by
    rintro rfl
    obtain ⟨m, hm, -, hroot⟩ := h.root
    rw [hm.unique hn, hpath] at hroot
    simp at hroot
  obtain ⟨d, x, hl⟩ := h.up hn hroot
  obtain ⟨-, nd, nc, hnd, hdk, hnc, hp⟩ := h.link hl
  obtain rfl := hnc.unique hn
  obtain ⟨hp', rfl⟩ := append_inj' ((hp hk).symm.trans hpath) rfl |>.imp id (cons.inj · |>.1)
  obtain ⟨nd', hd', hx⟩ := hl
  obtain rfl : nd = nd' := mem_unique hnd.1 hd'
  exact ⟨d, nd, ⟨nd, hnd, hdk, hp'⟩, hnd, hdk, hx⟩

theorem WF.dirAt_unique (h : f.WF) {d' : Nat} (hd : f.DirAt path d) (hd' : f.DirAt path d') : d = d' := by
  induction path using reverseRecOn generalizing d d' with
  | nil =>
    have hroot : ∀ {e}, f.DirAt [] e → e = rootIno := by
      rintro e ⟨n, hn, hk, hpath⟩
      by_contra hne
      obtain ⟨p, x, hl⟩ := h.up hn hne
      obtain ⟨-, nd, nc, -, -, hnc, hp⟩ := h.link hl
      obtain rfl := hnc.unique hn
      simp [hp hk] at hpath
    rw [hroot hd, hroot hd']
  | append_singleton path x ih =>
    obtain ⟨e, ne, he, hx⟩ := h.dirAt_parent hd
    obtain ⟨e', ne', he', hx'⟩ := h.dirAt_parent hd'
    obtain rfl := ih he he'
    obtain rfl := hx.has.unique hx'.has
    exact mem_unique hx.entry hx'.entry

theorem WF.dirAt_front (h : f.WF) {rest : List Text} (hd : f.DirAt (path ++ rest) d) : ∃ e, f.DirAt path e := by
  induction rest using reverseRecOn generalizing d with
  | nil => exact ⟨d, by rwa [append_nil] at hd⟩
  | append_singleton rest x ih =>
    rw [← append_assoc] at hd
    obtain ⟨e, -, he, -⟩ := h.dirAt_parent hd
    exact ih he

theorem WF.lookup_of_dirAt (h : f.WF) {front back : List Text} (hx : Segment x)
    (hd : f.DirAt (front ++ x :: back) d) (hino : f.DirAt front ino) :
    ∃ a, f.lookup ino x = .ok a ∧ a.kind = .dir := by
  have hd' : f.DirAt (front ++ [x] ++ back) d := by simpa using hd
  obtain ⟨e, he⟩ := h.dirAt_front hd'
  obtain ⟨p, np, hp, hnames⟩ := h.dirAt_parent he
  obtain rfl := h.dirAt_unique hp hino
  obtain ⟨n, hn, hk, -⟩ := he
  exact ⟨n.attr e, lookup_eq_ok.mpr ⟨hx.facts.1, np, e, n, hnames, hn, rfl⟩, hk⟩

theorem find_append (f : Files D W) (ino : Nat) (path rest : List Text) :
    f.find ino (path ++ rest) = (f.find ino path).bind (f.find · rest) := by
  induction path generalizing ino with
  | nil => rfl
  | cons x path ih =>
    simp only [cons_append, find]
    split
    · split
      · exact ih _
      · rfl
    · rfl

theorem WF.find_iff (h : f.WF) (hpath : ∀ x ∈ path, Segment x) : f.find rootIno path = some d ↔ f.DirAt path d := by
  induction path using reverseRecOn generalizing d with
  | nil =>
    exact ⟨fun hd => some.inj hd ▸ h.dirAt_root, fun hd =>
      congrArg some (h.dirAt_unique h.dirAt_root hd)⟩
  | append_singleton path x ih =>
    have hfront := fun e => ih (d := e) fun y hy => hpath y (mem_append_left _ hy)
    rw [find_append]
    constructor
    · intro hd
      obtain ⟨e, he, hx⟩ := bind_eq_some_iff.mp hd
      simp only [find] at hx
      split at hx
      · split at hx
        · rename_i a ha hk
          exact some.inj hx ▸ h.dirAt_step ((hfront e).mp he) ha hk
        · cases hx
      · cases hx
    · intro hd
      obtain ⟨e, ne, he, hx⟩ := h.dirAt_parent hd
      obtain ⟨n, hn, hk, -⟩ := hd
      have hshort := (hpath x (by simp)).facts.1
      have ha : f.lookup e x = .ok (n.attr d) := lookup_eq_ok.mpr ⟨hshort, ne, d, n, hx, hn, rfl⟩
      refine bind_eq_some_iff.mpr ⟨e, (hfront e).mpr he, ?_⟩
      simp only [find, ha, Node.attr, hk, if_true]

/-- The file `name` in the directory at `path`. -/
def FileAt (f : Files D W) (path : List Text) (name : Text) (c : Nat) : Prop :=
  ∃ d nd n, f.Names d nd name c ∧ nd.path = path ∧ f.Has c n ∧ n.kind = .file

theorem WF.fileAt_placed (h : f.WF) {newName : Text} (hd : f.Names parent dn name ino)
    (hn : f.Has ino n) (hfile : n.kind = .file) :
    (Files.placed f nowNs parent dn name newName ino n).FileAt dn.path newName ino := by
  have hne := h.not_self hd
  exact ⟨parent, touch dn nowNs ((dn.entries.erase name).insert newName ino),
    { n with moved := true, ctimeNs := nowNs },
    ⟨⟨(placed_nodes ..).trans ((if_neg hne.symm).trans (if_pos rfl)), hd.has.2⟩, hd.isDir,
      AList.lookup_insert _⟩, rfl, ⟨(placed_nodes ..).trans (if_pos rfl), hn.2⟩, hfile⟩

/-- A directory with a marker. -/
def MarkAt (f : Files D W) (path : List Text) (c : Nat) : Prop :=
  ∃ n, f.Has c n ∧ n.kind = .dir ∧ n.path = path ∧ n.recorded.isSome = true

theorem WF.fileAt_iff (h : f.WF) : f.FileAt path name c ↔ ∃ d nd n, f.Linked d name c ∧
    f.nodes d = some nd ∧ nd.path = path ∧ f.nodes c = some n ∧ n.kind = .file := by
  constructor
  · rintro ⟨d, nd, n, hnames, hpath, hn, hk⟩
    exact ⟨d, nd, n, hnames.linked, hnames.has.1, hpath, hn.1, hk⟩
  · rintro ⟨d, nd, n, hl, hnd, hpath, hn, hk⟩
    obtain ⟨-, nd', nc, hd, hdk, hc, -⟩ := h.link hl
    obtain rfl : nd = nd' := mem_unique hnd hd.1
    obtain rfl : n = nc := mem_unique hn hc.1
    obtain ⟨nd', hnd', hx⟩ := hl
    obtain rfl : nd = nd' := mem_unique hnd hnd'
    exact ⟨d, nd, n, ⟨hd, hdk, hx⟩, hpath, hc, hk⟩

theorem WF.objectAt_file (h : f.WF) {dirs : List Text} (hkey : parseKey key = .ok ⟨dirs, some name⟩) :
    f.objectAt key = some c ↔ f.FileAt dirs name c := by
  obtain ⟨hseg, -⟩ := parseKey_eq_ok hkey
  have hfind := fun d => h.find_iff (d := d) fun x hx => hseg x (mem_append_left _ hx)
  have hshort := (hseg name (by simp)).facts.1
  simp only [objectAt, hkey]
  refine bind_eq_some_iff.trans ⟨?_, ?_⟩
  · rintro ⟨d, hd, ha⟩
    obtain ⟨nd, hnd, -, hpath⟩ := (hfind d).mp hd
    split at ha
    · rename_i a ha'
      split at ha
      · obtain ⟨-, nd', c', n, hnames, hn, rfl⟩ := lookup_eq_ok.mp ha'
        obtain rfl := hnames.has.unique hnd
        obtain rfl : c' = c := some.inj ha
        exact ⟨d, nd', n, hnames, hpath, hn, ‹_›⟩
      · cases ha
    · cases ha
  · rintro ⟨d, nd, n, hnames, rfl, hn, hk⟩
    have ha : f.lookup d name = .ok (n.attr c) := lookup_eq_ok.mpr ⟨hshort, nd, c, n, hnames, hn, rfl⟩
    refine ⟨d, (hfind d).mpr ⟨nd, hnames.has, hnames.isDir, rfl⟩, ?_⟩
    simp only [ha, Node.attr, hk, if_true]

/-- The object is what a look-up in the key's directory finds. -/
theorem WF.lookup_of_fileAt (h : f.WF) (hname : Segment name) (hc : f.FileAt path name c)
    (hd : f.DirAt path d) : ∃ n, f.Has c n ∧ n.kind = .file ∧ f.lookup d name = .ok (n.attr c) := by
  obtain ⟨e, ne, n, hnames, hpath, hn, hk⟩ := hc
  obtain rfl := h.dirAt_unique ⟨ne, hnames.has, hnames.isDir, hpath⟩ hd
  exact ⟨n, hn, hk, lookup_eq_ok.mpr ⟨hname.facts.1, ne, c, n, hnames, hn, rfl⟩⟩

theorem WF.objectAt_mark (h : f.WF) {dirs : List Text} (hkey : parseKey key = .ok ⟨dirs, none⟩) :
    f.objectAt key = some c ↔ f.MarkAt dirs c := by
  obtain ⟨hseg, -⟩ := parseKey_eq_ok hkey
  have hfind := fun d => h.find_iff (d := d) fun x hx => hseg x (mem_append_left _ hx)
  simp only [objectAt, hkey]
  refine bind_eq_some_iff.trans ⟨?_, ?_⟩
  · rintro ⟨d, hd, ha⟩
    obtain ⟨nd, hnd, hk, hpath⟩ := (hfind d).mp hd
    rw [inode_eq_ok.mpr hnd] at ha
    dsimp only at ha
    split at ha
    · exact some.inj ha ▸ ⟨nd, hnd, hk, hpath, ‹_›⟩
    · cases ha
  · rintro ⟨n, hn, hk, hpath, hrec⟩
    refine ⟨c, (hfind c).mpr ⟨n, hn, hk, hpath⟩, ?_⟩
    rw [inode_eq_ok.mpr hn]
    exact if_pos hrec

end Files

end AtlasNative.S3
