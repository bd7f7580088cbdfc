import AtlasNative.S3.Files

/-!
# What a request does to the files

For each request that changes the files, what it found and what it left; from that, what every request
keeps: the tree is well formed, and an inode keeps its kind, its maker and its place.
-/

namespace AtlasNative.S3

open Except Option Files AList Function

variable {D W α β : Type}

theorem Except.bind_eq_ok {ε : Type} {x : Except ε α} {k : α → Except ε β} {v : β} :
    (x >>= k) = .ok v ↔ ∃ a, x = .ok a ∧ k a = .ok v := by
  cases x with
  | error e => exact ⟨nofun, fun ⟨_, h, _⟩ => nomatch h⟩
  | ok a => exact ⟨fun h => ⟨a, rfl, h⟩, fun ⟨_, h, hk⟩ => ok.inj h ▸ hk⟩

variable {i : Nat} {n m : Node D W} {kind : NodeType}

namespace Files

variable {f f' : Files D W} {who : W} {nowNs : Int} {ino parent : Nat} {name newName : Text}

@[simp] theorem set_nodes_self (f : Files D W) (ino : Nat) (n : Node D W) :
    (f.set ino n).nodes ino = some n := update_self ..

theorem set_nodes_ne (h : i ≠ ino) (n : Node D W) : (f.set ino n).nodes i = f.nodes i := update_of_ne h ..

theorem set_nodes (f : Files D W) (ino : Nat) (n : Node D W) (i : Nat) :
    (f.set ino n).nodes i = if i = ino then some n else f.nodes i := update_apply ..

/-- A live inode. -/
def Has (f : Files D W) (ino : Nat) (n : Node D W) : Prop := f.nodes ino = some n ∧ n.live = true

/-- `name` names `ino` in the directory `parent`, whose inode is `d`. -/
structure Names (f : Files D W) (parent : Nat) (d : Node D W) (name : Text) (ino : Nat) : Prop where
  has : f.Has parent d
  isDir : d.kind = .dir
  entry : d.entries.lookup name = some ino

theorem inode_eq_ok : f.inode ino = .ok n ↔ f.Has ino n := by
  unfold inode Has
  split
  · rename_i m hm
    rw [hm]
    split
    · rename_i hlive
      exact ⟨fun h => ok.inj h ▸ ⟨rfl, hlive⟩, fun h => congrArg _ (some.inj h.1)⟩
    · rename_i hdead
      exact ⟨nofun, fun h => absurd (some.inj h.1 ▸ h.2) hdead⟩
  · rename_i hnone
    exact ⟨nofun, fun h => by rw [hnone] at h; cases h.1⟩

theorem dir_eq_ok : f.dir ino = .ok n ↔ f.Has ino n ∧ n.kind = .dir := by
  unfold dir
  rw [Except.bind_eq_ok]
  constructor
  · rintro ⟨m, hm, h⟩
    split at h
    · exact ok.inj h ▸ ⟨inode_eq_ok.mp hm, ‹_›⟩
    · cases h
  · rintro ⟨hn, hk⟩
    exact ⟨n, inode_eq_ok.mpr hn, if_pos hk⟩

theorem file_eq_ok : f.file ino = .ok n ↔ f.Has ino n ∧ n.kind ≠ .dir := by
  unfold file
  rw [Except.bind_eq_ok]
  constructor
  · rintro ⟨m, hm, h⟩
    split at h
    · cases h
    · exact ok.inj h ▸ ⟨inode_eq_ok.mp hm, ‹_›⟩
  · rintro ⟨hn, hk⟩
    exact ⟨n, inode_eq_ok.mpr hn, if_neg hk⟩

theorem entry_eq_ok : f.entry parent name = .ok ino ↔ ∃ d, f.Names parent d name ino := by
  unfold entry
  rw [Except.bind_eq_ok]
  constructor
  · rintro ⟨d, hd, h⟩
    obtain ⟨hhas, hk⟩ := dir_eq_ok.mp hd
    split at h
    · rename_i i hi
      exact ⟨d, hhas, hk, by rw [hi, ok.inj h]⟩
    · cases h
  · rintro ⟨d, h⟩
    refine ⟨d, dir_eq_ok.mpr ⟨h.has, h.isDir⟩, ?_⟩
    rw [h.entry]

theorem Has.unique (h : f.Has ino n) (h' : f.Has ino m) : n = m := mem_unique h.1 h'.1

theorem names_of_ok (hino : f.entry parent name = .ok ino) (hd : f.dir parent = .ok n) : f.Names parent n name ino := by
  obtain ⟨d, hnames⟩ := entry_eq_ok.mp hino
  exact hnames.has.unique (dir_eq_ok.mp hd).1 ▸ hnames

variable {a : Attr}

theorem lookup_eq_ok : f.lookup parent name = .ok a ↔ ¬ maxNameBytes < utf8Bytes name ∧
      ∃ d ino n, f.Names parent d name ino ∧ f.Has ino n ∧ a = n.attr ino := by
  unfold lookup checkName
  rw [Except.bind_eq_ok]
  constructor
  · rintro ⟨⟨⟩, hname, h⟩
    obtain ⟨ino, hino, h⟩ := Except.bind_eq_ok.mp h
    obtain ⟨n, hn, h⟩ := Except.bind_eq_ok.mp h
    obtain ⟨d, hd⟩ := entry_eq_ok.mp hino
    refine ⟨fun hlong => ?_, d, ino, n, hd, inode_eq_ok.mp hn, (ok.inj h).symm⟩
    rw [if_pos hlong] at hname
    cases hname
  · rintro ⟨hshort, d, ino, n, hd, hn, rfl⟩
    refine ⟨(), if_neg hshort, Except.bind_eq_ok.mpr ⟨ino, entry_eq_ok.mpr ⟨d, hd⟩, ?_⟩⟩
    exact Except.bind_eq_ok.mpr ⟨n, inode_eq_ok.mpr hn, rfl⟩

theorem getattr_eq_ok : f.getattr ino = .ok a ↔ ∃ n, f.Has ino n ∧ a = n.attr ino := by
  unfold getattr
  rw [Except.bind_eq_ok]
  constructor
  · rintro ⟨n, hn, h⟩
    exact ⟨n, inode_eq_ok.mp hn, (ok.inj h).symm⟩
  · rintro ⟨n, hn, rfl⟩
    exact ⟨n, inode_eq_ok.mpr hn, rfl⟩

theorem recorded_eq_ok {m : Option (ObjectMeta D)} (h : (f.inode ino).map Node.recorded = .ok m) :
    ∃ n, f.Has ino n ∧ n.recorded = m := by
  cases hinode : f.inode ino with
  | error e =>
    rw [hinode] at h
    cases h
  | ok n =>
    rw [hinode] at h
    exact ⟨n, inode_eq_ok.mp hinode, ok.inj h⟩

theorem read_eq_ok {offset len : Nat} {data : Bytes} (h : f.read ino offset len = .ok data) :
    ∃ n, f.Has ino n ∧ n.kind ≠ .dir ∧ data = (n.data.drop offset).take len := by
  obtain ⟨n, hn, h⟩ := Except.bind_eq_ok.mp h
  split at h
  · cases h
  · exact ⟨n, inode_eq_ok.mp hn, ‹_›, (ok.inj h).symm⟩

theorem mem_readdir {entries : List DirEntry} (h : f.readdir ino = .ok entries) {e : DirEntry} (he : e ∈ entries) :
    ∃ d n, f.Names ino d e.name e.ino ∧ f.nodes e.ino = some n ∧ n.kind = e.kind := by
  obtain ⟨d, hd, h⟩ := Except.bind_eq_ok.mp h
  obtain ⟨hhas, hk⟩ := dir_eq_ok.mp hd
  rw [← ok.inj h] at he
  obtain ⟨s, hs, hse⟩ := List.mem_filterMap.mp (List.mem_filter.mp he).1
  obtain ⟨n, hn, rfl⟩ := map_eq_some_iff.mp hse
  exact ⟨d, n, ⟨hhas, hk, mem_lookup_iff.mpr hs⟩, hn, rfl⟩

/-! ### The requests that change the files -/

/-- The node that `mknode` makes. -/
def fresh (who : W) (nowNs : Int) (d : Node D W) (name : Text) (kind : NodeType) : Node D W :=
  { kind := kind, maker := some who, path := d.path ++ [name], mtimeNs := nowNs, ctimeNs := nowNs }

/-- The files after `mknode`. -/
def made (f : Files D W) (who : W) (nowNs : Int) (parent : Nat) (d : Node D W) (name : Text)
    (kind : NodeType) : Files D W :=
  { (f.set parent (touch d nowNs (d.entries.insert name f.next))).set f.next
      (fresh who nowNs d name kind) with next := f.next + 1 }

theorem mknode_eq_ok (h : f.mknode who nowNs parent name kind = .ok (a, f')) :
    ∃ d, f.Has parent d ∧ d.kind = .dir ∧ d.entries.lookup name = none ∧ a = (fresh who nowNs d name kind).attr f.next ∧
      f' = made f who nowNs parent d name kind := by
  obtain ⟨-, -, h⟩ := Except.bind_eq_ok.mp h
  obtain ⟨d, hd, h⟩ := Except.bind_eq_ok.mp h
  obtain ⟨hhas, hk⟩ := dir_eq_ok.mp hd
  split at h
  · cases h
  · rename_i hnone
    obtain ⟨rfl, rfl⟩ := Prod.mk.inj (ok.inj h)
    exact ⟨d, hhas, hk, by simpa using hnone, rfl, rfl⟩

variable {u : Unit}

theorem setRecorded_eq_ok {m : ObjectMeta D} (h : f.setRecorded nowNs ino m = .ok (u, f')) :
    ∃ n, f.Has ino n ∧ f' = f.set ino { n with recorded := some m, ctimeNs := nowNs } := by
  obtain ⟨n, hn, h⟩ := Except.bind_eq_ok.mp h
  exact ⟨n, inode_eq_ok.mp hn, (Prod.mk.inj (ok.inj h)).2.symm⟩

theorem removeRecorded_eq_ok (h : f.removeRecorded nowNs ino = .ok (u, f')) :
    ∃ n, f.Has ino n ∧ f' = f.set ino { n with recorded := none, ctimeNs := nowNs } := by
  obtain ⟨n, hn, h⟩ := Except.bind_eq_ok.mp h
  split at h
  · cases h
  · exact ⟨n, inode_eq_ok.mp hn, (Prod.mk.inj (ok.inj h)).2.symm⟩

theorem setUpload_eq_ok {m : UploadMeta} (h : f.setUpload nowNs ino m = .ok (u, f')) :
    ∃ n, f.Has ino n ∧ f' = f.set ino { n with upload := some m, ctimeNs := nowNs } := by
  obtain ⟨n, hn, h⟩ := Except.bind_eq_ok.mp h
  exact ⟨n, inode_eq_ok.mp hn, (Prod.mk.inj (ok.inj h)).2.symm⟩

theorem change_eq_ok {edit : Bytes → Bytes} (h : f.change nowNs ino edit = .ok (u, f')) :
    ∃ n, f.Has ino n ∧ n.kind ≠ .dir ∧ f' = f.set ino (n.rewritten (edit n.data) nowNs) := by
  obtain ⟨n, hn, h⟩ := Except.bind_eq_ok.mp h
  obtain ⟨hhas, hk⟩ := file_eq_ok.mp hn
  exact ⟨n, hhas, hk, (Prod.mk.inj (ok.inj h)).2.symm⟩

/-- The files after `rename`, before what had the name goes. -/
def placed (f : Files D W) (nowNs : Int) (parent : Nat) (d : Node D W) (name newName : Text) (src : Nat)
    (n : Node D W) : Files D W :=
  (f.set parent (touch d nowNs ((d.entries.erase name).insert newName src))).set src
    { n with moved := true, ctimeNs := nowNs }

theorem rename_eq_ok (h : f.rename nowNs parent name newName = .ok (u, f')) :
    ∃ d src n, f.Names parent d name src ∧ f.Has src n ∧ n.kind ≠ .dir ∧
      (d.entries.lookup newName = none ∧ f' = placed f nowNs parent d name newName src n ∨
        d.entries.lookup newName = some src ∧ f' = f ∨
        ∃ dst gone, d.entries.lookup newName = some dst ∧ dst ≠ src ∧ f.Has dst gone ∧ gone.kind ≠ .dir ∧
          f' = (placed f nowNs parent d name newName src n).set dst { gone with live := false }) := by
  obtain ⟨-, -, h⟩ := Except.bind_eq_ok.mp h
  obtain ⟨src, hsrc, h⟩ := Except.bind_eq_ok.mp h
  obtain ⟨d, hd, h⟩ := Except.bind_eq_ok.mp h
  obtain ⟨n, hn, h⟩ := Except.bind_eq_ok.mp h
  obtain ⟨hhas, hk⟩ := file_eq_ok.mp hn
  refine ⟨d, src, n, names_of_ok hsrc hd, hhas, hk, ?_⟩
  split at h
  · exact .inl ⟨‹_›, (Prod.mk.inj (Except.ok.inj h)).2.symm⟩
  · rename_i dst hdst
    split at h
    · rename_i heq
      exact .inr (.inl ⟨heq ▸ hdst, (Prod.mk.inj (Except.ok.inj h)).2.symm⟩)
    · rename_i hne
      obtain ⟨gone, hgone, h⟩ := Except.bind_eq_ok.mp h
      obtain ⟨hg, hgk⟩ := file_eq_ok.mp hgone
      exact .inr (.inr ⟨dst, gone, hdst, hne, hg, hgk, (Prod.mk.inj (Except.ok.inj h)).2.symm⟩)

/-- The files once the name is gone, and what it named. -/
def dropped (f : Files D W) (nowNs : Int) (parent : Nat) (d : Node D W) (name : Text) (ino : Nat)
    (n : Node D W) : Files D W :=
  (f.set parent (touch d nowNs (d.entries.erase name))).set ino { n with live := false }

theorem unlink_eq_ok (h : f.unlink nowNs parent name = .ok (u, f')) :
    ∃ d ino n, f.Names parent d name ino ∧ f.Has ino n ∧ n.kind ≠ .dir ∧ f' = dropped f nowNs parent d name ino n := by
  obtain ⟨ino, hino, h⟩ := Except.bind_eq_ok.mp h
  obtain ⟨d, hd, h⟩ := Except.bind_eq_ok.mp h
  obtain ⟨n, hn, h⟩ := Except.bind_eq_ok.mp h
  obtain ⟨hhas, hk⟩ := file_eq_ok.mp hn
  exact ⟨d, ino, n, names_of_ok hino hd, hhas, hk, (Prod.mk.inj (ok.inj h)).2.symm⟩

theorem rmdir_eq_ok (h : f.rmdir nowNs parent name = .ok (u, f')) :
    ∃ d ino n, f.Names parent d name ino ∧ f.Has ino n ∧ n.kind = .dir ∧
      n.entries.entries = [] ∧ f' = dropped f nowNs parent d name ino n := by
  obtain ⟨ino, hino, h⟩ := Except.bind_eq_ok.mp h
  obtain ⟨d, hd, h⟩ := Except.bind_eq_ok.mp h
  obtain ⟨n, hn, h⟩ := Except.bind_eq_ok.mp h
  obtain ⟨hhas, hk⟩ := dir_eq_ok.mp hn
  split at h
  · rename_i hempty
    exact ⟨d, ino, n, names_of_ok hino hd, hhas, hk, List.isEmpty_iff.mp hempty, (Prod.mk.inj (ok.inj h)).2.symm⟩
  · cases h

end Files

/-! ### Well-formed trees -/

theorem lookup_insert_eq (l : AList fun _ : Text => Nat) (x y : Text) (c : Nat) :
    (l.insert x c).lookup y = if y = x then some c else l.lookup y := by
  split
  · subst ‹y = x›
    exact lookup_insert l
  · exact lookup_insert_ne ‹_›

theorem lookup_erase_eq (l : AList fun _ : Text => Nat) (x y : Text) :
    (l.erase x).lookup y = if y = x then none else l.lookup y := by
  split
  · subst ‹y = x›
    exact lookup_erase y l
  · exact lookup_erase_ne ‹_›

namespace Files

variable {f f' : Files D W} {who : W} {nowNs : Int} {ino parent : Nat} {name newName : Text}

/-- `x` names `c` in `d`. -/
def Linked (f : Files D W) (d : Nat) (x : Text) (c : Nat) : Prop :=
  ∃ nd, f.nodes d = some nd ∧ nd.entries.lookup x = some c

variable {d : Node D W}

theorem Names.linked (h : f.Names parent d name ino) : f.Linked parent name ino := ⟨d, h.has.1, h.entry⟩

structure WF (f : Files D W) : Prop where
  root : ∃ n, f.Has rootIno n ∧ n.kind = .dir ∧ n.path = []
  bound : ∀ {i n}, f.nodes i = some n → i < f.next
  /-- Names are in live directories and name live inodes; a directory is where it was made. -/
  link : ∀ {d x c}, f.Linked d x c → c ≠ rootIno ∧ ∃ nd nc, f.Has d nd ∧ nd.kind = .dir ∧
    f.Has c nc ∧ (nc.kind = .dir → nc.path = nd.path ++ [x])
  single : ∀ {d x d' x' c}, f.Linked d x c → f.Linked d' x' c → d = d' ∧ x = x'
  up : ∀ {c n}, f.Has c n → c ≠ rootIno → ∃ d x, f.Linked d x c

theorem WF.next_free (h : f.WF) : f.nodes f.next = none := by
  cases hn : f.nodes f.next with
  | none => rfl
  | some n => exact absurd (h.bound hn) (lt_irrefl _)

theorem WF.lt_next (h : f.WF) (hn : f.Has ino n) : ino < f.next := h.bound hn.1

/-- Nothing is in itself. -/
theorem WF.not_self (h : f.WF) (hd : f.Names parent d name ino) : ino ≠ parent := by
  rintro rfl
  obtain ⟨-, nd, nc, hnd, -, hnc, hpath⟩ := h.link hd.linked
  obtain rfl : nd = nc := hnd.unique hnc
  have hk : nd.kind = .dir := hnd.unique hd.has ▸ hd.isDir
  simpa using hpath hk

theorem WF.empty (nowNs : Int) : (empty nowNs : Files D W).WF where
  root := ⟨{ kind := .dir, mtimeNs := nowNs, ctimeNs := nowNs }, ⟨rfl, rfl⟩, rfl, rfl⟩
  bound {i n} h := by
    simp only [Files.empty] at h ⊢
    split at h
    · omega
    · cases h
  link {d x c} := by
    rintro ⟨nd, hd, hx⟩
    simp only [Files.empty] at hd
    split at hd
    · rw [← some.inj hd] at hx
      cases hx
    · cases hd
  single {d x d' x' c} := by
    rintro ⟨nd, hd, hx⟩
    simp only [Files.empty] at hd
    split at hd
    · rw [← some.inj hd] at hx
      cases hx
    · cases hd
  up {c n} hn hroot := by
    have hnone : (Files.empty nowNs : Files D W).nodes c = none := if_neg hroot
    rw [Has, hnone] at hn
    cases hn.1

/-- What is not gone keeps its kind and its place, and a name names what it did or is in order. -/
theorem WF.of_keep (h : f.WF) (gone : Nat → Prop) (hroot : ¬ gone rootIno)
    (hbound : ∀ {i n}, f'.nodes i = some n → i < f'.next)
    (hkeep : ∀ {i m}, f.Has i m → ¬ gone i → ∃ m', f'.Has i m' ∧ m'.kind = m.kind ∧ m'.path = m.path)
    (hlink : ∀ {a x c}, f'.Linked a x c → f.Linked a x c ∧ ¬ gone a ∧ ¬ gone c ∨
      c ≠ rootIno ∧ ∃ nd nc, f'.Has a nd ∧ nd.kind = .dir ∧ f'.Has c nc ∧ (nc.kind = .dir → nc.path = nd.path ++ [x]))
    (hsingle : ∀ {d x d' x' c}, f'.Linked d x c → f'.Linked d' x' c → d = d' ∧ x = x')
    (hup : ∀ {c n}, f'.Has c n → (∃ m, f.Has c m) ∧ ¬ gone c ∨ ∃ d x, f'.Linked d x c)
    (hstay : ∀ {d x c}, f.Linked d x c → ¬ gone c → ∃ d' x', f'.Linked d' x' c) : f'.WF where
  root := by
    obtain ⟨m, hm, hmk, hmp⟩ := h.root
    obtain ⟨m', hm', hk, hp⟩ := hkeep hm hroot
    exact ⟨m', hm', hk.trans hmk, hp.trans hmp⟩
  bound := hbound
  link {d x c} hl := by
    rcases hlink hl with ⟨hl, hd, hc⟩ | hnew
    · obtain ⟨hne, nd, nc, hnd, hdk, hnc, hpath⟩ := h.link hl
      obtain ⟨nd', hnd', hdk', hdp⟩ := hkeep hnd hd
      obtain ⟨nc', hnc', hck, hcp⟩ := hkeep hnc hc
      exact ⟨hne, nd', nc', hnd', hdk'.trans hdk, hnc', fun hk =>
        hcp.trans ((hpath (hck ▸ hk)).trans (by rw [hdp]))⟩
    · exact hnew
  single := hsingle
  up {c n} hn hne := by
    rcases hup hn with ⟨⟨m, hm⟩, hc⟩ | hlink
    · obtain ⟨d, x, hl⟩ := h.up hm hne
      exact hstay hl hc
    · exact hlink

variable {c : Nat} {x : Text}

theorem linked_set {n' : Node D W} {d : Nat} (hn : f.Has ino n) (hent : n'.entries = n.entries) :
    (f.set ino n').Linked d x c ↔ f.Linked d x c := by
  unfold Linked
  rw [set_nodes]
  split
  · subst ‹d = ino›
    simp only [hn.1, some.injEq, exists_eq_left', hent]
  · rfl

theorem WF.set (h : f.WF) {n' : Node D W} (hn : f.Has ino n) (hkind : n'.kind = n.kind)
    (hpath : n'.path = n.path) (hlive : n'.live = true) (hent : n'.entries = n.entries) :
    (f.set ino n').WF := by
  refine h.of_keep (fun _ => False) id ?_ ?_ (fun hl => .inl ⟨(linked_set hn hent).mp hl, id, id⟩)
    (fun hl hl' => h.single ((linked_set hn hent).mp hl) ((linked_set hn hent).mp hl')) ?_
    (fun hl _ => ⟨_, _, (linked_set hn hent).mpr hl⟩)
  · intro i m hm
    rw [set_nodes] at hm
    split at hm
    · subst ‹i = ino›
      exact h.lt_next hn
    · exact h.bound hm
  · intro i m hm _
    by_cases hi : i = ino
    · subst hi
      obtain rfl := hm.unique hn
      exact ⟨n', ⟨set_nodes_self .., hlive⟩, hkind, hpath⟩
    · exact ⟨m, ⟨(set_nodes_ne hi n').trans hm.1, hm.2⟩, rfl, rfl⟩
  · intro c m hm
    by_cases hc : c = ino
    · exact .inl ⟨⟨n, hc ▸ hn⟩, id⟩
    · exact .inl ⟨⟨m, (set_nodes_ne hc n').symm.trans hm.1, hm.2⟩, id⟩

/-! Most requests change a directory and what is in it. -/

section

variable {d' n' : Node D W}

theorem WF.bound_both (h : f.WF) (hd : f.Has parent d) (hn : f.Has ino n)
    (hm : ((f.set parent d').set ino n').nodes i = some m) : i < f.next := by
  rw [set_nodes, set_nodes] at hm
  split at hm
  · exact ‹i = ino› ▸ h.lt_next hn
  · split at hm
    · exact ‹i = parent› ▸ h.lt_next hd
    · exact h.bound hm

theorem keep_both {entries : AList fun _ : Text => Nat} (hd : f.Has parent d) (hm : f.Has i m)
    (hi : i ≠ ino) : ∃ m', ((f.set parent (touch d nowNs entries)).set ino n').Has i m' ∧
      m'.kind = m.kind ∧ m'.path = m.path := by
  simp only [Has, set_nodes_ne hi]
  by_cases hip : i = parent
  · subst hip
    obtain rfl := hm.unique hd
    exact ⟨_, ⟨set_nodes_self .., hm.2⟩, rfl, rfl⟩
  · exact ⟨m, ⟨(set_nodes_ne hip _).trans hm.1, hm.2⟩, rfl, rfl⟩

theorem had_both (hd : f.Has parent d) (hm : ((f.set parent d').set ino n').Has i m) (hi : i ≠ ino) :
    ∃ m, f.Has i m := by
  by_cases hip : i = parent
  · exact ⟨d, hip ▸ hd⟩
  · rw [Has, set_nodes_ne hi, set_nodes_ne hip] at hm
    exact ⟨m, hm⟩

theorem node_both {X : Node D W → Node D W → Prop} (hrefl : ∀ n, X n n) (hd : f.Has parent d)
    (hX : X d d') (hX' : ∀ n, f.nodes ino = some n → X n n') (hm : f.nodes i = some m) :
    ∃ m', ((f.set parent d').set ino n').nodes i = some m' ∧ X m m' := by
  by_cases hi : i = ino
  · subst hi
    exact ⟨n', set_nodes_self .., hX' m hm⟩
  rw [set_nodes_ne hi]
  by_cases hip : i = parent
  · subst hip
    obtain rfl : d = m := mem_unique hd.1 hm
    exact ⟨d', set_nodes_self .., hX⟩
  · exact ⟨m, (set_nodes_ne hip d').trans hm, hrefl m⟩

end

theorem made_nodes (f : Files D W) (who : W) (nowNs : Int) (parent : Nat) (d : Node D W) (name : Text)
    (kind : NodeType) (i : Nat) : (made f who nowNs parent d name kind).nodes i =
      if i = f.next then some (fresh who nowNs d name kind)
      else if i = parent then some (touch d nowNs (d.entries.insert name f.next))
      else f.nodes i := by
  simp only [made, set_nodes]

variable {a : Nat}

theorem WF.linked_made (h : f.WF) (hd : f.Has parent d) (hfree : d.entries.lookup name = none) :
    (made f who nowNs parent d name kind).Linked a x c ↔ f.Linked a x c ∨ a = parent ∧ x = name ∧ c = f.next := by
  have hpar : parent ≠ f.next := ne_of_lt (h.lt_next hd)
  unfold Linked
  rw [made_nodes]
  split
  · -- the new inode has no names, and nothing was in it before
    subst ‹a = f.next›
    simp only [some.injEq, exists_eq_left', h.next_free]
    constructor
    · nofun
    · rintro (⟨_, hnone, _⟩ | ⟨heq, _⟩)
      · cases hnone
      · exact absurd heq.symm hpar
  · split
    · subst ‹a = parent›
      simp only [hd.1, some.injEq, exists_eq_left', touch, lookup_insert_eq]
      split
      · subst ‹x = name›
        simp only [hfree, some.injEq]
        exact ⟨fun heq => .inr ⟨trivial, trivial, heq.symm⟩, fun hor =>
          hor.elim nofun fun heq => heq.2.2.symm⟩
      · exact ⟨.inl, fun hor => hor.elim id fun heq => absurd heq.2.1 ‹_›⟩
    · exact ⟨.inl, fun hor => hor.elim id fun heq => absurd heq.1 ‹_›⟩

theorem WF.made (h : f.WF) (hd : f.Has parent d) (hdir : d.kind = .dir)
    (hfree : d.entries.lookup name = none) : (Files.made f who nowNs parent d name kind).WF := by
  have hnode := made_nodes f who nowNs parent d name kind
  have hpar : parent ≠ f.next := ne_of_lt (h.lt_next hd)
  have hlinked : ∀ {a x c}, (Files.made f who nowNs parent d name kind).Linked a x c ↔
      f.Linked a x c ∨ a = parent ∧ x = name ∧ c = f.next := h.linked_made hd hfree
  -- nothing had the new number
  have hnew : ∀ {a x}, ¬ f.Linked a x f.next := by
    intro a x hl
    obtain ⟨-, -, nc, -, -, hnc, -⟩ := h.link hl
    exact lt_irrefl _ (h.lt_next hnc)
  refine h.of_keep (fun _ => False) id ?_ ?_ ?_ ?_ ?_ (fun hl _ => ⟨_, _, hlinked.mpr (.inl hl)⟩)
  · intro i m hm
    rw [hnode] at hm
    show i < f.next + 1
    split at hm
    · omega
    · split at hm
      · subst ‹i = parent›
        exact Nat.lt_succ_of_lt (h.lt_next hd)
      · exact Nat.lt_succ_of_lt (h.bound hm)
  · intro i m hm _
    exact keep_both hd hm (ne_of_lt (h.lt_next hm))
  · intro a x c hl
    rcases hlinked.mp hl with hl | ⟨rfl, rfl, rfl⟩
    · exact .inl ⟨hl, id, id⟩
    · obtain ⟨m, hm, -⟩ := h.root
      exact .inr ⟨fun heq => ne_of_lt (h.lt_next hm) heq.symm, _, _,
        ⟨(hnode _).trans ((if_neg hpar).trans (if_pos rfl)), hd.2⟩, hdir,
        ⟨(hnode _).trans (if_pos rfl), rfl⟩, fun _ => rfl⟩
  · intro a x a' x' c hl hl'
    rcases hlinked.mp hl with hold | ⟨rfl, rfl, rfl⟩ <;>
      rcases hlinked.mp hl' with hold' | ⟨rfl, rfl, heq⟩
    · exact h.single hold hold'
    · exact absurd (heq ▸ hold) hnew
    · exact absurd hold' hnew
    · exact ⟨rfl, rfl⟩
  · intro c m hm
    by_cases hc : c = f.next
    · exact .inr ⟨parent, name, hlinked.mpr (.inr ⟨rfl, rfl, hc⟩)⟩
    · exact .inl ⟨had_both hd hm hc, id⟩

/-- A file has nothing in it. -/
theorem WF.leaf (h : f.WF) (hn : f.Has ino n) (hfile : n.kind ≠ .dir) (x : Text) (c : Nat) : ¬ f.Linked ino x c := by
  intro hl
  obtain ⟨-, nd, -, hnd, hk, -⟩ := h.link hl
  exact hfile (hnd.unique hn ▸ hk)

theorem dropped_nodes (f : Files D W) (nowNs : Int) (parent : Nat) (d : Node D W) (name : Text)
    (ino : Nat) (n : Node D W) (i : Nat) : (dropped f nowNs parent d name ino n).nodes i =
      if i = ino then some { n with live := false }
      else if i = parent then some (touch d nowNs (d.entries.erase name)) else f.nodes i := by
  simp only [dropped, set_nodes]

theorem linked_dropped (hd : f.Names parent d name ino) (hn : f.Has ino n) (hleaf : ∀ x c, ¬ f.Linked ino x c) :
    (dropped f nowNs parent d name ino n).Linked a x c ↔ f.Linked a x c ∧ ¬ (a = parent ∧ x = name) := by
  by_cases ha : a = ino
  · subst ha
    refine ⟨fun ⟨nd, hnd, hx⟩ => ?_, fun hl => absurd hl.1 (hleaf x c)⟩
    rw [dropped_nodes, if_pos rfl] at hnd
    rw [← some.inj hnd] at hx
    exact absurd ⟨n, hn.1, hx⟩ (hleaf x c)
  · unfold Linked
    rw [dropped_nodes, if_neg ha]
    split
    · subst ‹a = parent›
      simp only [hd.has.1, some.injEq, exists_eq_left', touch, lookup_erase_eq]
      split
      · exact ⟨nofun, fun hl => absurd ⟨trivial, ‹_›⟩ hl.2⟩
      · exact ⟨fun hl => ⟨hl, fun heq => absurd heq.2 ‹_›⟩, fun hl => hl.1⟩
    · exact ⟨fun hl => ⟨hl, fun heq => absurd heq.1 ‹_›⟩, fun hl => hl.1⟩

theorem WF.dropped (h : f.WF) (hd : f.Names parent d name ino) (hn : f.Has ino n)
    (hleaf : ∀ x c, ¬ f.Linked ino x c) : (dropped f nowNs parent d name ino n).WF := by
  have hlinked : ∀ {a x c}, (Files.dropped f nowNs parent d name ino n).Linked a x c ↔
      f.Linked a x c ∧ ¬ (a = parent ∧ x = name) := linked_dropped hd hn hleaf
  refine h.of_keep (· = ino) (h.link hd.linked).1.symm (fun hm => h.bound_both hd.has hn hm)
    (fun hm hi => keep_both hd.has hm hi) ?_
    (fun hl hl' => h.single (hlinked.mp hl).1 (hlinked.mp hl').1) ?_ ?_
  · intro a x c hl
    obtain ⟨hl, hother⟩ := hlinked.mp hl
    exact .inl ⟨hl, fun heq => hleaf x c (heq ▸ hl), fun heq =>
      hother (h.single hl (heq ▸ hd.linked))⟩
  · intro c m hm
    have hc : c ≠ ino := by
      rintro rfl
      obtain ⟨hm, hlive⟩ := hm
      rw [dropped_nodes, if_pos rfl] at hm
      rw [← some.inj hm] at hlive
      cases hlive
    exact .inl ⟨had_both hd.has hm hc, hc⟩
  · rintro a x c hl hc
    refine ⟨a, x, hlinked.mpr ⟨hl, ?_⟩⟩
    rintro ⟨rfl, rfl⟩
    obtain ⟨nd, ha, hx⟩ := hl
    obtain rfl : nd = d := mem_unique ha hd.has.1
    exact hc (mem_unique hx hd.entry)

theorem placed_nodes (f : Files D W) (nowNs : Int) (parent : Nat) (d : Node D W) (name newName : Text)
    (src : Nat) (n : Node D W) (i : Nat) :
    (placed f nowNs parent d name newName src n).nodes i =
      if i = src then some { n with moved := true, ctimeNs := nowNs }
      else if i = parent then some (touch d nowNs ((d.entries.erase name).insert newName src))
      else f.nodes i := by
  simp only [placed, set_nodes]

variable {src : Nat}

section

variable (h : f.WF) (hd : f.Names parent d name src) (hn : f.Has src n) (hfile : n.kind ≠ .dir)
include h hd hn hfile

theorem WF.linked_placed : (placed f nowNs parent d name newName src n).Linked a x c ↔
      a = parent ∧ x = newName ∧ c = src ∨
        f.Linked a x c ∧ ¬ (a = parent ∧ x = name) ∧ ¬ (a = parent ∧ x = newName) := by
  have hne := h.not_self hd
  by_cases ha : a = src
  · subst ha
    refine ⟨fun ⟨nd, hnd, hx⟩ => ?_, fun hor => ?_⟩
    · rw [placed_nodes, if_pos rfl] at hnd
      rw [← some.inj hnd] at hx
      exact absurd ⟨n, hn.1, hx⟩ (h.leaf hn hfile x c)
    · rcases hor with ⟨heq, -⟩ | ⟨hl, -⟩
      · exact absurd heq hne
      · exact absurd hl (h.leaf hn hfile x c)
  · unfold Linked
    rw [placed_nodes, if_neg ha]
    split
    · subst ‹a = parent›
      simp only [hd.has.1, some.injEq, exists_eq_left', touch, lookup_insert_eq, lookup_erase_eq, true_and]
      by_cases hnew : x = newName
      · simp only [hnew, if_true, true_and, not_true, and_false, or_false, some.injEq]
        exact eq_comm
      · by_cases hold : x = name
        · simp only [hold, if_true, not_true, false_and, and_false, or_false,
            show name ≠ newName from hold ▸ hnew, if_false, reduceCtorEq, not_false_eq_true]
        · simp only [hnew, hold, if_false, false_and, false_or, not_false_eq_true, and_true]
    · refine ⟨fun hl => .inr ⟨hl, fun heq => absurd heq.1 ‹_›, fun heq => absurd heq.1 ‹_›⟩, ?_⟩
      exact fun hor => hor.elim (fun heq => absurd heq.1 ‹_›) fun hl => hl.1

theorem WF.placed (hfree : d.entries.lookup newName = none) :
    (Files.placed f nowNs parent d name newName src n).WF := by
  have hnode := placed_nodes f nowNs parent d name newName src n
  have hne := h.not_self hd
  have hlinked : ∀ {a x c}, (Files.placed f nowNs parent d name newName src n).Linked a x c ↔
      a = parent ∧ x = newName ∧ c = src ∨ f.Linked a x c ∧ ¬ (a = parent ∧ x = name) ∧ ¬ (a = parent ∧ x = newName) :=
    h.linked_placed hd hn hfile
  refine h.of_keep (fun _ => False) id (fun hm => h.bound_both hd.has hn hm) ?_ ?_ ?_ ?_ ?_
  · intro i m hm _
    by_cases his : i = src
    · subst his
      obtain rfl := hm.unique hn
      exact ⟨_, ⟨(hnode i).trans (if_pos rfl), hm.2⟩, rfl, rfl⟩
    · exact keep_both hd.has hm his
  · intro a x c hl
    rcases hlinked.mp hl with ⟨rfl, rfl, rfl⟩ | ⟨hl, -⟩
    · exact .inr ⟨(h.link hd.linked).1, _, _,
        ⟨(hnode _).trans ((if_neg hne.symm).trans (if_pos rfl)), hd.has.2⟩, hd.isDir,
        ⟨(hnode _).trans (if_pos rfl), hn.2⟩, fun hk => absurd hk hfile⟩
    · exact .inl ⟨hl, id, id⟩
  · intro a x a' x' c hl hl'
    rcases hlinked.mp hl with ⟨rfl, rfl, rfl⟩ | ⟨hold, hother, -⟩ <;>
      rcases hlinked.mp hl' with ⟨rfl, rfl, heq⟩ | ⟨hold', hother', -⟩
    · exact ⟨rfl, rfl⟩
    · exact absurd (h.single hold' hd.linked) hother'
    · exact absurd (h.single hold (heq ▸ hd.linked)) hother
    · exact h.single hold hold'
  · intro c m hm
    by_cases hcs : c = src
    · exact .inl ⟨⟨n, hcs ▸ hn⟩, id⟩
    · exact .inl ⟨had_both hd.has hm hcs, id⟩
  · rintro a x c ⟨nd, ha, hx⟩ -
    by_cases hold : a = parent ∧ x = name
    · obtain ⟨rfl, rfl⟩ := hold
      obtain rfl : nd = d := mem_unique ha hd.has.1
      obtain rfl : c = src := mem_unique hx hd.entry
      exact ⟨a, newName, hlinked.mpr (.inl ⟨rfl, rfl, rfl⟩)⟩
    · refine ⟨a, x, hlinked.mpr (.inr ⟨⟨nd, ha, hx⟩, hold, ?_⟩)⟩
      rintro ⟨rfl, rfl⟩
      obtain rfl : nd = d := mem_unique ha hd.has.1
      rw [hfree] at hx
      cases hx

end

theorem not_linked_of_empty (hn : f.Has ino n) (h : n.entries.entries = []) (x : Text) (c : Nat) :
    ¬ f.Linked ino x c := by
  rintro ⟨m, hm, hx⟩
  obtain rfl : n = m := mem_unique hn.1 hm
  rw [AList.lookup, h] at hx
  cases hx

/-! ### What becomes of each inode -/

section

variable {X : Node D W → Node D W → Prop} {d n n' : Node D W} {src : Nat}

section

variable (hrefl : ∀ n, X n n)
include hrefl

theorem node_set (hn : f.Has ino n) (hX : X n n') (hm : f.nodes i = some m) :
    ∃ m', (f.set ino n').nodes i = some m' ∧ X m m' := by
  by_cases hi : i = ino
  · subst hi
    obtain rfl : n = m := mem_unique hn.1 hm
    exact ⟨n', set_nodes_self .., hX⟩
  · exact ⟨m, (set_nodes_ne hi n').trans hm, hrefl m⟩

theorem node_made (hwf : f.WF) (hd : f.Has parent d) (hX : ∀ entries, X d (touch d nowNs entries))
    (hm : f.nodes i = some m) :
    ∃ m', (made f who nowNs parent d name kind).nodes i = some m' ∧ X m m' :=
  node_both hrefl hd (hX _) (fun _ hn => absurd (hwf.bound hn) (lt_irrefl _)) hm

theorem node_dropped (hd : f.Has parent d) (hn : f.Has ino n)
    (hX : ∀ entries, X d (touch d nowNs entries)) (hX' : X n { n with live := false })
    (hm : f.nodes i = some m) :
    ∃ m', (dropped f nowNs parent d name ino n).nodes i = some m' ∧ X m m' :=
  node_both hrefl hd (hX _) (fun _ hm => mem_unique hn.1 hm ▸ hX') hm

theorem node_placed (hd : f.Has parent d) (hn : f.Has src n) (hX : ∀ entries, X d (touch d nowNs entries))
    (hX' : X n { n with moved := true, ctimeNs := nowNs }) (hm : f.nodes i = some m) :
    ∃ m', (placed f nowNs parent d name newName src n).nodes i = some m' ∧ X m m' :=
  node_both hrefl hd (hX _) (fun _ hm => mem_unique hn.1 hm ▸ hX') hm

end

end

theorem insert_erase_erase (l : AList fun _ : Text => Nat) (x y : Text) (c : Nat) :
    ((l.erase y).erase x).insert y c = (l.erase x).insert y c := by
  refine ext ?_
  have hgone : y ∉ ((l.erase x).erase y).keys := fun h =>
    (mem_erase.mp (mem_keys.mpr h)).1 rfl
  rw [entries_insert, entries_insert, erase_erase]
  exact congrArg _ (List.kerase_of_notMem_keys hgone)

/-- What is left for a rename once the file that had the name is gone. -/
theorem WF.before_placed (h : f.WF) (nowNs : Int) {gone : Node D W} {dst : Nat}
    (hd : f.Names parent d name src) (hn : f.Has src n) (hdst : f.Names parent d newName dst)
    (hgone : f.Has dst gone) (hfile : gone.kind ≠ .dir) (hne : dst ≠ src)
    (hnames : newName ≠ name) :
    (Files.dropped f nowNs parent d newName dst gone).WF ∧
      (Files.dropped f nowNs parent d newName dst gone).Names parent
        (touch d nowNs (d.entries.erase newName)) name src ∧
      (Files.dropped f nowNs parent d newName dst gone).Has src n ∧
      (touch d nowNs (d.entries.erase newName)).entries.lookup newName = none := by
  have hdst' := h.not_self hdst
  have hsrc := h.not_self hd
  refine ⟨h.dropped hdst hgone (h.leaf hgone hfile), ⟨⟨?_, hd.has.2⟩, hd.isDir, ?_⟩, ⟨?_, hn.2⟩, lookup_erase ..⟩
  · rw [dropped_nodes, if_neg hdst'.symm, if_pos rfl]
  · exact (lookup_erase_ne hnames.symm).trans hd.entry
  · rw [dropped_nodes, if_neg hne.symm, if_neg hsrc]
    exact hn.1

theorem replaced_eq {gone : Node D W} {dst : Nat} (hne : dst ≠ src) (hdst : dst ≠ parent) :
    (placed f nowNs parent d name newName src n).set dst { gone with live := false } =
      placed (dropped f nowNs parent d newName dst gone) nowNs parent
        (touch d nowNs (d.entries.erase newName)) name newName src n := by
  have hent : touch (touch d nowNs (d.entries.erase newName)) nowNs
      (((d.entries.erase newName).erase name).insert newName src) =
      touch d nowNs ((d.entries.erase name).insert newName src) := by
    rw [insert_erase_erase]
    rfl
  have hnodes : ∀ i, ((placed f nowNs parent d name newName src n).set dst { gone with live := false }).nodes i =
      (placed (dropped f nowNs parent d newName dst gone) nowNs parent
        (touch d nowNs (d.entries.erase newName)) name newName src n).nodes i := by
    intro i
    rw [set_nodes, placed_nodes, placed_nodes, dropped_nodes]
    by_cases hi : i = dst
    · subst hi
      simp only [hne, hdst, if_true, if_false]
    · by_cases his : i = src
      · simp only [his, if_true, if_false, hne.symm]
      · by_cases hip : i = parent
        · subst hip
          simp only [his, hdst.symm, if_true, if_false]
          exact congrArg some hent.symm
        · simp only [hi, his, hip, if_false]
  have hfiles : ∀ {g g' : Files D W}, (∀ i, g.nodes i = g'.nodes i) → g.next = g'.next → g = g' := by
    rintro ⟨nodes, next⟩ ⟨nodes', next'⟩ hn rfl
    exact congrArg (mk · next) (funext hn)
  exact hfiles hnodes rfl

end Files

end AtlasNative.S3
