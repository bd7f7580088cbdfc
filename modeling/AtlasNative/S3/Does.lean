import AtlasNative.S3.Follow
import AtlasNative.S3.Objects

/-!
# What a call does to a bucket

Every request of a call that changes the files is one of a few kinds of change, each of which touches
only what the call made itself, the file or the mark that the call is about, or what nothing is in.
The invariant of a bucket and what calls can rely on follow from the kinds of change alone.
-/

namespace AtlasNative.S3

open Program Files Option

variable {D : Type}

/-- The directory path and the file name of an object key. -/
def place (key : Text) : Option (List Text × Text) :=
  match parseKey key with
  | .ok ⟨dirs, some name⟩ => some (dirs, name)
  | _ => none

/-- The directory path of a marker key. -/
def markPlace (key : Text) : Option (List Text) :=
  match parseKey key with
  | .ok ⟨dirs, none⟩ => some dirs
  | _ => none

variable {key : Text} {dirs : List Text}

theorem place_eq_some {name : Text} : place key = some (dirs, name) ↔ parseKey key = .ok ⟨dirs, some name⟩ := by
  unfold place
  split
  · rename_i p hp
    rw [hp]
    simp
  · rename_i hne
    exact ⟨nofun, fun h => absurd h (hne _ _)⟩

theorem markPlace_eq_some : markPlace key = some dirs ↔ parseKey key = .ok ⟨dirs, none⟩ := by
  unfold markPlace
  split
  · rename_i p hp
    rw [hp]
    simp
  · rename_i hne
    exact ⟨nofun, fun h => absurd h (hne _)⟩

theorem segment_of_place {x : Text} {name : Text} (h : place key = some (dirs, name))
    (hx : x ∈ dirs ++ [name]) : Segment x :=
  (parseKey_eq_ok (place_eq_some.mp h)).1 x hx

theorem not_segment_uploadsDir : ¬ Segment uploadsDir := by
  intro h
  have hfree := h.facts.2
  rw [show reservedPrefix.isPrefixOf uploadsDir = true from rfl] at hfree
  cases hfree

namespace Call

/-- Where a call puts a file. -/
def target : Call D → Option (List Text × Text)
  | .put key _ _ _ | .copy _ key _ | .completeUpload _ key _ => place key
  | .uploadPart id _ number _ => some ([uploadsDir, id], partName number)
  | _ => none

/-- The existing file that a call is about. -/
def subject : Call D → Option (List Text × Text)
  | .delete key | .setHeaders key _ | .write key _ _ | .truncate key _ => place key
  | _ => none

/-- The directory that a call marks or unmarks. -/
def marks : Call D → Option (List Text)
  | .put key _ _ _ | .copy _ key _ | .delete key | .setHeaders key _ | .completeUpload _ key _ =>
    markPlace key
  | _ => none

/-- The upload that a call removes. -/
def removes : Call D → Option Text
  | .completeUpload id _ _ | .abortUpload id _ => some id
  | _ => none

end Call

/-- What is said about a run besides what the calls do. -/
structure Mode where
  /-- A completion finds the parts that it has listed. -/
  calm : Prop := False
  /-- The file that a `set_headers` stamps has the mtime that it saw first. -/
  steady : Prop := False
  /-- A file never has an mtime for the second time. -/
  fresh : Prop := False
  /-- No call changes files in place. -/
  quiet : Prop := False
  /-- No directory is removed that is a marker. -/
  kept : Prop := False

/-- The file has never had this mtime. -/
def Fresh {W : Type} (n : Node D W) (nowNs : Int) : Prop := ∀ p ∈ n.history, p.1 ≠ nowNs

/-- Which names a call may unlink in a directory. -/
def Unlinks (who : Who D) (path : List Text) (x : Text) : Prop :=
  x = tempName who.1 ∨ who.2.target = some (path, x) ∨ who.2.subject = some (path, x) ∨
    ∃ id, who.2.removes = some id ∧ path = [uploadsDir, id]

/-- The file that a call changes in place has been put there by a call for the same key. -/
def Subject (who : Who D) (n : Node D (Who D)) : Prop :=
  n.moved = true ∧ ∃ i c, n.maker = some (i, c) ∧ who.2.subject = c.target ∧ c.target ≠ none

variable {n : Node D (Who D)}

theorem Subject.not_part {who : Who D} (h : Subject who n) {j : Nat} {id : Text} {number : Int}
    {body : Body D} : n.maker ≠ some (j, .uploadPart id key number body) := by
  intro hmaker
  obtain ⟨-, i, c, hc, hsub, -⟩ := h
  obtain ⟨rfl, rfl⟩ := Prod.mk.inj (mem_unique hc hmaker)
  have hplace : ∃ k, place k = some ([uploadsDir, id], partName number) := by
    unfold Call.subject at hsub
    split at hsub <;> first | exact ⟨_, hsub⟩ | cases hsub
  obtain ⟨k, hk⟩ := hplace
  exact not_segment_uploadsDir (segment_of_place hk (by simp))

/-- A part as it was uploaded: its content and attribute are final. -/
structure PartFile (md5 : Md5 D) (n : Node D (Who D)) (id : Text) (number : Int) : Prop where
  kind : n.kind = .file
  made : ∃ i key body, n.maker = some (i, .uploadPart id key number body) ∧
    n.data = body.chunks.flatten
  recorded : ∃ m, n.recorded = some m ∧ m.etag = .plain (md5.ofBytes n.data) ∧
    m.size = n.data.length ∧ m.mtimeNs = n.mtimeNs

section

variable (md5 : Md5 D) (mode : Mode) (log : List (Asked D (Who D)))

/-- What a completion copies for one of the parts that it lists: its digest is that of the part it saw
in the listing, and so are the bytes if that is the part that it found. -/
def Piece (f : Files D (Who D)) (id : Text) (listed : Int × ETag D) (piece : D × Bytes) : Prop :=
  ∃ l n, f.nodes l = some n ∧ PartFile md5 n id listed.1 ∧ listed.2 = .plain (md5.ofBytes n.data) ∧
    piece.1 = md5.ofBytes n.data ∧ (mode.calm → piece.2 = n.data)

/-- What a call has written, and the ETag that it gives it. -/
structure Content (c : Call D) (f : Files D (Who D)) (data : Bytes) (etag : ETag D) : Prop where
  plain : (∀ id key parts, c ≠ .completeUpload id key parts) → etag = .plain (md5.ofBytes data)
  part : ∀ {id key number body}, c = .uploadPart id key number body → data = body.chunks.flatten
  whole : ∀ {id key parts}, c = .completeUpload id key parts → ∃ pieces : List (D × Bytes),
    List.Forall₂ (Piece md5 mode f id) parts pieces ∧ data = (pieces.map Prod.snd).flatten ∧
      etag = .parts (md5.ofDigests (pieces.map Prod.fst)) parts.length

/-- The attribute that a call records on the file that it wrote. -/
structure Stamp (c : Call D) (f : Files D (Who D)) (n : Node D (Who D)) (m : ObjectMeta D) :
    Prop where
  size : m.size = n.data.length
  mtimeNs : m.mtimeNs = n.mtimeNs
  content : Content md5 mode c f n.data m.etag

/-- What `head` answered from: the attributes of a file, and what was recorded on it. -/
def HeadSeen (who : Who D) (o : Object D) : Prop :=
  ∃ d x a f₁ m f₂, ⟨who, .lookup d x, .ok a, f₁⟩ ∈ log ∧
    ⟨who, .getRecorded a.ino, .ok m, f₂⟩ ∈ log ∧ a.kind = .file ∧
    o = (bucket md5 false).described a m

/-- What `set_headers` records: the ETag that it saw first, with the stamps that it saw then. -/
def Restamp (who : Who D) (n : Nat) (m : ObjectMeta D) : Prop :=
  ∃ o a f, HeadSeen md5 log who o ∧ o.ino = n ∧ ⟨who, .getattr n, .ok a, f⟩ ∈ log ∧
    m.etag = o.etag ∧ m.size = a.size ∧ m.mtimeNs = a.mtimeNs ∧
    (mode.steady → a.mtimeNs = o.mtimeNs)

/-- The kinds of change. -/
inductive Does (who : Who D) (nowNs : Int) (f : Files D (Who D)) : Files D (Who D) → Prop
  | makeDir {d nd x} (hd : f.Has d nd) (hk : nd.kind = .dir) (hx : nd.entries.lookup x = none) :
      Does who nowNs f (made f who nowNs d nd x .dir)
  | makeTemp {d nd} (hd : f.Has d nd) (hk : nd.kind = .dir)
      (hx : nd.entries.lookup (tempName who.1) = none) :
      Does who nowNs f (made f who nowNs d nd (tempName who.1) .file)
  | write {n nn} (data : Bytes) (hn : f.Has n nn) (hk : nn.kind = .file) (hmine : nn.maker = some who)
      (hnew : nn.moved = false) (hrec : nn.recorded = none) (hfresh : mode.fresh → Fresh nn nowNs) :
      Does who nowNs f (f.set n (nn.rewritten data nowNs))
  | record {n nn m} (hn : f.Has n nn) (hk : nn.kind = .file) (hmine : nn.maker = some who)
      (hnew : nn.moved = false) (hrec : nn.recorded = none) (hm : Stamp md5 mode who.2 f nn m) :
      Does who nowNs f (f.set n { nn with recorded := some m, ctimeNs := nowNs })
  | publish {d nd x n nn} (hd : f.Names d nd (tempName who.1) n) (hn : f.Has n nn)
      (hk : nn.kind = .file) (hmine : nn.maker = some who) (hnew : nn.moved = false)
      (hrec : nn.recorded.isSome = true)
      (htarget : who.2.target = some (nd.path, x)) (hx : nd.entries.lookup x = none) :
      Does who nowNs f (placed f nowNs d nd (tempName who.1) x n nn)
  | mark {d nd} (m : Option (ObjectMeta D)) (hd : f.Has d nd) (hk : nd.kind = .dir)
      (hmarks : who.2.marks = some nd.path) :
      Does who nowNs f (f.set d { nd with recorded := m, ctimeNs := nowNs })
  | setUpload {d nd} (u : UploadMeta) (hd : f.Has d nd) (hk : nd.kind = .dir) :
      Does who nowNs f (f.set d { nd with upload := some u, ctimeNs := nowNs })
  | unlink {d nd x n nn} (hd : f.Names d nd x n) (hn : f.Has n nn) (hk : nn.kind = .file)
      (hx : Unlinks who nd.path x) :
      Does who nowNs f (dropped f nowNs d nd x n nn)
  | rmdir {d nd x n nn} (hd : f.Names d nd x n) (hn : f.Has n nn) (hk : nn.kind = .dir)
      (hempty : nn.entries.entries = []) (hmark : mode.kept → nn.recorded = none) :
      Does who nowNs f (dropped f nowNs d nd x n nn)
  | restamp {n nn m} (hn : f.Has n nn) (hk : nn.kind = .file) (hsub : Subject who nn)
      (hagain : Restamp md5 mode log who n m) (hloud : ¬ mode.quiet) :
      Does who nowNs f (f.set n { nn with recorded := some m, ctimeNs := nowNs })
  | edit {n nn} (data : Bytes) (hn : f.Has n nn) (hk : nn.kind = .file) (hsub : Subject who nn)
      (hfresh : mode.fresh → Fresh nn nowNs) (hloud : ¬ mode.quiet) :
      Does who nowNs f (f.set n (nn.rewritten data nowNs))

end

/-! ### What becomes of an inode -/

/-- An inode stays what it is and where it was made; a part that is complete stays as it is. -/
structure Node.Later (n n' : Node D (Who D)) : Prop where
  kind : n'.kind = n.kind
  maker : n'.maker = n.maker
  path : n'.path = n.path
  live : n'.live = true → n.live = true
  moved : n.moved = true → n'.moved = true

/-- The file is as it was, but for its name and its ctime. -/
def Node.SameFile (n n' : Node D (Who D)) : Prop :=
  n'.data = n.data ∧ n'.mtimeNs = n.mtimeNs ∧ n'.recorded = n.recorded

/-- How a call may change a file. -/
inductive Node.ChangedBy (md5 : Md5 D) (mode : Mode) (who : Who D) (f : Files D (Who D))
    (n n' : Node D (Who D)) : Prop
  | same (h : n.SameFile n') (hmoved : n'.moved = n.moved)
  | published (h : n.SameFile n') (hmine : n.maker = some who) (hrec : n.recorded.isSome = true)
      (hnew : n.moved = false) (hmoved : n'.moved = true) (htarget : who.2.target ≠ none)
  | written (hmine : n.maker = some who) (hrec : n.recorded = none) (hrec' : n'.recorded = none)
      (hnew : n.moved = false) (hnew' : n'.moved = false)
  | recorded {m : ObjectMeta D} (hmine : n.maker = some who) (hrec : n.recorded = none)
      (hdata : n'.data = n.data) (hmtime : n'.mtimeNs = n.mtimeNs) (hrec' : n'.recorded = some m)
      (hm : Stamp md5 mode who.2 f n m) (hnew : n.moved = false) (hnew' : n'.moved = false)
  | subject (h : Subject who n) (hmoved : n'.moved = true)
      (hrec : n.recorded.isSome = true → n'.recorded.isSome = true) (hloud : ¬ mode.quiet)

variable {md5 : Md5 D} {mode : Mode} {log : List (Asked D (Who D))} {who : Who D} {nowNs : Int}
  {f f' : Files D (Who D)}

theorem Node.Later.refl (n : Node D (Who D)) : n.Later n := ⟨rfl, rfl, rfl, id, id⟩

variable {n' : Node D (Who D)}

theorem Node.Later.trans {n'' : Node D (Who D)} (h : n.Later n') (h' : n'.Later n'') : n.Later n'' :=
  ⟨h'.kind.trans h.kind, h'.maker.trans h.maker, h'.path.trans h.path, fun hl => h.live (h'.live hl),
    fun hm => h'.moved (h.moved hm)⟩

/-- What a step of a call may make of an inode. -/
structure Node.Step (md5 : Md5 D) (mode : Mode) (who : Who D) (f : Files D (Who D))
    (n n' : Node D (Who D)) : Prop extends n.Later n' where
  file : n.kind = .file → n.ChangedBy md5 mode who f n'

theorem Node.Step.refl (md5 : Md5 D) (mode : Mode) (who : Who D) (f : Files D (Who D))
    (n : Node D (Who D)) : n.Step md5 mode who f n :=
  ⟨.refl n, fun _ => .same ⟨rfl, rfl, rfl⟩ rfl⟩

theorem Node.Step.dir (h : n.Later n') (hk : n.kind = .dir) : n.Step md5 mode who f n' := by
  refine ⟨h, fun hf => ?_⟩
  rw [hk] at hf
  cases hf

theorem Does.node (h : Does md5 mode log who nowNs f f') (hwf : f.WF) {i : Nat}
    (hn : f.nodes i = some n) : ∃ n', f'.nodes i = some n' ∧ n.Step md5 mode who f n' := by
  have htouch : ∀ {nd : Node D (Who D)}, nd.kind = .dir → ∀ entries, nd.Step md5 mode who f (touch nd nowNs entries) :=
    fun hk entries => .dir ⟨rfl, rfl, rfl, id, id⟩ hk
  have hrefl := Node.Step.refl md5 mode who f
  cases h with
  | makeDir hd hk hx | makeTemp hd hk hx => exact node_made hrefl hwf hd (htouch hk) hn
  | write data hn' hk hmine hnew hrec hfresh =>
    refine node_set hrefl hn' ?_ hn
    exact ⟨⟨rfl, rfl, rfl, id, id⟩, fun _ => .written hmine hrec hrec hnew hnew⟩
  | record hn' hk hmine hnew hrec hm =>
    refine node_set hrefl hn' ?_ hn
    exact ⟨⟨rfl, rfl, rfl, id, id⟩, fun _ => .recorded hmine hrec rfl rfl rfl hm hnew hnew⟩
  | publish hd hn' hk hmine hnew hrec htarget hx =>
    refine node_placed hrefl hd.has hn' (htouch hd.isDir) ?_ hn
    exact ⟨⟨rfl, rfl, rfl, id, fun _ => rfl⟩, fun _ => .published ⟨rfl, rfl, rfl⟩ hmine hrec hnew rfl
      (by rw [htarget]; nofun)⟩
  | mark m hd hk hmarks | setUpload u hd hk =>
    refine node_set hrefl hd ?_ hn
    exact .dir ⟨rfl, rfl, rfl, id, id⟩ hk
  | unlink hd hn' hk hx =>
    refine node_dropped hrefl hd.has hn' (htouch hd.isDir) ?_ hn
    exact ⟨⟨rfl, rfl, rfl, nofun, id⟩, fun _ => .same ⟨rfl, rfl, rfl⟩ rfl⟩
  | rmdir hd hn' hk hempty hmark =>
    exact node_dropped hrefl hd.has hn' (htouch hd.isDir) (.dir ⟨rfl, rfl, rfl, nofun, id⟩ hk) hn
  | restamp hn' hk hsub hagain hloud =>
    refine node_set hrefl hn' ?_ hn
    exact ⟨⟨rfl, rfl, rfl, id, id⟩, fun _ => .subject hsub hsub.1 (fun _ => rfl) hloud⟩
  | edit data hn' hk hsub hfresh hloud =>
    refine node_set hrefl hn' ?_ hn
    exact ⟨⟨rfl, rfl, rfl, id, id⟩, fun _ => .subject hsub hsub.1 id hloud⟩

/-- An inode that was not there is new. -/
structure Node.New (who : Who D) (n : Node D (Who D)) : Prop where
  maker : n.maker = some who
  moved : n.moved = false
  recorded : n.recorded = none
  kind : n.kind = .dir ∨ n.kind = .file
  was : n.was = []

theorem Does.fresh (h : Does md5 mode log who nowNs f f') {i : Nat} (hn' : f'.nodes i = some n') :
    (∃ n, f.nodes i = some n) ∨ n'.New who := by
  have hset : ∀ {f : Files D (Who D)} {j m m'}, f.Has j m → (f.set j m').nodes i = some n' →
      ∃ n, f.nodes i = some n := by
    intro f j m m' hm hi
    rw [set_nodes] at hi
    split at hi
    · exact ⟨m, ‹i = j› ▸ hm.1⟩
    · exact ⟨n', hi⟩
  have hmade : ∀ {d nd x kind}, f.Has d nd → kind = .dir ∨ kind = .file →
      (made f who nowNs d nd x kind).nodes i = some n' → (∃ n, f.nodes i = some n) ∨ n'.New who := by
    intro d nd x kind hd hk hi
    rw [made_nodes] at hi
    split at hi
    · rw [← some.inj hi]
      exact .inr ⟨rfl, rfl, rfl, hk, rfl⟩
    · split at hi
      · exact .inl ⟨nd, ‹i = d› ▸ hd.1⟩
      · exact .inl ⟨n', hi⟩
  have hdropped : ∀ {d nd x j m}, f.Names d nd x j → f.Has j m →
      (dropped f nowNs d nd x j m).nodes i = some n' → ∃ n, f.nodes i = some n := by
    intro d nd x j m hd hm hi
    rw [dropped_nodes] at hi
    split at hi
    · exact ⟨m, ‹i = j› ▸ hm.1⟩
    · split at hi
      · exact ⟨nd, ‹i = d› ▸ hd.has.1⟩
      · exact ⟨n', hi⟩
  cases h with
  | makeDir hd hk hx => exact hmade hd (.inl rfl) hn'
  | makeTemp hd hk hx => exact hmade hd (.inr rfl) hn'
  | write data hn _ _ _ _ _ | record hn _ _ _ _ _ | mark m hn _ _ | setUpload u hn _ | restamp hn _ _ _ _
  | edit data hn _ _ _ _ => exact .inl (hset hn hn')
  | @publish d nd x j m hd hm hk hmine hnew hrec htarget hx =>
    rw [placed_nodes] at hn'
    split at hn'
    · exact .inl ⟨m, ‹i = j› ▸ hm.1⟩
    · split at hn'
      · exact .inl ⟨nd, ‹i = d› ▸ hd.has.1⟩
      · exact .inl ⟨n', hn'⟩
  | unlink hd hm _ _ | rmdir hd hm _ _ _ => exact .inl (hdropped hd hm hn')

/-! ### The invariant of a bucket -/

structure Inv (md5 : Md5 D) (f : Files D (Who D)) : Prop where
  wf : f.WF
  kinds : ∀ {i n}, f.nodes i = some n → n.kind = .dir ∨ n.kind = .file
  /-- A file has the hidden name that its maker gave it, or the name that its maker was to give it. -/
  owned : ∀ {d nd x i n}, f.Linked d x i → f.nodes d = some nd → f.nodes i = some n → n.kind = .file →
    ∃ j c, n.maker = some (j, c) ∧ (n.moved = false → x = tempName j) ∧
      (n.moved = true → c.target = some (nd.path, x))
  done : ∀ {i n}, f.nodes i = some n → n.kind = .file → n.moved = true → n.recorded.isSome = true
  /-- What a part upload has recorded is the part. -/
  parts : ∀ {i n j id key number body}, f.nodes i = some n → n.kind = .file →
    n.maker = some (j, .uploadPart id key number body) → n.recorded.isSome = true →
    PartFile md5 n id number

section

variable (h : Does md5 mode log who nowNs f f')
include h

theorem Does.linked (hwf : f.WF) {d i : Nat} {x : Text} (hl : f'.Linked d x i) :
    (f.Linked d x i ∧ ∀ n n', f.nodes i = some n → f'.nodes i = some n' → n'.moved = n.moved) ∨
      ∃ n', f'.nodes i = some n' ∧ (n'.kind = .dir ∨ n'.maker = some who ∧ (n'.moved = false ∧ x = tempName who.1 ∨
          n'.moved = true ∧ ∃ nd', f'.nodes d = some nd' ∧ who.2.target = some (nd'.path, x))) := by
  -- a change of an inode leaves its names alone
  have hset : ∀ {j m m'}, f.Has j m → m'.entries = m.entries → m'.moved = m.moved →
      (f.set j m').Linked d x i → f.Linked d x i ∧
        ∀ n n', f.nodes i = some n → (f.set j m').nodes i = some n' → n'.moved = n.moved := by
    intro j m m' hm hent hmoved hl
    refine ⟨(linked_set hm hent).mp hl, fun n n' hn hn' => ?_⟩
    obtain ⟨n'', hn'', heq⟩ := node_set (X := fun n n' => n'.moved = n.moved) (fun _ => rfl) hm hmoved hn
    rwa [mem_unique hn' hn'']
  have hmade : ∀ {e ne y kind}, f.Has e ne → ne.entries.lookup y = none →
      (kind = .dir ∨ kind = .file ∧ y = tempName who.1) →
      (made f who nowNs e ne y kind).Linked d x i → (f.Linked d x i ∧ ∀ n n', f.nodes i = some n →
        (made f who nowNs e ne y kind).nodes i = some n' → n'.moved = n.moved) ∨
      ∃ n', (made f who nowNs e ne y kind).nodes i = some n' ∧ (n'.kind = .dir ∨
        n'.maker = some who ∧ n'.moved = false ∧ x = tempName who.1) := by
    intro e ne y kind he hy hk hl
    rcases (hwf.linked_made he hy).mp hl with hold | ⟨rfl, rfl, rfl⟩
    · refine .inl ⟨hold, fun n n' hn hn' => ?_⟩
      obtain ⟨n'', hn'', heq⟩ := node_made (X := fun n n' => n'.moved = n.moved) (fun _ => rfl) hwf he (fun _ => rfl) hn
      rwa [mem_unique hn' hn'']
    · refine .inr ⟨_, (made_nodes ..).trans (if_pos rfl), ?_⟩
      exact hk.imp id fun h => ⟨rfl, rfl, h.2⟩
  have hdropped : ∀ {e ne y j m}, f.Names e ne y j → f.Has j m → (∀ x c, ¬ f.Linked j x c) →
      (dropped f nowNs e ne y j m).Linked d x i → f.Linked d x i ∧ ∀ n n', f.nodes i = some n →
        (dropped f nowNs e ne y j m).nodes i = some n' → n'.moved = n.moved := by
    intro e ne y j m he hm hleaf hl
    refine ⟨((linked_dropped he hm hleaf).mp hl).1, fun n n' hn hn' => ?_⟩
    obtain ⟨n'', hn'', heq⟩ := node_dropped (X := fun n n' => n'.moved = n.moved) (fun _ => rfl) he.has hm
      (fun _ => rfl) rfl hn
    rwa [mem_unique hn' hn'']
  cases h with
  | makeDir hd hk hx =>
    exact (hmade hd hx (.inl rfl) hl).imp id fun ⟨n', hn', h⟩ =>
      ⟨n', hn', h.imp id fun h => ⟨h.1, .inl h.2⟩⟩
  | makeTemp hd hk hx =>
    exact (hmade hd hx (.inr ⟨rfl, rfl⟩) hl).imp id fun ⟨n', hn', h⟩ =>
      ⟨n', hn', h.imp id fun h => ⟨h.1, .inl h.2⟩⟩
  | write data hn _ _ _ _ _ | record hn _ _ _ _ _ | mark m hn _ _ | setUpload u hn _ | restamp hn _ _ _ _
  | edit data hn _ _ _ _ => exact .inl (hset hn rfl rfl hl)
  | @publish e ne y j m hd hm hk hmine hnew hrec htarget hx =>
    have hfile : m.kind ≠ .dir := by rw [hk]; nofun
    rcases (hwf.linked_placed hd hm hfile).mp hl with ⟨rfl, rfl, rfl⟩ | ⟨hold, hother, -⟩
    · refine .inr ⟨_, (placed_nodes ..).trans (if_pos rfl), .inr ⟨hmine, .inr ⟨rfl, _,
        (placed_nodes ..).trans ((if_neg (hwf.not_self hd).symm).trans (if_pos rfl)), htarget⟩⟩⟩
    · refine .inl ⟨hold, fun n n' hn hn' => ?_⟩
      have hne : i ≠ j := by
        rintro rfl
        exact hother (hwf.single hold hd.linked)
      rw [placed_nodes, if_neg hne] at hn'
      split at hn'
      · subst ‹i = e›
        rw [← some.inj hn', mem_unique hn hd.has.1]
        rfl
      · rw [mem_unique hn hn']
  | unlink hd hm hk _ => exact .inl (hdropped hd hm (hwf.leaf hm (by rw [hk]; nofun)) hl)
  | rmdir hd hm _ hempty _ => exact .inl (hdropped hd hm (not_linked_of_empty hm hempty) hl)

theorem Does.wf (hwf : f.WF) : f'.WF := by
  cases h with
  | makeDir hd hk hx | makeTemp hd hk hx => exact hwf.made hd hk hx
  | write data hn _ _ _ _ _ | record hn _ _ _ _ _ | mark m hn _ _ | setUpload u hn _ | restamp hn _ _ _ _
  | edit data hn _ _ _ _ => exact hwf.set hn rfl rfl hn.2 rfl
  | publish hd hn hk _ _ _ _ hx => exact hwf.placed hd hn (by rw [hk]; nofun) hx
  | unlink hd hn hk _ => exact hwf.dropped hd hn (hwf.leaf hn (by rw [hk]; nofun))
  | rmdir hd hn _ hempty _ => exact hwf.dropped hd hn (not_linked_of_empty hn hempty)

omit h in
theorem PartFile.of_same {id : Text} {number : Int} (h : PartFile md5 n id number)
    (hlater : n.Later n') (hsame : n.SameFile n') : PartFile md5 n' id number := by
  obtain ⟨hdata, hmtime, hrec⟩ := hsame
  refine ⟨hlater.kind.trans h.kind, ?_, ?_⟩
  · rw [hlater.maker, hdata]
    exact h.made
  · rw [hrec, hdata, hmtime]
    exact h.recorded

theorem Does.inv (hinv : Inv md5 f) : Inv md5 f' where
  wf := h.wf hinv.wf
  kinds {i n'} hn' := by
    rcases h.fresh hn' with ⟨n, hn⟩ | hnew
    · obtain ⟨n'', hn'', hstep⟩ := h.node hinv.wf hn
      rw [mem_unique hn' hn'', hstep.kind]
      exact hinv.kinds hn
    · exact hnew.kind
  owned {d nd' x i n'} hl hd' hn' hk := by
    rcases h.linked hinv.wf hl with ⟨hold, hmoved⟩ | ⟨m, hm, hcases⟩
    · obtain ⟨-, nd, n, hnd, -, hn, -⟩ := hinv.wf.link hold
      obtain ⟨nd'', hnd'', hdstep⟩ := h.node hinv.wf hnd.1
      obtain ⟨n'', hn'', hstep⟩ := h.node hinv.wf hn.1
      obtain rfl := mem_unique hn' hn''
      obtain rfl := mem_unique hd' hnd''
      obtain ⟨j, c, hmaker, hhidden, htarget⟩ := hinv.owned hold hnd.1 hn.1 (hstep.kind ▸ hk)
      rw [hstep.maker, hmoved n n' hn.1 hn', hdstep.path]
      exact ⟨j, c, hmaker, hhidden, htarget⟩
    · obtain rfl := mem_unique hn' hm
      rcases hcases with hdir | ⟨hmaker, ⟨hm, rfl⟩ | ⟨hm, nd, hnd, htarget⟩⟩
      · rw [hk] at hdir
        cases hdir
      · exact ⟨who.1, who.2, hmaker, fun _ => rfl, fun hyes => (by rw [hm] at hyes; cases hyes)⟩
      · obtain rfl := mem_unique hd' hnd
        exact ⟨who.1, who.2, hmaker, fun hno => (by rw [hm] at hno; cases hno), fun _ => htarget⟩
  done {i n'} hn' hk hmoved := by
    rcases h.fresh hn' with ⟨n, hn⟩ | hnew
    · obtain ⟨n'', hn'', hstep⟩ := h.node hinv.wf hn
      obtain rfl := mem_unique hn' hn''
      have hk' := hstep.kind ▸ hk
      cases hstep.file hk' with
      | same hsame hm => exact hsame.2.2 ▸ hinv.done hn hk' (hm ▸ hmoved)
      | published hsame _ hrec _ _ _ => exact hsame.2.2 ▸ hrec
      | written _ _ _ _ hm | recorded _ _ _ _ _ _ _ hm => rw [hmoved] at hm; cases hm
      | subject hsub _ hrec _ => exact hrec (hinv.done hn hk' hsub.1)
    · rw [hnew.moved] at hmoved
      cases hmoved
  parts {i n' j id key number body} hn' hk hmaker hrec := by
    rcases h.fresh hn' with ⟨n, hn⟩ | hnew
    · obtain ⟨n'', hn'', hstep⟩ := h.node hinv.wf hn
      obtain rfl := mem_unique hn' hn''
      have hk' := hstep.kind ▸ hk
      have hmaker' := hstep.maker ▸ hmaker
      cases hstep.file hk' with
      | same hsame _ =>
        exact (hinv.parts hn hk' hmaker' (hsame.2.2 ▸ hrec)).of_same hstep.toLater hsame
      | published hsame _ hrec' _ _ _ =>
        exact (hinv.parts hn hk' hmaker' hrec').of_same hstep.toLater hsame
      | written _ _ hnone _ _ => rw [hnone] at hrec; cases hrec
      | @recorded m hmine _ hdata hmtime hm hstamp _ _ =>
        obtain rfl := mem_unique hmine hmaker'
        refine ⟨hk, ⟨j, key, body, hmaker, hdata.trans (hstamp.content.part rfl)⟩, m, hm, ?_, ?_, ?_⟩
        · rw [hdata]
          exact hstamp.content.plain nofun
        · rw [hdata]
          exact hstamp.size
        · rw [hmtime]
          exact hstamp.mtimeNs
      | subject hsub _ _ _ => exact absurd hmaker' hsub.not_part
    · rw [hnew.recorded] at hrec
      cases hrec

end

end AtlasNative.S3
