import AtlasNative.S3.Writing

/-!
# Multipart uploads

What a completion learns about the parts of its upload, and what it makes of them.
-/

namespace AtlasNative.S3

open Program Files Relation Rules List

variable {D : Type} [DecidableEq D] {md5 : Md5 D} {mode : Mode} {readOnly : Bool} {who : Who D}
  {x : Env} {r : Request D} {w w' : World D (Who D)} {P : World D (Who D) → Prop} {c d : Nat}
  {key id : Text}

/-! ### Parts -/

omit [DecidableEq D] in
/-- A part stays as it was uploaded. -/
theorem partFile_grows {number : Int} {n : Node D (Who D)} (hgrows : w.files.Grows mode w'.files)
    (hn : w.files.nodes c = some n) (hpart : PartFile md5 n id number) :
    ∃ n', w'.files.nodes c = some n' ∧ PartFile md5 n' id number ∧ n.SameFile n' := by
  obtain ⟨n', hn', hlater⟩ := hgrows.node hn
  obtain ⟨i, key, body, hmaker, -⟩ := hpart.made
  obtain ⟨m, hm, -⟩ := hpart.recorded
  have hsame := hgrows.parts hn hpart.kind hmaker (by rw [hm]; rfl) hn'
  exact ⟨n', hn', hpart.of_same hlater hsame, hsame⟩

omit [DecidableEq D] in
theorem lasting_piece (md5 : Md5 D) (mode : Mode) (id : Text) (listed : Int × ETag D)
    (piece : D × Bytes) : Lasting mode fun w => Piece md5 mode w.files id listed piece := by
  rintro w w' hgrows ⟨l, n, hn, hpart, hetag, hdigest, hbytes⟩
  obtain ⟨n', hn', hpart', hdata, -⟩ := partFile_grows hgrows.toGrows hn hpart
  exact ⟨l, n', hn', hpart', hdata ▸ hetag, hdata ▸ hdigest, hdata ▸ hbytes⟩

omit [DecidableEq D] in
theorem partFile_of_fileOf {name : Text} (hinv : Inv md5 w.files) (h : FileOf ([uploadsDir, id], name) c w) :
    ∃ number n, w.files.nodes c = some n ∧ PartFile md5 n id number ∧ name = partName number := by
  obtain ⟨n, i, call, hn, hk, hmoved, hmaker, htarget⟩ := h
  have hplace : ∀ {k}, place k ≠ some ([uploadsDir, id], name) :=
    fun hk => not_segment_uploadsDir (segment_of_place hk (by simp))
  cases call with
  | put | copy | completeUpload => exact absurd htarget hplace
  | uploadPart id' key number body =>
    obtain ⟨hpath, rfl⟩ := Prod.mk.inj (Option.some.inj htarget)
    obtain rfl : id' = id := by simpa using hpath
    exact ⟨number, n, hn, hinv.parts hn hk hmaker (hinv.done hn hk hmoved), rfl⟩
  | delete | setHeaders | head | createUpload | abortUpload | write | truncate => cases htarget

/-- The bytes of a part. -/
def PartOn (md5 : Md5 D) (id : Text) (number : Int) (bytes : Bytes) (c : Nat) (w : World D (Who D)) :
    Prop :=
  ∃ n, w.files.nodes c = some n ∧ PartFile md5 n id number ∧ n.data = bytes

omit [DecidableEq D] in
theorem lasting_partOn (md5 : Md5 D) (mode : Mode) (id : Text) (number : Int) (bytes : Bytes) (c : Nat) :
    Lasting mode (PartOn md5 id number bytes c) := by
  rintro w w' hgrows ⟨n, hn, hpart, rfl⟩
  obtain ⟨n', hn', hpart', hdata, -⟩ := partFile_grows hgrows.toGrows hn hpart
  exact ⟨n', hn', hpart', hdata⟩

/-! ### The listing -/

/-- The call was told that `ino` has the name in the directory at `path`. -/
def Listed (who : Who D) (path : List Text) (name : Text) (ino : Nat) (w : World D (Who D)) : Prop :=
  ∃ e ∈ w.log, ino ∈ e.listed who path name

theorem lasting_listed (mode : Mode) (who : Who D) (path : List Text) (name : Text) (ino : Nat) :
    Lasting mode (Listed who path name ino) :=
  fun _ _ hgrows ⟨e, he, hino⟩ => ⟨e, hgrows.log he, hino⟩

/-- What a completion knows about a part that it has listed. -/
def PartSeen (md5 : Md5 D) (who : Who D) (id : Text) (p : Part D) (w : World D (Who D)) : Prop :=
  ∃ l bytes, PartOn md5 id p.number bytes l w ∧ p.etag = .plain (md5.ofBytes bytes) ∧
    p.size = bytes.length ∧ Listed who [uploadsDir, id] (partName p.number) l w

theorem lasting_partSeen (md5 : Md5 D) (mode : Mode) (who : Who D) (id : Text) (p : Part D) :
    Lasting mode (PartSeen md5 who id p) := by
  rintro w w' hgrows ⟨l, bytes, hpart, hetag, hsize, hlisted⟩
  exact ⟨l, bytes, lasting_partOn md5 mode id _ bytes l hgrows hpart, hetag, hsize,
    lasting_listed mode who _ _ l hgrows hlisted⟩

/-- What a completion knows about an entry of its upload's directory. -/
def EntrySeen (who : Who D) (id : Text) (e : DirEntry) (w : World D (Who D)) : Prop :=
  Listed who [uploadsDir, id] e.name e.ino w ∧
    (e.kind = .file → (∀ i, e.name ≠ tempName i) → FileOf ([uploadsDir, id], e.name) e.ino w)

theorem lasting_entrySeen (mode : Mode) (who : Who D) (id : Text) (e : DirEntry) : Lasting mode (EntrySeen who id e) :=
  fun _ _ hgrows ⟨hlisted, hfile⟩ => ⟨lasting_listed mode who _ _ _ hgrows hlisted,
    fun hk hname => lasting_fileOf mode _ _ hgrows (hfile hk hname)⟩

omit [DecidableEq D] in
theorem lasting_forall {ι : Type} {F : ι → World D (Who D) → Prop} {l : List ι}
    (h : ∀ i ∈ l, Lasting mode (F i)) : Lasting mode fun w => ∀ i ∈ l, F i w :=
  fun _ _ hgrows hall i hi => h i hi hgrows (hall i hi)

theorem tempName_not_number (i : Nat) : parseNumber (tempName i) = none := rfl

omit [DecidableEq D] in
theorem PartFile.described {number : Int} {n : Node D (Who D)} {a : Attr} (h : PartFile md5 n id number) (readOnly : Bool)
    (hk : a.kind = .file) (hsize : a.size = n.data.length) (hmtime : a.mtimeNs = n.mtimeNs) :
    ((bucket md5 readOnly).described a n.recorded).size = n.data.length ∧
      ((bucket md5 readOnly).described a n.recorded).etag = .plain (md5.ofBytes n.data) := by
  obtain ⟨m, hm, hetag, hsize', hmtime'⟩ := h.recorded
  have hdir : a.kind ≠ .dir := by rw [hk]; nofun
  have hvalid : m.size = a.size ∧ m.mtimeNs = a.mtimeNs := ⟨hsize'.trans hsize.symm, hmtime'.trans hmtime.symm⟩
  simp [Bucket.described, hm, hdir, hvalid, hetag, hsize]

section

variable (hP : Stable (bucketRules md5 mode) who P) (hw : P w) (hinv : Inv md5 w.files)
include hP hw hinv

theorem wp_partOf {e : DirEntry} {Q : Except StoreError (Option (Part D)) → World D (Who D) → Prop}
    (he : EntrySeen who id e w)
    (h : ∀ w' part, P w' → Inv md5 w'.files → (∀ p ∈ part, PartSeen md5 who id p w') → Q (.ok part) w')
    (herr : Fails md5 P Q) : Wp md5 mode who ((bucket md5 readOnly).partOf e).run Q w := by
  have hnone : ∀ w', P w' → Inv md5 w'.files → Q (.ok none) w' := fun w' hw' hinv' => h w' none hw' hinv' (by simp)
  unfold Bucket.partOf
  split
  · exact hnone w hw hinv
  rename_i number hnumber
  split
  · exact hnone w hw hinv
  rename_i hfile
  obtain ⟨hkind, -⟩ := not_or.mp hfile
  have hname : ∀ i, e.name ≠ tempName i := by
    intro i heq
    rw [heq, tempName_not_number] at hnumber
    cases hnumber
  have hstable := hP.and (lasting_entrySeen (D := D) mode who id e).stable
  refine (bucketRules_fair md5 mode).read rfl hstable ⟨hw, he⟩ ?_
  rintro w1 (reply : Except Errno Attr) ⟨hw1, he1⟩ hinv1 hsaw -
  cases reply with
  | ok a =>
    obtain ⟨n, hn, rfl⟩ := getattr_eq_ok.mp hsaw.ok
    -- the entry is the part of that number
    obtain ⟨number', n', hn', hpart, heq⟩ := partFile_of_fileOf hinv1 (he1.2 (not_not.mp hkind) hname)
    obtain rfl := Option.mem_unique hn' hn.1
    rw [heq, parseNumber_partName] at hnumber
    obtain rfl := Option.some.inj hnumber
    have hlasting : Lasting mode fun w => ∃ m, w.files.nodes e.ino = some m ∧
        PartFile md5 m id number' ∧ n'.SameFile m := by
      rintro w w' hgrows ⟨m, hm, hpart', hsame⟩
      obtain ⟨m', hm', hpart'', hsame'⟩ := partFile_grows hgrows.toGrows hm hpart'
      exact ⟨m', hm', hpart'', hsame.trans hsame'⟩
    refine wp_bindE (wp_objectOf (hstable.and hlasting.stable)
      ⟨⟨hw1, he1⟩, n', hn', hpart, rfl, rfl, rfl⟩ ?_ herr.left.left)
    rintro w2 _ ⟨⟨hw2, he2⟩, m, hm, hpart', hdata, hmtime, -⟩ hinv2 hsaw2
    obtain ⟨m', hm', rfl⟩ := recorded_eq_ok hsaw2.ok
    obtain rfl := Option.mem_unique hm hm'.1
    have hsize : (n'.attr e.ino).size = m.data.length := by
      rw [Node.attr, hpart.kind, hdata]
      rfl
    obtain ⟨hsize', hetag⟩ := hpart'.described readOnly hpart.kind hsize hmtime.symm
    refine h w2 _ hw2 hinv2 fun p hp => ?_
    obtain rfl := Option.some.inj hp
    exact ⟨e.ino, m.data, ⟨m, hm, hpart', rfl⟩, hetag, hsize', heq ▸ he2.1⟩
  | error e =>
    cases e with
    | noent => exact hnone w1 hw1 hinv1
    | _ => exact herr w1 _ hw1 hinv1

variable {entries : List DirEntry}

theorem wp_partsOf {Q : Except StoreError (List (Part D)) → World D (Who D) → Prop}
    (he : ∀ e ∈ entries, EntrySeen who id e w)
    (h : ∀ w' parts, P w' → Inv md5 w'.files → (∀ p ∈ parts, PartSeen md5 who id p w') →
      Q (.ok parts) w') (herr : Fails md5 P Q) :
    Wp md5 mode who ((bucket md5 readOnly).partsOf entries).run Q w := by
  induction entries generalizing P Q w with
  | nil => exact h w [] hw hinv nofun
  | cons e entries ih =>
    rw [Bucket.partsOf]
    have hrest : Lasting mode fun w => ∀ e ∈ entries, EntrySeen (D := D) who id e w :=
      lasting_forall fun e _ => lasting_entrySeen mode who id e
    refine wp_bindE (wp_partOf (hP.and hrest.stable)
      ⟨hw, fun e' he' => he e' (mem_cons_of_mem _ he')⟩ hinv (he e mem_cons_self) ?_
      herr.left)
    rintro w1 part ⟨hw1, he1⟩ hinv1 hpart
    have hseen : Lasting mode fun w => ∀ p ∈ part, PartSeen md5 who id p w :=
      fun _ _ hgrows hall p hp => lasting_partSeen md5 mode who id p hgrows (hall p hp)
    refine wp_bindE (ih (hP.and hseen.stable) ⟨hw1, hpart⟩ hinv1 he1 ?_ herr.left)
    rintro w2 parts ⟨hw2, hpart2⟩ hinv2 hparts
    refine h w2 _ hw2 hinv2 fun p hp => ?_
    rcases mem_append.mp hp with hp | hp
    · exact hpart2 p (Option.mem_toList.mp hp)
    · exact hparts p hp

omit hP hw hinv in
/-- What the listing of an upload's directory tells about its entries. -/
theorem entrySeen_of_saw (hinv : Inv md5 w.files) (hd : At [uploadsDir, id] d w)
    (h : Saw who (.readdir d) (.ok entries) w) : ∀ e ∈ entries, EntrySeen who id e w := by
  intro e he
  obtain ⟨nd, n, hnames, hn, hk⟩ := mem_readdir h.ok he
  refine ⟨⟨_, h.logged, ?_⟩, fun hfile hname => ?_⟩
  · obtain ⟨nd, hnd, -, hpath⟩ := hd
    have hhere : (w.files.nodes d).map (·.path) = some [uploadsDir, id] := by rw [hnd, ← hpath]; rfl
    simp only [Asked.listed, hhere, and_self, if_true, mem_map, mem_filter]
    exact ⟨e, ⟨he, by simp⟩, rfl⟩
  · exact fileOf_linked hinv hd hnames.linked hn (hk.trans hfile) hname

theorem wp_listPartsOf {Q : Except StoreError (List (Part D)) → World D (Who D) → Prop}
    (h : ∀ w' parts, P w' → Inv md5 w'.files → (∀ p ∈ parts, PartSeen md5 who id p w') →
      Q (.ok parts) w') (herr : Fails md5 P Q) :
    Wp md5 mode who ((bucket md5 readOnly).listParts id key).run Q w := by
  refine wp_bindE (wp_uploadDir hP hw hinv ?_ herr)
  intro w1 d _ hw1 hinv1 hd
  refine wp_bindE ((bucketRules_fair md5 mode).call rfl
    (hP.and (lasting_at mode [uploadsDir, id] d).stable) ⟨hw1, hd⟩ ?_
    fun w' e hw' hinv' => herr w' _ hw'.1 hinv')
  rintro w2 entries ⟨hw2, hd2⟩ hinv2 hsaw
  refine wp_bindE (wp_partsOf hP hw2 hinv2 (entrySeen_of_saw hinv2 hd2 hsaw) ?_ herr)
  intro w3 parts hw3 hinv3 hparts
  exact h w3 _ hw3 hinv3 fun p hp => hparts p ((perm_insertionSort _ _).mem_iff.mp hp)

end

/-! ### The parts to copy -/

/-- What a completion knows about the file that it takes for a part that it was given. -/
def SourceSeen (md5 : Md5 D) (mode : Mode) (id : Text) (listed : Int × ETag D) (source : D × Nat × Nat)
    (w : World D (Who D)) : Prop :=
  ∃ l bytes, PartOn md5 id listed.1 bytes l w ∧ listed.2 = .plain (md5.ofBytes bytes) ∧
    source.1 = md5.ofBytes bytes ∧ source.2.2 = bytes.length ∧ (mode.calm → source.2.1 = l)

omit [DecidableEq D] in
theorem lasting_sourceSeen (md5 : Md5 D) (mode : Mode) (id : Text) (listed : Int × ETag D)
    (source : D × Nat × Nat) : Lasting mode (SourceSeen md5 mode id listed source) := by
  rintro w w' hgrows ⟨l, bytes, hpart, hrest⟩
  exact ⟨l, bytes, lasting_partOn md5 mode id _ bytes l hgrows hpart, hrest⟩

omit [DecidableEq D] in
theorem lasting_forall₂ {ι κ : Type} {F : ι → κ → World D (Who D) → Prop} (l : List ι) (l' : List κ)
    (h : ∀ i k, Lasting mode (F i k)) : Lasting mode fun w => List.Forall₂ (F · · w) l l' :=
  fun _ _ hgrows hall => hall.imp fun i k hik => h i k hgrows hik

variable {parts : List (Int × ETag D)}

/-- The look-up of a part finds the file that the listing had under its name. -/
theorem ino_of_sameParts {name : Text} {a : Attr} {l : Nat} {log : List (Asked D (Who D))}
    {reply : Reply (.lookup d name)} (hwho : who.2 = .completeUpload id key parts)
    (hd : At [uploadsDir, id] d w) (hsame : SameParts who (.lookup d name) ⟨w.files, log⟩)
    (hlog : w.log = log ++ [⟨who, .lookup d name, reply, w.files⟩])
    (ha : w.files.lookup d name = .ok a) (hlisted : Listed who [uploadsDir, id] name l w) :
    a.ino = l := by
  obtain ⟨nd, hnd, -, hpath⟩ := hd
  obtain ⟨e, he, hino⟩ := hlisted
  have hbefore : e ∈ log := by
    rw [hlog] at he
    rcases mem_append.mp he with he | he
    · exact he
    · rw [mem_singleton.mp he] at hino
      cases hino
  exact hsame (d, name) (by rw [hwho]; rfl) nd hnd e hbefore l (hpath ▸ hino) a (by rw [ha]; rfl)

theorem wp_sourcesOf {whole : List (Int × ETag D)} {stored : List (Part D)}
    {Q : Except StoreError (List (D × Nat × Nat)) → World D (Who D) → Prop}
    (hwho : who.2 = .completeUpload id key whole) (hP : Stable (bucketRules md5 mode) who P)
    (hw : P w) (hinv : Inv md5 w.files) (hd : At [uploadsDir, id] d w)
    (hstored : ∀ p ∈ stored, PartSeen md5 who id p w) (h : ∀ w' sources, P w' → Inv md5 w'.files →
      List.Forall₂ (SourceSeen md5 mode id · · w') parts sources → Q (.ok sources) w')
    (herr : Fails md5 P Q) :
    Wp md5 mode who ((bucket md5 readOnly).sources d stored parts).run Q w := by
  induction parts generalizing P Q w with
  | nil => exact h w [] hw hinv .nil
  | cons part parts ih =>
    obtain ⟨number, etag⟩ := part
    unfold Bucket.sources
    split
    · exact herr w _ hw hinv
    rename_i p hp
    have hmem : p ∈ stored := mem_reverse.mp (mem_of_find?_eq_some hp)
    have hnumber : p.number = number := by simpa using find?_some hp
    dsimp only
    split
    · exact herr w _ hw hinv
    rename_i hetag
    obtain rfl : p.etag = etag := not_not.mp hetag
    split
    · exact herr w _ hw hinv
    have hseen : Lasting mode fun w => ∀ p ∈ stored, PartSeen md5 who id p w :=
      lasting_forall fun p _ => lasting_partSeen md5 mode who id p
    have hkeep := (lasting_at (D := D) mode [uploadsDir, id] d).and hseen
    refine wp_bindE ((bucketRules_fair md5 mode).lookup (hP.and hkeep.stable) ⟨hw, hd, hstored⟩ ?_)
    rintro w1 res ⟨hw1, hd1, hstored1⟩ hinv1 hlook ⟨x, log, reply, hmay, hlog⟩
    rcases res with e | _ | a
    · exact herr w1 e hw1 hinv1
    · exact herr w1 _ hw1 hinv1
    · obtain ⟨l, bytes, hpart, hetag', hsize, hlisted⟩ := hstored1 p hmem
      subst hnumber
      have hsource : SourceSeen md5 mode id (p.number, p.etag) (md5.ofBytes bytes, a.ino, p.size) w1 := by
        refine ⟨l, bytes, hpart, hetag', rfl, hsize, fun hcalm => ?_⟩
        exact ino_of_sameParts hwho hd1 (hmay.parts hcalm) hlog hlook.ok hlisted
      dsimp only
      rw [hetag']
      refine wp_bindE (ih (hP.and (lasting_sourceSeen md5 mode id _ _).stable) ⟨hw1, hsource⟩ hinv1 hd1
        hstored1 ?_ herr.left)
      rintro w2 sources ⟨hw2, hsource2⟩ hinv2 hsources
      exact h w2 _ hw2 hinv2 (.cons hsource2 hsources)

/-! ### Copying the parts -/

theorem take_append_read (bytes : Bytes) (sofar k : Nat) : bytes.take sofar ++ (bytes.drop sofar).take k =
      bytes.take (sofar + ((bytes.drop sofar).take k).length) := by
  rw [take_add, length_take, ← take_eq_take_min]

section

variable {written : Bytes} {mtimeNs : Int} (hP : Lasting mode P) (hw : P w) (hinv : Inv md5 w.files)
  (hmine : Mine who c written mtimeNs none w)
include hP hw hinv hmine

theorem wp_copyPartOf {listed : Int × ETag D} {source : D × Nat × Nat}
    {Q : Except StoreError Writer → World D (Who D) → Prop}
    (hsource : SourceSeen md5 mode id listed source w)
    (h : ∀ w' piece mtimeNs, P w' → Inv md5 w'.files → Mine who c (written ++ piece.2) mtimeNs none w' →
      Piece md5 mode w'.files id listed piece → piece.1 = source.1 →
      Q (.ok ⟨d, c, tempName who.1, written ++ piece.2⟩) w') (herr : Fails md5 P Q) :
    Wp md5 mode who ((bucket md5 readOnly).copyFrom (bucket md5 readOnly) source.2.1 0
      source.2.2 ⟨d, c, tempName who.1, written⟩).run Q w := by
  obtain ⟨l, bytes, hpart, hetag, hdigest, hsize, hino⟩ := hsource
  -- what has been appended is the beginning of the part
  let K : Nat → Bytes → Prop := fun sofar out => ∃ more, out = written ++ more ∧
    (mode.calm → more = bytes.take sofar ∧ sofar ≤ bytes.length)
  refine wp_copyLoopOf (K := K) (hP.and (lasting_partOn md5 mode id listed.1 bytes l)) ?_ ⟨hw, hpart⟩ hinv
    hmine ⟨[], (append_nil _).symm, fun _ => ⟨rfl, Nat.zero_le _⟩⟩ (by omega) ?_
    herr.left
  · rintro w' sofar out data ⟨-, n, hn, hfile, rfl⟩ - hlt ⟨more, rfl, hmore⟩ hsaw
    refine ⟨more ++ data, (append_assoc ..), fun hcalm => ?_⟩
    obtain ⟨rfl, hle⟩ := hmore hcalm
    obtain ⟨n', hn', -, rfl⟩ := read_eq_ok hsaw.ok
    rw [hino hcalm] at hn'
    obtain rfl := Option.mem_unique hn hn'.1
    rw [Nat.zero_add, take_append_read]
    refine ⟨rfl, ?_⟩
    simp only [length_take, length_drop]
    omega
  · rintro w' sofar out mtimeNs' ⟨hw', n, hn, hfile, rfl⟩ hinv' hmine' ⟨more, rfl, hmore⟩ hle
    refine h w' (md5.ofBytes n.data, more) mtimeNs' hw' hinv' hmine'
      ⟨l, n, hn, hfile, hetag, rfl, fun hcalm => ?_⟩ hdigest.symm
    rw [(hmore hcalm).1, take_of_length_le (by omega)]

theorem wp_copyAllOf {sources : List (D × Nat × Nat)} {Q : Except StoreError Writer → World D (Who D) → Prop}
    (hsources : List.Forall₂ (SourceSeen md5 mode id · · w) parts sources)
    (h : ∀ w' pieces mtimeNs, P w' → Inv md5 w'.files →
      Mine who c (written ++ (pieces.map Prod.snd).flatten) mtimeNs none w' →
      List.Forall₂ (Piece md5 mode w'.files id) parts pieces →
      pieces.map Prod.fst = sources.map Prod.fst →
      Q (.ok ⟨d, c, tempName who.1, written ++ (pieces.map Prod.snd).flatten⟩) w')
    (herr : Fails md5 P Q) : Wp md5 mode who
      ((bucket md5 readOnly).copyAll ⟨d, c, tempName who.1, written⟩ sources).run Q w := by
  induction sources generalizing P Q parts written mtimeNs w with
  | nil =>
    cases hsources
    have hdone : Q (.ok ⟨d, c, tempName who.1, written⟩) w := by
      simpa using h w [] mtimeNs hw hinv (by simpa using hmine) .nil rfl
    exact hdone
  | cons source sources ih =>
    obtain ⟨listed, parts, hsource, hrest, rfl⟩ := forall₂_cons_right_iff.mp hsources
    have hlasting := lasting_forall₂ parts sources fun i k => lasting_sourceSeen md5 mode id i k
    have hall := hP.and hlasting
    refine wp_bindE (wp_orDiscardOf rfl hall.stable (wp_copyPartOf hall ⟨hw, hrest⟩ hinv hmine hsource ?_
      fun w' e hw' _ => hw') herr.left)
    rintro w1 piece mtimeNs1 ⟨hw1, hrest1⟩ hinv1 hmine1 hpiece hfst
    refine ih (hP.and (lasting_piece md5 mode id listed piece)) ⟨hw1, hpiece⟩ hinv1 hmine1 hrest1 ?_ herr.left
    rintro w2 pieces mtimeNs2 ⟨hw2, hpiece2⟩ hinv2 hmine2 hpieces hfsts
    rw [append_assoc] at hmine2 ⊢
    refine h w2 (piece :: pieces) mtimeNs2 hw2 hinv2 hmine2 (.cons hpiece2 hpieces) ?_
    rw [map_cons, map_cons, hfst, hfsts]

end

/-! ### The end of an upload -/

section

variable (hwho : who.2.removes = some id) (hP : Stable (bucketRules md5 mode) who P) (hw : P w)
include hwho hP hw

theorem wp_unlinkAllOf {Q : Unit → World D (Who D) → Prop} (hinv : Inv md5 w.files)
    (hd : At [uploadsDir, id] d w) (h : ∀ w', P w' → Inv md5 w'.files → Q () w') :
    Wp md5 mode who ((bucket md5 readOnly).unlinkAll d entries) Q w := by
  induction entries generalizing w with
  | nil => exact h w hw hinv
  | cons e entries ih =>
    refine wp_unlinkOf (hP.and (lasting_at mode [uploadsDir, id] d).stable) ⟨hw, hd⟩ ?_
      fun w' _ hw' hinv' => ih hw'.1 hinv' hw'.2
    rintro w' nd ⟨-, md, hmd, -, hpath⟩ hnd
    obtain rfl := Option.mem_unique hmd hnd
    exact .inr (.inr (.inr ⟨id, hwho, hpath⟩))

omit hwho in
theorem wp_rmUploadOf {Q : Unit → World D (Who D) → Prop} (hinv : Inv md5 w.files)
    (h : ∀ w', P w' → Inv md5 w'.files → Q () w') : Wp md5 mode who (do
      match ← ((bucket md5 readOnly).findDir [uploadsDir]).run with
      | .ok (some uploads) =>
        let _ ← (bucket md5 readOnly).ops (.rmdir uploads id)
        pure ()
      | _ => pure ()) Q w := by
  have hfair := bucketRules_fair md5 mode
  refine wp_bind (hfair.findFrom (makesAt md5 mode who).toPlaces hP hw hinv (at_root hinv) ?_)
  rintro w1 (e | _ | uploads) hw1 hinv1 _
  · exact h w1 hw1 hinv1
  · exact h w1 hw1 hinv1
  · exact wp_rmdirOf hP hw1 fun w2 _ hw2 hinv2 => h w2 hw2 hinv2

theorem wp_removeUploadOf {Q : Unit → World D (Who D) → Prop} (hd : At [uploadsDir, id] d w)
    (h : ∀ w', P w' → Inv md5 w'.files → Q () w') :
    Wp md5 mode who ((bucket md5 readOnly).removeUpload d id) Q w := by
  refine (bucketRules_fair md5 mode).read rfl (hP.and (lasting_at mode [uploadsDir, id] d).stable) ⟨hw, hd⟩ ?_
  rintro w1 (reply : Except Errno (List DirEntry)) ⟨hw1, hd1⟩ hinv1 - -
  cases reply with
  | ok entries =>
    show Wp md5 mode who ((bucket md5 readOnly).unlinkAll d entries >>= fun _ => _) Q w1
    exact wp_bind (wp_unlinkAllOf hwho hP hw1 hinv1 hd1 fun w2 hw2 hinv2 => wp_rmUploadOf hP hw2 hinv2 h)
  | error e => exact wp_rmUploadOf hP hw1 hinv1 h

end

/-- What a completion has made of the parts. -/
def Assembled (md5 : Md5 D) (mode : Mode) (id : Text) (parts : List (Int × ETag D)) (o : Object D)
    (w : World D (Who D)) : Prop :=
  ∃ n pieces, w.files.nodes o.ino = some n ∧ n.kind = .file ∧ n.recorded.isSome = true ∧
    List.Forall₂ (Piece md5 mode w.files id) parts pieces ∧ n.data = (pieces.map Prod.snd).flatten

omit [DecidableEq D] in
theorem lasting_assembled (md5 : Md5 D) {mode : Mode} (hquiet : mode.quiet) (id : Text)
    (parts : List (Int × ETag D)) (o : Object D) : Lasting mode (Assembled md5 mode id parts o) := by
  rintro w w' hgrows ⟨n, pieces, hn, hk, hrec, hpieces, hdata⟩
  obtain ⟨n', hn', hlater⟩ := hgrows.node hn
  have hsame := hgrows.files hquiet hn hk hrec hn'
  refine ⟨n', pieces, hn', hlater.kind.trans hk, hsame.2.2 ▸ hrec, ?_, hsame.1.trans hdata⟩
  exact lasting_forall₂ parts pieces (fun a b => lasting_piece md5 mode id a b) hgrows hpieces

omit [DecidableEq D] in
theorem content_whole {pieces : List (D × Bytes)} {digests : List D} {f : Files D (Who D)}
    (hwho : who.2 = .completeUpload id key parts)
    (hpieces : List.Forall₂ (Piece md5 mode f id) parts pieces)
    (hdigests : pieces.map Prod.fst = digests) :
    Content md5 mode who.2 f (pieces.map Prod.snd).flatten (.parts (md5.ofDigests digests) parts.length) := by
  rw [hwho]
  refine ⟨fun hne => absurd rfl (hne id key parts), nofun, fun heq => ?_⟩
  injection heq with hid _ hparts
  subst hid hparts hdigests
  exact ⟨pieces, hpieces, rfl, rfl⟩

theorem wp_completeUploadOf (hwho : who.2 = .completeUpload id key parts) (hinv : Inv md5 w.files)
    (hno : NoFile who.1 w.files) :
    Wp md5 mode who ((bucket md5 readOnly).completeUpload who.1 id key parts).run
      (fun out w' => ∀ o, out = .ok o → mode.quiet → Assembled md5 mode id parts o w') w := by
  have hmarks : who.2.marks = markPlace key := by rw [hwho]; rfl
  have hremoves : who.2.removes = some id := by rw [hwho]; rfl
  have hfree := noFile_stable md5 mode who
  have herr : ∀ {α : Prop} (e : StoreError) (o : Object D),
      (Except.error e : Except StoreError (Object D)) = .ok o → α := fun _ _ h => nomatch h
  refine Fair.wp_writable ?_ fun o => herr _ o
  refine wp_bindE (wp_uploadDir hfree hno hinv ?_ fun _ e _ _ o => herr e o)
  intro w1 d upload hno1 hinv1 hd
  dsimp only
  split
  · exact fun o => herr _ o
  split
  · exact fun o => herr _ o
  have hplace := (lasting_at (D := D) mode [uploadsDir, id] d)
  refine wp_bindE (wp_listPartsOf (hfree.and hplace.stable) ⟨hno1, hd⟩ hinv1 ?_ fun _ e _ _ o => herr e o)
  rintro w2 stored ⟨hno2, hd2⟩ hinv2 hstored
  refine wp_bindE (wp_sourcesOf hwho (hfree.and hplace.stable) ⟨hno2, hd2⟩ hinv2 hd2 hstored ?_
    fun _ e _ _ o => herr e o)
  rintro w3 sources ⟨hno3, hd3⟩ hinv3 hsources
  have hsource := lasting_forall₂ parts sources fun i k => lasting_sourceSeen md5 mode id i k
  have hkeep := hplace.and hsource
  refine wp_bindE (wp_preparePutOf hmarks (hfree.and hkeep.stable) ⟨hno3, hd3, hsources⟩ hinv3 ?_
    (fun _ _ _ _ _ o => herr _ o) fun _ e _ _ o => herr e o)
  rintro w4 dirs name d' ⟨hno4, hd4, hsources4⟩ hinv4 hkey hd'
  have htarget : who.2.target = some (dirs, name) := by rw [hwho]; exact place_eq_some.mpr hkey
  have hall := hkeep.and (lasting_at (D := D) mode dirs d')
  refine wp_bindE (wp_writerOf hall ⟨⟨hd4, hsources4⟩, hd'⟩ hinv4 hno4 ?_ fun _ e _ _ o => herr e o)
  rintro w5 c mtimeNs ⟨⟨hd5, hsources5⟩, hd'5⟩ hinv5 hmine5
  have hwhere := hplace.and (lasting_at (D := D) mode dirs d')
  refine wp_bindE (wp_copyAllOf hwhere ⟨hd5, hd'5⟩ hinv5 hmine5 hsources5 ?_ fun _ e _ _ o => herr e o)
  rintro w6 pieces mtimeNs6 hw6 hinv6 hmine6 hpieces hfsts
  rw [nil_append] at hmine6 ⊢
  have hpiece := lasting_forall₂ parts pieces fun a b => lasting_piece md5 mode id a b
  refine wp_bindE (wp_commitOf (hwhere.and hpiece) htarget (fun w' hw' => content_whole hwho hw'.2 hfsts)
    ⟨hw6, hpieces⟩ hw6.2 hmine6 ?_ fun _ e _ _ o => herr e o)
  rintro w7 o ⟨⟨hd7, -⟩, hpieces7⟩ - - - hpub
  have hdone : mode.quiet → Assembled md5 mode id parts o w7 := by
    obtain ⟨n, m, hn, hk, -, -, hdata, hrec, -⟩ := hpub.node
    exact fun _ => ⟨n, pieces, hn, hk, by rw [hrec]; rfl, hpieces7, hdata⟩
  have hlast : Lasting mode fun w => mode.quiet → Assembled md5 mode id parts o w :=
    fun _ _ hgrows h hquiet => lasting_assembled md5 hquiet id parts o hgrows (h hquiet)
  refine wp_bindE (wp_bind (wp_removeUploadOf hremoves hlast.stable hdone hd7 ?_))
  intro w8 hdone8 _ o' ho'
  rw [← Except.ok.inj ho']
  exact hdone8

theorem wp_abortUploadOf (hwho : who.2 = .abortUpload id key) (hinv : Inv md5 w.files) :
    Wp md5 mode who ((bucket md5 readOnly).abortUpload id key).run (fun _ _ => True) w := by
  have hremoves : who.2.removes = some id := by rw [hwho]; rfl
  have htrue : Stable (bucketRules md5 mode) who fun _ => True := fun _ _ _ _ h => h
  refine Fair.wp_writable ?_ trivial
  refine wp_bindE (wp_uploadDir htrue trivial hinv ?_ fun _ _ _ _ => trivial)
  intro w1 d _ _ _ hd
  exact wp_bind (wp_removeUploadOf hremoves htrue trivial hd fun _ _ _ => trivial)

theorem wp_createUploadOf {headers : Headers} (hinv : Inv md5 w.files) :
    Wp md5 mode who ((bucket md5 readOnly).createUpload who.1 key headers).run (fun _ _ => True) w := by
  have hfair := bucketRules_fair md5 mode
  have htrue : Stable (bucketRules md5 mode) who fun _ => True := fun _ _ _ _ h => h
  refine Fair.wp_writable ?_ trivial
  split
  · exact trivial
  split
  · exact trivial
  refine wp_bindE (hfair.makeFrom (makesAt md5 mode who) htrue trivial hinv (at_root hinv) ?_ fun _ _ _ _ => trivial)
  intro w1 uploads _ _ hup
  refine wp_bindE (hfair.change (lasting_at mode [uploadsDir] uploads).stable hup ?_ fun _ _ _ _ => trivial)
  intro x w2 a hup2 hinv2 _ hfault hok
  obtain ⟨hinv3, hguar, -, hat⟩ := mkdir_answer md5 mode hinv2 hfault hok
  refine ⟨hinv3, hguar, ?_⟩
  refine wp_bindE (hfair.change (lasting_at mode _ a.ino).stable (hat _ hup2) ?_ fun _ _ _ _ => trivial)
  rintro x w4 v ⟨nd, hnd, hk, -⟩ hinv4 - hfault hok
  obtain ⟨n, hn, hfiles⟩ := setUpload_eq_ok (answer_ok hfault hok rfl)
  obtain rfl := Option.mem_unique hnd hn.1
  obtain ⟨hinv5, hguar, -⟩ := onward_dir_set md5 mode hinv4 hn hk hfiles (hfiles ▸ .setUpload _ hn hk)
  exact ⟨hinv5, hguar, trivial⟩

/-!
## Deletions and changes in place, and all calls together

The rest of what calls do, and what every call has achieved when it returns, whatever runs beside it.
-/

open Option Files Pool

variable {dirs : List Text}

theorem stable_true (md5 : Md5 D) (mode : Mode) (who : Who D) : Stable (bucketRules md5 mode) who fun _ => True :=
  fun _ _ _ _ h => h

/-! ### Deletions -/

theorem wp_chainFrom {path : List Text} {ino : Nat} {Q : Except StoreError (Option (List Nat)) → World D (Who D) → Prop}
    (hinv : Inv md5 w.files) (hino : At path ino w)
    (h : ∀ w' chain, Inv md5 w'.files → At (path ++ dirs) (chain.getLastD rootIno) w' → chain ≠ [] →
      Q (.ok (some chain)) w')
    (hnone : ∀ w', Q (.ok none) w') (herr : ∀ w' e, Q (.error e) w') :
    Wp md5 mode who ((bucket md5 readOnly).chainFrom ino dirs).run Q w := by
  induction dirs generalizing path ino w Q with
  | nil => exact h w [ino] hinv (by simpa using hino) nofun
  | cons x dirs ih =>
    rw [Bucket.chainFrom]
    refine wp_bindE ((bucketRules_fair md5 mode).lookup (lasting_at mode path ino).stable hino ?_)
    rintro w1 res hino1 hinv1 hlook -
    match res with
    | .error e => exact herr w1 e
    | .ok none => exact hnone w1
    | .ok (some a) =>
      dsimp only
      split
      · rename_i hk
        refine wp_bindE (ih hinv1 (at_step hinv1 hino1 hlook.ok hk) ?_ hnone herr)
        intro w2 chain hinv2 hlast hne
        refine h w2 (ino :: chain) hinv2 ?_ (List.cons_ne_nil _ _)
        obtain ⟨y, chain, rfl⟩ := List.exists_cons_of_ne_nil hne
        rw [List.append_assoc] at hlast
        simpa using hlast
      · exact hnone w1

theorem wp_pruneOf {above : List (Nat × Text × Nat)} :
    Wp md5 mode who ((bucket md5 readOnly).prune above).run (fun _ _ => True) w := by
  induction above generalizing w with
  | nil => exact trivial
  | cons entry above ih =>
    obtain ⟨parent, name, dir⟩ := entry
    have htrue := stable_true md5 mode who
    refine wp_bind (wp_bindE ((bucketRules_fair md5 mode).recorded htrue trivial ?_
      (fun _ _ _ _ => trivial) fun _ _ _ _ => trivial))
    intro w1 m _ _ _
    cases m with
    | some m => exact trivial
    | none =>
      show Wp md5 mode who ((bucket md5 readOnly).ops (.rmdir parent name) >>= _) (fun _ _ => True) w1
      refine wp_rmdirOf htrue trivial ?_
      intro w2 (reply : Except Errno Unit) _ _
      cases reply with
      | ok => exact ih
      | error e => exact trivial

theorem wp_deleteOf (hwho : who.2 = .delete key) (hinv : Inv md5 w.files) :
    Wp md5 mode who ((bucket md5 readOnly).delete key).run (fun _ _ => True) w := by
  have hfair := bucketRules_fair md5 mode
  refine Fair.wp_writable ?_ trivial
  match hkey : parseKey key with
  | .error e => cases e <;> exact trivial
  | .ok ⟨dirs, name⟩ =>
    refine wp_bindE (wp_chainFrom hinv (at_root hinv) ?_ (fun _ => trivial) fun _ _ => trivial)
    intro w1 chain hinv1 hlast _
    rw [List.nil_append] at hlast
    have hplace : Stable (bucketRules md5 mode) who (At dirs (chain.getLastD rootIno)) :=
      (lasting_at mode dirs _).stable
    cases name with
    | some name =>
      refine wp_bindE (hfair.lookup hplace hlast ?_)
      rintro w2 res hlast2 - - -
      match res with
      | .error e => exact trivial
      | .ok none => exact trivial
      | .ok (some a) =>
        dsimp only
        split
        · exact trivial
        refine wp_unlinkOf hplace hlast2 ?_ ?_
        · rintro w' nd ⟨md, hmd, -, hpath⟩ hnd
          obtain rfl := mem_unique hmd hnd
          refine .inr (.inr (.inl ?_))
          rw [hwho, hpath]
          exact place_eq_some.mpr hkey
        · intro w3 (reply : Except Errno Unit) _ _
          match reply with
          | .ok () | .error .noent => exact wp_pruneOf
          | .error .exist | .error .notdir | .error .isdir | .error .inval | .error .notempty | .error .nodata
          | .error .nametoolong | .error .rofs | .error .dquot | .error .io => exact trivial
    | none =>
      refine hfair.change hplace hlast ?_ ?_
      · intro x w2 v hlast2 hinv2 _ hfault hok
        obtain ⟨nd, hnd, hfiles⟩ := removeRecorded_eq_ok (answer_ok hfault hok rfl)
        obtain ⟨hinv3, hguar, -⟩ := mark_does md5 mode hinv2
          (by rw [hwho]; exact markPlace_eq_some.mpr hkey) hlast2 hnd hfiles
        exact ⟨hinv3, hguar, wp_pruneOf⟩
      · intro w2 e _ _
        match e with
        | .noent | .nodata => exact wp_pruneOf
        | .exist | .notdir | .isdir | .inval | .notempty | .nametoolong | .rofs | .dquot | .io => exact trivial

/-! ### Changes in place -/

omit [DecidableEq D] in
theorem subject_of_fileOf {dest : List Text × Text} {n : Node D (Who D)} (hfile : FileOf dest c w)
    (hsub : who.2.subject = some dest) (hn : w.files.nodes c = some n) : n.kind = .file ∧ Subject who n := by
  obtain ⟨n', i, call, hn', hk, hmoved, hmaker, htarget⟩ := hfile
  obtain rfl := mem_unique hn' hn
  exact ⟨hk, hmoved, i, call, hmaker, hsub.trans htarget.symm, by rw [htarget]; nofun⟩

/-- The mtime that `set_headers` stamps is the one that `head` saw. -/
theorem mtime_of_sameMtime {headers : Headers} {o : Object D} {n : Node D (Who D)} {reply : Reply (.getattr o.ino)}
    {log : List (Asked D (Who D))} (hwho : who.2 = .setHeaders key headers) (hseen : HeadSeen md5 w.log who o)
    (hsame : SameMtime who (.getattr o.ino) ⟨w.files, log⟩)
    (hlog : w.log = log ++ [⟨who, .getattr o.ino, reply, w.files⟩]) (hn : w.files.Has o.ino n) :
    n.mtimeNs = o.mtimeNs := by
  obtain ⟨d, x, a, f1, m, f2, hlook, -, hk, rfl⟩ := hseen
  have hbefore : ⟨who, .lookup d x, .ok a, f1⟩ ∈ log := by
    rw [hlog] at hlook
    rcases List.mem_append.mp hlook with h | h
    · exact h
    · cases List.mem_singleton.mp h
  refine hsame a.ino (by rw [hwho]; rfl) _ hbefore a ?_ (n.attr a.ino) ?_
  · simp [Asked.found, hk]
  · have hattr : w.files.getattr a.ino = .ok (n.attr a.ino) := getattr_eq_ok.mpr ⟨n, hn, rfl⟩
    rw [hattr]
    rfl

omit [DecidableEq D] in
theorem lasting_headSeen (mode : Mode) (dest : List Text × Text) (who : Who D) (o : Object D) :
    Lasting mode fun w => HeadSeen md5 w.log who o ∧ FileOf dest o.ino w := by
  rintro w w' hgrows ⟨⟨d, name, a, f1, m, f2, h1, h2, hrest⟩, hfile⟩
  exact ⟨⟨d, name, a, f1, m, f2, hgrows.log h1, hgrows.log h2, hrest⟩, lasting_fileOf mode dest o.ino hgrows hfile⟩

theorem wp_setHeadersOf {headers : Headers} (hwho : who.2 = .setHeaders key headers) (hloud : ¬ mode.quiet)
    (hinv : Inv md5 w.files) :
    Wp md5 mode who ((bucket md5 readOnly).setHeaders key headers).run (fun _ _ => True) w := by
  have hfair := bucketRules_fair md5 mode
  have hsub : who.2.subject = place key := by rw [hwho]; rfl
  have hmarks : who.2.marks = markPlace key := by rw [hwho]; rfl
  refine Fair.wp_writable ?_ trivial
  refine wp_bindE (wp_headOf (stable_true md5 mode who) trivial hinv ?_ fun _ _ _ _ => trivial)
  intro w1 o _ _ hhead
  have hlasting := lasting_headOk md5 mode who key o
  refine wp_bindE (hfair.read rfl hlasting.stable hhead ?_)
  rintro w2 (reply : Except Errno Attr) hhead2 hinv2 hsaw ⟨x, log, hmay, hlog⟩
  cases reply with
  | error e => exact trivial
  | ok a =>
    obtain ⟨n, hn, rfl⟩ := getattr_eq_ok.mp hsaw.ok
    rcases hhead2 with ⟨dest, hdest, hseen, hfileOf⟩ | ⟨dirs, hdirs, hd⟩
    · have hk := (subject_of_fileOf hfileOf (hsub.trans hdest) hn.1).1
      have hsteady : mode.steady → n.mtimeNs = o.mtimeNs :=
        fun hsteady => mtime_of_sameMtime hwho hseen (hmay.mtime hsteady) hlog hn
      refine wp_bindE (hfair.change ((lasting_headSeen mode dest who o).and (lasting_logged mode _)).stable
        ⟨⟨hseen, hfileOf⟩, hsaw.logged⟩ ?_ fun _ _ _ _ => trivial)
      rintro x w3 v ⟨⟨hseen3, hfile3⟩, hlogged⟩ hinv3 - hfault hok
      obtain ⟨n', hn', hfiles⟩ := setRecorded_eq_ok (answer_ok hfault hok rfl)
      obtain ⟨hk', hsubject⟩ := subject_of_fileOf hfile3 (hsub.trans hdest) hn'.1
      have hsize : (if (n.attr o.ino).kind = .dir then 0 else (n.attr o.ino).size) = (n.attr o.ino).size :=
        if_neg (by rw [Node.attr, hk]; simp)
      have hagain : Restamp md5 mode w3.log who o.ino
          ⟨o.etag, if (n.attr o.ino).kind = .dir then 0 else (n.attr o.ino).size, n.mtimeNs, headers⟩ :=
        ⟨o, _, _, hseen3, rfl, hlogged, rfl, hsize, rfl, hsteady⟩
      obtain ⟨hinv4, hguar, -⟩ := does_files hinv3 hfiles (.restamp hn' hk' hsubject hagain hloud)
      exact ⟨hinv4, hguar, trivial⟩
    · refine wp_bindE (hfair.change (lasting_at mode dirs o.ino).stable hd ?_ fun _ _ _ _ => trivial)
      rintro x w3 v hd3 hinv3 - hfault hok
      obtain ⟨nd, hnd, hfiles⟩ := setRecorded_eq_ok (answer_ok hfault hok rfl)
      obtain ⟨hinv4, hguar, -⟩ := mark_does md5 mode hinv3 (hmarks.trans hdirs) hd3 hnd hfiles
      exact ⟨hinv4, hguar, trivial⟩

/-- A request that changes the content of a file, and nothing else. -/
structure Edits (edit : Nat → Request D) : Prop where
  files : ∀ {who : Who D} {x : Env} {w : World D (Who D)} {ino v}, x.fault = none →
    (w.files.perform who x.nowNs (edit ino)).1 = .ok v → ∃ n data, w.files.Has ino n ∧ n.kind ≠ .dir ∧
      (answer who x (edit ino) w).2.files =
        w.files.set ino (n.rewritten data x.nowNs)
  fresh : ∀ {x : Env} {w : World D (Who D)} {ino}, FreshMtime x (edit ino) w →
    ∀ n ∈ w.files.nodes ino, Fresh n x.nowNs

omit [DecidableEq D] in
theorem edits_write (offset : Nat) (data : Bytes) : Edits (D := D) (.write · offset data) where
  files hfault hok := by
    obtain ⟨n, hn, hk, hfiles⟩ := change_eq_ok (answer_ok hfault hok rfl)
    exact ⟨n, _, hn, hk, hfiles⟩
  fresh h := h _ rfl

omit [DecidableEq D] in
theorem edits_truncate (size : Nat) : Edits (D := D) (.truncate · size) where
  files hfault hok := by
    obtain ⟨n, hn, hk, hfiles⟩ := change_eq_ok (answer_ok hfault hok rfl)
    exact ⟨n, _, hn, hk, hfiles⟩
  fresh h := h _ rfl

theorem wp_editFileOf {edit : Nat → Request D} (hedit : Edits edit) (hsub : who.2.subject = place key)
    (hloud : ¬ mode.quiet) (hinv : Inv md5 w.files) :
    Wp md5 mode who ((bucket md5 readOnly).editFile key edit).run (fun _ _ => True) w := by
  have hfair := bucketRules_fair md5 mode
  unfold Bucket.editFile
  match hkey : parseKey key with
  | .error e => exact trivial
  | .ok ⟨dirs, none⟩ => exact trivial
  | .ok ⟨dirs, some name⟩ =>
    have hname : Segment name := (parseKey_eq_ok hkey).1 name (by simp)
    refine wp_bindE (hfair.findFrom (makesAt md5 mode who).toPlaces (stable_true md5 mode who) trivial
      hinv (at_root hinv) ?_)
    intro w1 res _ _ hres
    match res with
    | .error e => exact trivial
    | .ok none => exact trivial
    | .ok (some d) =>
      refine wp_bindE (hfair.lookup (lasting_at mode dirs d).stable hres ?_)
      rintro w2 res hd hinv2 hlook -
      match res with
      | .error e => exact trivial
      | .ok none => exact trivial
      | .ok (some a) =>
        -- what is found stays a directory, or the file of the key
        have hlasting : Lasting mode fun w => At (D := D) (dirs ++ [name]) a.ino w ∨ FileOf (dirs, name) a.ino w :=
          fun _ _ hgrows h => h.imp (lasting_at mode _ _ hgrows ·) (lasting_fileOf mode _ _ hgrows ·)
        have hfound : At (D := D) (dirs ++ [name]) a.ino w2 ∨ FileOf (dirs, name) a.ino w2 := by
          obtain ⟨-, nd, c, n, hnames, hn, rfl⟩ := lookup_eq_ok.mp hlook.ok
          rcases hinv2.kinds hn.1 with hk | hk
          · exact .inl (at_step hinv2 hd hlook.ok hk)
          · exact .inr (fileOf_lookup hinv2 hd hlook.ok hk fun i => hname.ne_tempName i)
        refine hfair.change hlasting.stable hfound ?_ fun _ _ _ _ => trivial
        rintro x w3 v hfound3 hinv3 hmay hfault hok
        obtain ⟨n, data, hn, hk, hfiles⟩ := hedit.files hfault hok
        rcases hfound3 with ⟨n', hn', hk', -⟩ | hfile
        · exact absurd (mem_unique hn' hn.1 ▸ hk') hk
        · obtain ⟨hk', hsubject⟩ := subject_of_fileOf hfile (hsub.trans (place_eq_some.mpr hkey)) hn.1
          obtain ⟨hinv4, hguar, -⟩ := does_files hinv3 hfiles
            (.edit data hn hk' hsubject (fun hfresh => hedit.fresh (hmay.fresh hfresh) n hn.1) hloud)
          exact ⟨hinv4, hguar, trivial⟩

/-! ### Every call -/

/-- A call that changes a file in place. -/
def Call.inPlace : Call D → Bool
  | .setHeaders .. | .write .. | .truncate .. => true
  | _ => false

/-- What a call has achieved when it returns. -/
def Post (md5 : Md5 D) (mode : Mode) (who : Who D) (out : Out D) (w : World D (Who D)) : Prop :=
  match who.2, out with
  | .put key _ headers body, .ok _ => Readable key body.chunks.flatten headers w.files
  | .head key, .ok (.object o) => HeadOk md5 who key o w
  | .completeUpload id _ parts, .ok (.object o) => mode.quiet → Assembled md5 mode id parts o w
  | _, _ => True

theorem wp_programOf (hquiet : mode.quiet → who.2.inPlace = false) (hinv : Inv md5 w.files)
    (hno : NoFile who.1 w.files) :
    Wp md5 mode who ((bucket md5 readOnly).program who.1 who.2) (Post md5 mode who) w := by
  obtain ⟨i, call⟩ := who
  -- where nothing is said about the result
  have hany : ∀ {α : Type} {f : α → Answer D} {y : Store (Reply (D := D)) α},
      (∀ out w', Post md5 mode (i, call) out w') →
      (bucketRules md5 mode).wp (i, call) y.run (fun _ _ => True) w →
      (bucketRules md5 mode).wp (i, call) (finish f y) (Post md5 mode (i, call)) w := by
    intro α f y hpost hy
    refine wp_finish (wp_mono (fun res w' _ => ?_) hy)
    cases res with
    | ok | error => exact hpost _ w'
  have hloud : call.inPlace = true → ¬ mode.quiet := by
    intro hin hq
    have hnot := hquiet hq
    rw [hin] at hnot
    cases hnot
  cases call with
  | put key ifNoneMatch headers body =>
    refine wp_mono (fun out w' hout => ?_) (wp_putObjectOf rfl hinv hno)
    cases out with
    | ok a => exact hout a rfl
    | error e => exact trivial
  | delete key => exact hany (fun _ _ => trivial) (wp_deleteOf rfl hinv)
  | copy src dst headers => exact hany (fun _ _ => trivial) (wp_copyObjectOf rfl hinv hno)
  | setHeaders key headers => exact hany (fun _ _ => trivial) (wp_setHeadersOf rfl (hloud rfl) hinv)
  | head key =>
    exact wp_finish (wp_headOf (stable_true md5 mode _) trivial hinv (fun w' o _ _ hhead => hhead)
      fun _ _ _ _ => trivial)
  | createUpload key headers => exact hany (fun _ _ => trivial) (wp_createUploadOf hinv)
  | uploadPart id key number body =>
    exact wp_mono (fun _ _ _ => trivial) (wp_uploadPartOf rfl hinv hno)
  | completeUpload id key parts =>
    refine wp_finish (wp_mono (fun res w' hres => ?_) (wp_completeUploadOf rfl hinv hno))
    cases res with
    | ok o => exact hres o rfl
    | error e => exact trivial
  | abortUpload id key => exact hany (fun _ _ => trivial) (wp_abortUploadOf rfl hinv)
  | write key offset data =>
    exact hany (fun _ _ => trivial) (wp_editFileOf (edits_write offset data) rfl (hloud rfl) hinv)
  | truncate key size =>
    exact hany (fun _ _ => trivial) (wp_editFileOf (edits_truncate size) rfl (hloud rfl) hinv)

/-! ### Calls that run together -/

/-- What is said about each turn of a run. -/
def Allowed (mode : Mode) (p : Gateway D) : Turn (Call D) Env → Prop
  | .start c => mode.quiet → c.inPlace = false
  | .step i x => ∀ q ∈ p.asking i, May mode (i, q.1) x q.2 p.state

theorem fits (md5 : Md5 D) (mode : Mode) (readOnly : Bool) :
    Fits (bucketRules md5 mode) (bucket md5 readOnly).program (Post md5 mode) (Allowed mode) where
  trans h h' := h.trans h'
  start _ _ hinv hidle hP := wp_programOf hP hinv hidle
  may _ _ _ _ _ _ hi hP := hP _ (asking_eq hi)
  others _ _ _ _ _ _ _ _ _ _ hinv _ _ _ hij hguar := hguar.onward hinv hij
  idle _ _ _ _ _ _ _ hinv hij hguar hidle := hidle.onward (hguar.onward hinv hij)

omit [DecidableEq D] in
theorem empty_node {nowNs : Int} {i : Nat} {n : Node D (Who D)} (h : (empty nowNs : Files D (Who D)).nodes i = some n) :
    n = { kind := .dir, mtimeNs := nowNs, ctimeNs := nowNs } := by
  simp only [empty] at h
  split at h
  · exact (some.inj h).symm
  · cases h

omit [DecidableEq D] in
theorem empty_kind {nowNs : Int} {i : Nat} {n : Node D (Who D)}
    (h : (empty nowNs : Files D (Who D)).nodes i = some n) : n.kind ≠ .file := by
  rw [empty_node h]
  nofun

omit [DecidableEq D] in
theorem inv_empty (md5 : Md5 D) (nowNs : Int) : Inv md5 (.empty nowNs : Files D (Who D)) where
  wf := WF.empty nowNs
  kinds hn := .inl (by rw [empty_node hn])
  owned _ _ hn hk := absurd hk (empty_kind hn)
  done hn hk := absurd hk (empty_kind hn)
  parts hn hk := absurd hk (empty_kind hn)

omit [DecidableEq D] in
theorem noFile_empty (i : Nat) (nowNs : Int) : NoFile i (.empty nowNs : Files D (Who D)) :=
  fun _ _ _ hn hk => absurd hk (empty_kind hn)

variable {nowNs : Int} {turns : List (Turn (Call D) Env)}

theorem good_start (md5 : Md5 D) (mode : Mode) (nowNs : Int) :
    Pool.Good (bucketRules md5 mode) (Post md5 mode) (start (.empty nowNs)) where
  inv := inv_empty md5 nowNs
  going _ _ _ _ hi := nomatch hi
  idle i _ _ := noFile_empty i nowNs

theorem good_run (h : Meets (step md5 readOnly) (start (.empty nowNs)) (Allowed mode) turns) :
    Pool.Good (bucketRules md5 mode) (Post md5 mode) (run md5 readOnly (.empty nowNs) turns) :=
  good_of_meets (R := bucketRules md5 mode) (inv_empty md5 nowNs) (fun _ => noFile_empty _ nowNs)
    (fits md5 mode readOnly) (fun who w => .refl mode who.1 w) h

end AtlasNative.S3
