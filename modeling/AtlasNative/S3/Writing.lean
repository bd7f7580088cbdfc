import AtlasNative.S3.Rules

/-!
# What a call knows about a bucket

The facts that a call may keep while others run, and how it comes to know them.
-/

namespace AtlasNative.S3

open Program Files Relation Rules Option

variable {D : Type} {md5 : Md5 D} {mode : Mode} {readOnly : Bool} {who : Who D}
  {x : Env} {r : Request D} {w w' : World D (Who D)} {P : World D (Who D) → Prop}

/-- What stays true whatever the calls do. -/
def Lasting (mode : Mode) (P : World D (Who D) → Prop) : Prop :=
  ∀ ⦃w w'⦄, w.Grows mode w' → P w → P w'

theorem Lasting.stable [DecidableEq D] (h : Lasting mode P) : Stable (bucketRules md5 mode) who P :=
  fun _ _ hrely _ hP => h hrely.grows hP

theorem Lasting.and {P' : World D (Who D) → Prop} (h : Lasting mode P) (h' : Lasting mode P') :
    Lasting mode fun w => P w ∧ P' w :=
  fun _ _ hgrows hP => ⟨h hgrows hP.1, h' hgrows hP.2⟩

theorem lasting_logged (mode : Mode) (e : Asked D (Who D)) : Lasting mode fun w => e ∈ w.log :=
  fun _ _ hgrows he => hgrows.log he

variable {nowNs : Int}

/-- What a request leaves of what calls count on: the invariant, what the others may see, and `R`. -/
abbrev Acts (md5 : Md5 D) (mode : Mode) (who : Who D) (x : Env) (r : Request D)
    (R : World D (Who D) → Prop) (w : World D (Who D)) : Prop :=
  Inv md5 (answer who x r w).2.files ∧ Guar md5 mode who r w (answer who x r w).2 ∧ R (answer who x r w).2

/-- An error may come at any time. -/
abbrev Fails {α : Type} (md5 : Md5 D) (P : World D (Who D) → Prop)
    (Q : Except StoreError α → World D (Who D) → Prop) : Prop :=
  ∀ w' e, P w' → Inv md5 w'.files → Q (.error e) w'

theorem Fails.left {α : Type} {P' : World D (Who D) → Prop}
    {Q : Except StoreError α → World D (Who D) → Prop} (h : Fails md5 P Q) :
    Fails md5 (fun w => P w ∧ P' w) Q := fun w e hw => h w e hw.1

abbrev Wp [DecidableEq D] {α : Type} (md5 : Md5 D) (mode : Mode) (who : Who D) :
    Client (Reply (D := D)) α → (α → World D (Who D) → Prop) → World D (Who D) → Prop :=
  (bucketRules md5 mode).wp who

theorem does_answer (hinv : Inv md5 w.files)
    (h : ReflTransGen (Does md5 mode w.log who nowNs) w.files (answer who x r w).2.files) :
    Acts md5 mode who x r (w.Grows mode) w := by
  have hguar : Guar md5 mode who r w (answer who x r w).2 := ⟨⟨nowNs, h⟩, _, rfl⟩
  exact ⟨inv_of_does h hinv, hguar, (hguar.onward (j := who.1 + 1) hinv (by omega)).grows⟩

theorem does_files {f' : Files D (Who D)} (hinv : Inv md5 w.files)
    (hfiles : (answer who x r w).2.files = f') (h : Does md5 mode w.log who nowNs w.files f') :
    Acts md5 mode who x r (w.Grows mode) w :=
  does_answer hinv (.single (hfiles ▸ h))

/-- What leaves every file alone and makes none is no trouble to the call's own file either. -/
theorem onward_of_keep (hinv : Inv md5 w.files) (h : Does md5 mode w.log who nowNs w.files (answer who x r w).2.files)
    (hkeep : ∀ {c n}, w.files.nodes c = some n → ∃ n', (answer who x r w).2.files.nodes c = some n' ∧
      (n.kind = .file → n.SameFile n' ∧ n'.moved = n.moved))
    (hnew : ∀ {c n'}, (answer who x r w).2.files.nodes c = some n' → n'.kind = .file →
      ∃ n, w.files.nodes c = some n) (i : Nat) : w.Onward mode i (answer who x r w).2 where
  toGrows := h.grows hinv.wf
  mine hn hk _ hm hn' := by
    obtain ⟨n', hn'', hfile⟩ := hkeep hn
    obtain rfl := mem_unique hn' hn''
    exact ⟨(hfile hk).1, (hfile hk).2.trans hm⟩
  noNew hn' hk _ := hnew hn' hk
  log he := List.mem_append_left _ he

/-! ### Directories -/

/-- The directory that was made at `path`; it may be gone. -/
def At (path : List Text) (d : Nat) (w : World D (Who D)) : Prop :=
  ∃ n, w.files.nodes d = some n ∧ n.kind = .dir ∧ n.path = path

theorem lasting_at (mode : Mode) (path : List Text) (d : Nat) : Lasting mode (At (D := D) path d) := by
  rintro w w' hgrows ⟨n, hn, hk, hpath⟩
  obtain ⟨n', hn', hlater⟩ := hgrows.node hn
  exact ⟨n', hn', hlater.kind.trans hk, hlater.path.trans hpath⟩

theorem at_root (hinv : Inv md5 w.files) : At [] rootIno w := by
  obtain ⟨n, hn, hk, hpath⟩ := hinv.wf.root
  exact ⟨n, hn.1, hk, hpath⟩

variable {path : List Text} {d : Nat} {name : Text} {a : Attr}

theorem at_step (hinv : Inv md5 w.files) (hd : At path d w) (ha : w.files.lookup d name = .ok a)
    (hk : a.kind = .dir) : At (path ++ [name]) a.ino w := by
  obtain ⟨nd, hnd, hdk, hpath⟩ := hd
  obtain ⟨-, nd', c, n, hnames, -⟩ := lookup_eq_ok.mp ha
  have hlive : nd.live = true := by
    rw [mem_unique hnd hnames.has.1]
    exact hnames.has.2
  obtain ⟨n, hn, hnk, hnp⟩ := hinv.wf.dirAt_step ⟨nd, ⟨hnd, hlive⟩, hdk, hpath⟩ ha hk
  exact ⟨n, hn.1, hnk, hnp⟩

theorem mkdir_answer (md5 : Md5 D) (mode : Mode) (hinv : Inv md5 w.files) (hfault : x.fault = none)
    (hok : (w.files.perform who x.nowNs (.mknode d name .dir)).1 = .ok a) :
    Acts md5 mode who x (.mknode d name .dir) (fun w' => w.Onward mode who.1 w' ∧
      ∀ path, At path d w → At (path ++ [name]) a.ino w') w := by
  obtain ⟨nd, hnd, hdk, hfree, rfl, hfiles⟩ := answer_mknode hfault hok
  have hdoes : Does md5 mode w.log who x.nowNs w.files (answer who x (.mknode d name .dir) w).2.files :=
    hfiles ▸ .makeDir hnd hdk hfree
  obtain ⟨hinv', hguar, -⟩ := does_answer hinv (.single hdoes)
  refine ⟨hinv', hguar, onward_of_keep hinv hdoes ?_ ?_ who.1, ?_⟩
  · intro c n hn
    rw [hfiles]
    refine node_made (X := fun n n' => n.kind = .file → n.SameFile n' ∧ n'.moved = n.moved)
      (fun _ _ => ⟨⟨rfl, rfl, rfl⟩, rfl⟩) hinv.wf hnd (fun _ hf => ?_) hn
    rw [hdk] at hf
    cases hf
  · intro c n' hn' hk
    rw [hfiles, made_nodes] at hn'
    split at hn'
    · rw [← some.inj hn'] at hk
      cases hk
    · split at hn'
      · exact ⟨nd, ‹c = d› ▸ hnd.1⟩
      · exact ⟨n', hn'⟩
  · rintro path ⟨md, hmd, -, hpath⟩
    obtain rfl := mem_unique hmd hnd.1
    rw [At, hfiles]
    exact ⟨_, (made_nodes ..).trans (if_pos rfl), rfl, congrArg (· ++ [name]) hpath⟩

theorem makesAt [DecidableEq D] (md5 : Md5 D) (mode : Mode) (who : Who D) : Fair.Makes (bucketRules md5 mode) who At where
  stable path d := (lasting_at mode path d).stable
  step hinv hd ha hk := at_step hinv hd ha hk
  mkdir {path d name e w} hinv hd _ := by
    cases hreply : (answer who e (.mknode d name .dir) w).1 with
    | error n =>
      obtain ⟨hinv', hguar, hrely⟩ :=
        (bucketRules_fair md5 mode).still hinv (answer_files_of_error hreply) (.inr ⟨n, hreply⟩)
      exact ⟨hinv', hguar, hrely, nofun⟩
    | ok a =>
      have hfault : e.fault = none := by
        cases hx : e.fault with
        | none => rfl
        | some e => simp [answer, hx] at hreply
      rw [answer_eq_perform hfault] at hreply
      obtain ⟨hinv', hguar, honward, hat⟩ := mkdir_answer md5 mode hinv hfault hreply
      refine ⟨hinv', hguar, honward, fun b hb => ?_⟩
      rw [← Except.ok.inj hb]
      exact hat path hd

/-! ### Files -/

/-- A file that a call has put in its place. -/
def FileOf (dest : List Text × Text) (c : Nat) (w : World D (Who D)) : Prop :=
  ∃ n i call, w.files.nodes c = some n ∧ n.kind = .file ∧ n.moved = true ∧
    n.maker = some (i, call) ∧ call.target = some dest

theorem lasting_fileOf (mode : Mode) (dest : List Text × Text) (c : Nat) : Lasting mode (FileOf (D := D) dest c) := by
  rintro w w' hgrows ⟨n, i, call, hn, hk, hmoved, hmaker, htarget⟩
  obtain ⟨n', hn', hlater⟩ := hgrows.node hn
  exact ⟨n', i, call, hn', hlater.kind.trans hk, hlater.moved hmoved, hlater.maker.trans hmaker, htarget⟩

/-- A file under a name that is not hidden has been put there. -/
theorem fileOf_linked {c : Nat} {n : Node D (Who D)} (hinv : Inv md5 w.files) (hd : At path d w)
    (hl : w.files.Linked d name c) (hn : w.files.nodes c = some n) (hk : n.kind = .file)
    (hname : ∀ i, name ≠ tempName i) : FileOf (path, name) c w := by
  obtain ⟨nd, hnd, -, hpath⟩ := hd
  obtain ⟨j, call, hmaker, hhidden, htarget⟩ := hinv.owned hl hnd hn hk
  cases hmoved : n.moved with
  | false => exact absurd (hhidden hmoved) (hname j)
  | true => exact ⟨n, j, call, hn, hk, hmoved, hmaker, hpath ▸ htarget hmoved⟩

theorem fileOf_lookup (hinv : Inv md5 w.files) (hd : At path d w)
    (ha : w.files.lookup d name = .ok a) (hk : a.kind = .file) (hname : ∀ i, name ≠ tempName i) :
    FileOf (path, name) a.ino w := by
  obtain ⟨-, nd, c, n, hnames, hn, rfl⟩ := lookup_eq_ok.mp ha
  exact fileOf_linked hinv hd hnames.linked hn.1 hk hname

/-! ### `head` -/

/-- What a call knows when `head` has answered. -/
def HeadOk (md5 : Md5 D) (who : Who D) (key : Text) (o : Object D) (w : World D (Who D)) : Prop :=
  (∃ dest, place key = some dest ∧ HeadSeen md5 w.log who o ∧ FileOf dest o.ino w) ∨
    ∃ dirs, markPlace key = some dirs ∧ At dirs o.ino w

theorem lasting_headOk (md5 : Md5 D) (mode : Mode) (who : Who D) (key : Text) (o : Object D) :
    Lasting mode (HeadOk md5 who key o) := by
  rintro w w' hgrows (⟨dest, hkey, ⟨d, name, a, f1, m, f2, h1, h2, hk, ho⟩, hfile⟩ | ⟨dirs, hkey, hd⟩)
  · exact .inl ⟨dest, hkey, ⟨d, name, a, f1, m, f2, hgrows.log h1, hgrows.log h2, hk, ho⟩,
      lasting_fileOf mode dest o.ino hgrows hfile⟩
  · exact .inr ⟨dirs, hkey, lasting_at mode dirs o.ino hgrows hd⟩

variable [DecidableEq D]

section

variable (hP : Stable (bucketRules md5 mode) who P) (hw : P w)
include hP hw

theorem wp_objectOf {Q : Except StoreError (Object D) → World D (Who D) → Prop}
    (h : ∀ w' m, P w' → Inv md5 w'.files → Saw who (.getRecorded a.ino) (.ok m) w' →
      Q (.ok ((bucket md5 readOnly).described a m)) w') (herr : Fails md5 P Q) :
    Wp md5 mode who ((bucket md5 readOnly).object a).run Q w := by
  refine wp_bindE ((bucketRules_fair md5 mode).recorded hP hw ?_ ?_ ?_)
  · exact fun w' m hw' hinv hsaw => h w' m hw' hinv hsaw
  · exact fun w' hw' hinv _ => herr w' _ hw' hinv
  · exact fun w' n hw' hinv => herr w' _ hw' hinv

theorem wp_headOf {key : Text} {Q : Except StoreError (Object D) → World D (Who D) → Prop} (hinv : Inv md5 w.files)
    (h : ∀ w' o, P w' → Inv md5 w'.files → HeadOk md5 who key o w' → Q (.ok o) w')
    (herr : Fails md5 P Q) : Wp md5 mode who ((bucket md5 readOnly).head key).run Q w := by
  have hfair := bucketRules_fair md5 mode
  have hfind : ∀ {dirs : List Text} {Q : Except StoreError (Option Nat) → World D (Who D) → Prop},
      (∀ w' d, P w' → Inv md5 w'.files → At dirs d w' → Q (.ok (some d)) w') →
      (∀ w', P w' → Inv md5 w'.files → Q (.ok none) w') →
      (∀ w' e, P w' → Inv md5 w'.files → Q (.error e) w') →
      Wp md5 mode who ((bucket md5 readOnly).findDir dirs).run Q w := by
    intro dirs Q hsome hnone herr
    refine hfair.findFrom (makesAt md5 mode who).toPlaces hP hw hinv (at_root hinv) ?_
    intro w' res hw' hinv' hres
    match res with
    | .error e => exact herr w' e hw' hinv'
    | .ok none => exact hnone w' hw' hinv'
    | .ok (some d) => exact hsome w' d hw' hinv' hres
  unfold Bucket.head
  match hkey : parseKey key with
  | .error e => cases e <;> exact herr w _ hw hinv
  | .ok ⟨dirs, some name⟩ =>
    have hname : Segment name := (parseKey_eq_ok hkey).1 name (by simp)
    refine wp_bindE (hfind ?_ (fun w' hw' hinv' => herr w' _ hw' hinv') fun w' e hw' hinv' => herr w' e hw' hinv')
    intro w1 d hw1 _ hd
    refine wp_bindE (hfair.lookup (hP.and (lasting_at mode dirs d).stable) ⟨hw1, hd⟩ ?_)
    rintro w2 res ⟨hw2, hd2⟩ hinv2 hlook -
    match res with
    | .error e => exact herr w2 e hw2 hinv2
    | .ok none => exact herr w2 _ hw2 hinv2
    | .ok (some a) =>
      dsimp only
      split
      · rename_i hk
        have hfile : FileOf (dirs, name) a.ino w2 := fileOf_lookup hinv2 hd2 hlook.ok hk fun i => hname.ne_tempName i
        refine wp_objectOf ((hP.and (lasting_fileOf mode (dirs, name) a.ino).stable).and
          (lasting_logged mode _).stable) ⟨⟨hw2, hfile⟩, hlook.logged⟩ ?_ herr.left.left
        rintro w3 m ⟨⟨hw3, hfile3⟩, hlogged⟩ hinv3 hsaw
        refine h w3 _ hw3 hinv3 (.inl ⟨_, place_eq_some.mpr hkey, ?_, hfile3⟩)
        exact ⟨d, name, a, w2.files, m, w3.files, hlogged, hsaw.logged, hk, rfl⟩
      · exact herr w2 _ hw2 hinv2
  | .ok ⟨dirs, none⟩ =>
    refine wp_bindE (hfind ?_ (fun w' hw' hinv' => herr w' _ hw' hinv') fun w' e hw' hinv' => herr w' e hw' hinv')
    intro w1 d hw1 _ hd
    have hstable := hP.and (lasting_at (D := D) mode dirs d).stable
    refine wp_bindE (wp_bindE (hfair.recorded hstable ⟨hw1, hd⟩ ?_
      (fun w' hw' hinv' _ => herr w' _ hw'.1 hinv') fun w' n hw' hinv' => herr w' _ hw'.1 hinv'))
    rintro w2 m ⟨hw2, hd2⟩ hinv2 -
    cases m with
    | none => exact herr w2 _ hw2 hinv2
    | some m =>
      refine wp_bindE (hfair.call rfl hstable ⟨hw2, hd2⟩ (fun w3 a hw3 _ hsaw => ?_)
        fun w' n hw' hinv' => herr w' _ hw'.1 hinv')
      obtain ⟨n, -, rfl⟩ := getattr_eq_ok.mp hsaw.ok
      refine wp_objectOf hstable hw3 ?_ herr.left
      exact fun w4 m hw4 hinv4 _ => h w4 _ hw4.1 hinv4 (.inr ⟨dirs, markPlace_eq_some.mpr hkey, hw4.2⟩)

/-! ### The directory of an upload -/

theorem wp_uploadDir {id key : Text}
    {Q : Except StoreError (Nat × UploadMeta) → World D (Who D) → Prop} (hinv : Inv md5 w.files)
    (h : ∀ w' d m, P w' → Inv md5 w'.files → At [uploadsDir, id] d w' → Q (.ok (d, m)) w')
    (herr : Fails md5 P Q) : Wp md5 mode who ((bucket md5 readOnly).uploadDir id key).run Q w := by
  have hfair := bucketRules_fair md5 mode
  unfold Bucket.uploadDir
  split
  · exact herr w _ hw hinv
  refine wp_bindE (hfair.findFrom (makesAt md5 mode who).toPlaces hP hw hinv (at_root hinv) ?_)
  intro w1 res hw1 hinv1 hres
  match res with
  | .error e => exact herr w1 e hw1 hinv1
  | .ok none => exact herr w1 _ hw1 hinv1
  | .ok (some d) =>
    refine hfair.read rfl (hP.and (lasting_at mode [uploadsDir, id] d).stable) ⟨hw1, hres⟩ ?_
    rintro w2 reply ⟨hw2, hd⟩ hinv2 - -
    match reply with
    | .ok (some m) =>
      show Q (if m.key = key then .ok (d, m) else .error .noSuchUpload) w2
      split
      · exact h w2 d m hw2 hinv2 hd
      · exact herr w2 _ hw2 hinv2
    | .ok none => exact herr w2 _ hw2 hinv2
    | .error e => cases e <;> exact herr w2 _ hw2 hinv2

end

/-!
## How a call writes a file

A call makes a hidden file, writes it, records its attribute and gives it its name. Until then the
file is the call's own.
-/

open List

variable {c d : Nat} {path : List Text} {name : Text}

omit [DecidableEq D] in
theorem target_ne_tempName {call : Call D} (h : call.target = some (path, name)) (i : Nat) : name ≠ tempName i := by
  cases call with
  | put | copy | completeUpload => exact (segment_of_place h (by simp)).ne_tempName i
  | uploadPart id key number body =>
    obtain ⟨-, rfl⟩ := Prod.mk.inj (some.inj h)
    exact partName_ne_tempName number i
  | delete | setHeaders | head | createUpload | abortUpload | write | truncate => cases h

/-- The hidden file of the call, and that there is no other. -/
structure Mine (who : Who D) (c : Nat) (data : Bytes) (mtimeNs : Int) (recorded : Option (ObjectMeta D))
    (w : World D (Who D)) : Prop where
  file : ∃ n, w.files.nodes c = some n ∧ n.kind = .file ∧ n.maker = some who ∧ n.moved = false ∧
    n.data = data ∧ n.mtimeNs = mtimeNs ∧ n.recorded = recorded
  only : ∀ {c' n call}, w.files.nodes c' = some n → n.kind = .file → n.maker = some (who.1, call) →
    c' = c

theorem mine_stable (md5 : Md5 D) (mode : Mode) (who : Who D) (c : Nat) (data : Bytes) (mtimeNs : Int)
    (recorded : Option (ObjectMeta D)) :
    Stable (bucketRules md5 mode) who (Mine who c data mtimeNs recorded) := by
  rintro w w' hrely - ⟨⟨n, hn, hk, hmaker, hmoved, rfl, rfl, rfl⟩, honly⟩
  obtain ⟨n', hn', hlater⟩ := hrely.node hn
  obtain ⟨⟨hdata, hmtime, hrec⟩, hmoved'⟩ := hrely.mine hn hk hmaker hmoved hn'
  refine ⟨⟨n', hn', hlater.kind.trans hk, hlater.maker.trans hmaker, hmoved', hdata, hmtime, hrec⟩, ?_⟩
  intro c' m' call hm' hk' hmaker'
  obtain ⟨m, hm⟩ := hrely.noNew hm' hk' hmaker'
  obtain ⟨m'', hm'', hlater'⟩ := hrely.node hm
  obtain rfl := mem_unique hm' hm''
  exact honly hm (hlater'.kind ▸ hk') (hlater'.maker ▸ hmaker')

theorem noFile_stable (md5 : Md5 D) (mode : Mode) (who : Who D) :
    Stable (bucketRules md5 mode) who fun w => NoFile who.1 w.files :=
  fun _ _ hrely _ hno => hno.onward hrely

variable {data : Bytes} {mtimeNs : Int} {recorded : Option (ObjectMeta D)} {n : Node D (Who D)}

section

variable (hmine : Mine who c data mtimeNs recorded w) (hn : w.files.Has c n)
include hmine hn

omit [DecidableEq D] in
theorem mine_set {data' : Bytes} {mtimeNs' : Int} {recorded' : Option (ObjectMeta D)}
    {n' : Node D (Who D)} (hfiles : (answer who x r w).2.files = w.files.set c n')
    (hkind : n'.kind = n.kind) (hmaker : n'.maker = n.maker) (hmoved : n'.moved = n.moved)
    (hdata : n'.data = data') (hmtime : n'.mtimeNs = mtimeNs') (hrec : n'.recorded = recorded') :
    Mine who c data' mtimeNs' recorded' (answer who x r w).2 := by
  obtain ⟨⟨m, hm, hmk, hmm, hmv, -⟩, honly⟩ := hmine
  obtain rfl := mem_unique hm hn.1
  refine ⟨⟨n', ?_, hkind.trans hmk, hmaker.trans hmm, hmoved.trans hmv, hdata, hmtime, hrec⟩, ?_⟩
  · rw [hfiles]
    exact set_nodes_self ..
  · intro c' m' call hm' hk' hmaker'
    rw [hfiles, set_nodes] at hm'
    split at hm'
    · assumption
    · exact honly hm' hk' hmaker'

omit [DecidableEq D] in
theorem Mine.has : n.kind = .file ∧ n.maker = some who ∧ n.moved = false ∧ n.data = data ∧ n.mtimeNs = mtimeNs ∧
      n.recorded = recorded := by
  obtain ⟨⟨m, hm, hrest⟩, -⟩ := hmine
  obtain rfl := mem_unique hm hn.1
  exact hrest

end

variable {Q : Except StoreError Writer → World D (Who D) → Prop}

theorem wp_writerOf (hP : Lasting mode P) (hw : P w) (hinv : Inv md5 w.files) (hno : NoFile who.1 w.files)
    (h : ∀ w' c mtimeNs, P w' → Inv md5 w'.files → Mine who c [] mtimeNs none w' →
      Q (.ok ⟨d, c, tempName who.1, []⟩) w')
    (herr : Fails md5 P Q) :
    Wp md5 mode who ((bucket md5 readOnly).writer who.1 d).run Q w := by
  refine Fair.wp_writable ?_ (herr w _ hw hinv)
  refine wp_bindE ((bucketRules_fair md5 mode).change (hP.stable.and (noFile_stable md5 mode who))
    ⟨hw, hno⟩ ?_ fun w' e hw' hinv' => herr w' _ hw'.1 hinv')
  rintro x w1 a ⟨hw1, hno1⟩ hinv1 - hfault hok
  obtain ⟨nd, hnd, hdk, hfree, rfl, hfiles⟩ := answer_mknode hfault hok
  have hdoes : Does md5 mode w1.log who x.nowNs w1.files
      (answer who x (.mknode d (tempName who.1) .file) w1).2.files := hfiles ▸ .makeTemp hnd hdk hfree
  obtain ⟨hinv2, hguar, hgrows⟩ := does_answer hinv1 (.single hdoes)
  refine ⟨hinv2, hguar, h _ _ x.nowNs (hP hgrows hw1) hinv2
    ⟨⟨fresh who x.nowNs nd (tempName who.1) .file, ?_, rfl, rfl, rfl, rfl, rfl, rfl⟩, ?_⟩⟩
  · rw [hfiles]
    exact (made_nodes ..).trans (if_pos rfl)
  · intro c' n call hn hk hmaker
    rw [hfiles, made_nodes] at hn
    split at hn
    · assumption
    · split at hn
      · rw [← some.inj hn] at hk
        rw [show (touch nd x.nowNs _).kind = nd.kind from rfl, hdk] at hk
        cases hk
      · exact absurd hmaker (hno1 c' n call hn hk)

theorem overwrite_length (data new : Bytes) : overwrite data data.length new = data ++ new := by
  simp [overwrite]

variable {written : Bytes}

theorem wp_writeOf (hP : Lasting mode P) (hw : P w) (hinv : Inv md5 w.files) (hmine : Mine who c written mtimeNs none w)
    (h : ∀ w' mtimeNs, P w' → Inv md5 w'.files → Mine who c (written ++ data) mtimeNs none w' →
      Q (.ok ⟨d, c, tempName who.1, written ++ data⟩) w')
    (herr : Fails md5 P Q) :
    Wp md5 mode who ((bucket md5 readOnly).write ⟨d, c, tempName who.1, written⟩ data).run Q w := by
  unfold Bucket.write
  split
  · subst ‹data = []›
    have hdone := h w mtimeNs hw hinv (by rwa [append_nil])
    rwa [append_nil] at hdone
  · refine wp_bindE ((bucketRules_fair md5 mode).change
      (hP.stable.and (mine_stable md5 mode who c written mtimeNs none)) ⟨hw, hmine⟩ ?_
      fun w' e hw' hinv' => herr w' _ hw'.1 hinv')
    rintro x w1 v ⟨hw1, hmine1⟩ hinv1 hmay hfault hok
    obtain ⟨n, hn, -, hfiles⟩ := change_eq_ok (answer_ok hfault hok rfl)
    obtain ⟨hk, hmaker, hmoved, hdata, -, hrec⟩ := hmine1.has hn
    have hdoes : Does md5 mode w1.log who x.nowNs w1.files
        (answer who x (.write c written.length data) w1).2.files := by
      rw [hfiles]
      exact .write _ hn hk hmaker hmoved hrec fun hfresh => hmay.fresh hfresh c rfl n hn.1
    obtain ⟨hinv2, hguar, hgrows⟩ := does_answer hinv1 (.single hdoes)
    refine ⟨hinv2, hguar, h _ x.nowNs (hP hgrows hw1) hinv2 ?_⟩
    refine mine_set hmine1 hn hfiles rfl rfl rfl ?_ rfl hrec
    show overwrite n.data written.length data = written ++ data
    rw [hdata, overwrite_length]

/-! ### Removing files -/

omit [DecidableEq D] in
/-- Taking away what a name names is no trouble to the call's own file. -/
theorem onward_dropped {nd : Node D (Who D)} {nowNs : Int} (hinv : Inv md5 w.files)
    (hnames : w.files.Names d nd name c) (hn : w.files.Has c n)
    (hfiles : (answer who x r w).2.files = dropped w.files nowNs d nd name c n)
    (hdoes : Does md5 mode w.log who nowNs w.files (answer who x r w).2.files) :
    Acts md5 mode who x r (w.Onward mode who.1) w := by
  obtain ⟨hinv', hguar, -⟩ := does_answer hinv (.single hdoes)
  refine ⟨hinv', hguar, onward_of_keep hinv hdoes ?_ ?_ who.1⟩
  · intro c' m hm
    rw [hfiles]
    refine node_dropped (X := fun n n' => n.kind = .file → n.SameFile n' ∧ n'.moved = n.moved)
      (fun _ _ => ⟨⟨rfl, rfl, rfl⟩, rfl⟩) hnames.has hn (fun _ hf => ?_) (fun _ => ⟨⟨rfl, rfl, rfl⟩, rfl⟩) hm
    rw [hnames.isDir] at hf
    cases hf
  · intro c' m' hm' _
    rw [hfiles, dropped_nodes] at hm'
    split at hm'
    · exact ⟨n, ‹c' = c› ▸ hn.1⟩
    · split at hm'
      · exact ⟨nd, ‹c' = d› ▸ hnames.has.1⟩
      · exact ⟨m', hm'⟩

variable {v : Unit}

omit [DecidableEq D] in
theorem unlink_answer (md5 : Md5 D) (mode : Mode) (hinv : Inv md5 w.files) (hfault : x.fault = none)
    (hok : (w.files.perform who x.nowNs (.unlink d name)).1 = .ok v)
    (hname : ∀ nd, w.files.nodes d = some nd → Unlinks who nd.path name) :
    Acts md5 mode who x (.unlink d name) (w.Onward mode who.1) w := by
  obtain ⟨nd, c, n, hnames, hn, hk, hfiles⟩ := unlink_eq_ok (answer_ok hfault hok rfl)
  refine onward_dropped hinv hnames hn hfiles ?_
  rw [hfiles]
  exact .unlink hnames hn ((hinv.kinds hn.1).resolve_left hk) (hname nd hnames.has.1)

omit [DecidableEq D] in
theorem rmdir_answer (md5 : Md5 D) (mode : Mode) (hinv : Inv md5 w.files) (hfault : x.fault = none)
    (hok : (w.files.perform who x.nowNs (.rmdir d name)).1 = .ok v)
    (hmark : mode.kept → KeepsMarks (.rmdir d name) w) :
    Acts md5 mode who x (.rmdir d name) (w.Onward mode who.1) w := by
  obtain ⟨nd, c, n, hnames, hn, hk, hempty, hfiles⟩ := rmdir_eq_ok (answer_ok hfault hok rfl)
  refine onward_dropped hinv hnames hn hfiles ?_
  rw [hfiles]
  exact .rmdir hnames hn hk hempty fun hkept =>
    hmark hkept (d, name) rfl nd hnames.has.1 c hnames.entry n hn.1

theorem wp_unlinkOf {α : Type} {Q : α → World D (Who D) → Prop}
    {next : Reply (D := D) (.unlink d name) → Client (Reply (D := D)) α}
    (hP : Stable (bucketRules md5 mode) who P) (hw : P w)
    (hname : ∀ w' nd, P w' → w'.files.nodes d = some nd → Unlinks who nd.path name)
    (h : ∀ w' reply, P w' → Inv md5 w'.files → Wp md5 mode who (next reply) Q w') :
    Wp md5 mode who (.ask (.unlink d name) next) Q w := by
  refine (bucketRules_fair md5 mode).change hP hw ?_ fun w' e hw' hinv' => h w' _ hw' hinv'
  rintro x w1 v hw1 hinv1 - hfault hok
  obtain ⟨hinv2, hguar, honward⟩ := unlink_answer md5 mode hinv1 hfault hok fun nd hnd => hname w1 nd hw1 hnd
  exact ⟨hinv2, hguar, h _ _ (hP honward hinv2 hw1) hinv2⟩

theorem wp_rmdirOf {α : Type} {Q : α → World D (Who D) → Prop}
    {next : Reply (D := D) (.rmdir d name) → Client (Reply (D := D)) α}
    (hP : Stable (bucketRules md5 mode) who P) (hw : P w)
    (h : ∀ w' reply, P w' → Inv md5 w'.files → Wp md5 mode who (next reply) Q w') :
    Wp md5 mode who (.ask (.rmdir d name) next) Q w := by
  refine (bucketRules_fair md5 mode).change hP hw ?_ fun w' e hw' hinv' => h w' _ hw' hinv'
  rintro x w1 v hw1 hinv1 hmay hfault hok
  obtain ⟨hinv2, hguar, honward⟩ := rmdir_answer md5 mode hinv1 hfault hok hmay.marks
  exact ⟨hinv2, hguar, h _ _ (hP honward hinv2 hw1) hinv2⟩

section

variable {wr : Writer} (hwr : wr.tmp = tempName who.1) (hP : Stable (bucketRules md5 mode) who P)
include hwr hP

theorem wp_discardOf {Q : Unit → World D (Who D) → Prop} (hw : P w) (h : ∀ w', P w' → Inv md5 w'.files → Q () w') :
    Wp md5 mode who ((bucket md5 readOnly).discard wr) Q w := by
  refine (bucketRules_fair md5 mode).read rfl hP hw ?_
  intro w' _ hw' _ _ _
  refine wp_unlinkOf hP hw' (fun _ _ _ _ => .inl hwr) fun w'' _ hw'' hinv => h w'' hw'' hinv

theorem wp_orDiscardOf {y : Store (Reply (D := D)) Writer}
    (h : Wp md5 mode who y.run (fun | .ok wr' => Q (.ok wr') | .error _ => P) w)
    (herr : Fails md5 P Q) : Wp md5 mode who ((bucket md5 readOnly).orDiscard wr y).run Q w := by
  refine wp_bind (wp_mono (fun res w' hres => ?_) h)
  match res with
  | .ok wr' => exact hres
  | .error e => exact wp_bind (wp_discardOf hwr hP hres fun w'' hw'' hinv => herr w'' e hw'' hinv)

end

/-! ### Writing more -/

theorem wp_writeChunksOf {chunks : List Bytes} (hP : Lasting mode P) (hw : P w)
    (hinv : Inv md5 w.files) (hmine : Mine who c written mtimeNs none w)
    (h : ∀ w' mtimeNs, P w' → Inv md5 w'.files → Mine who c (written ++ chunks.flatten) mtimeNs none w' →
      Q (.ok ⟨d, c, tempName who.1, written ++ chunks.flatten⟩) w')
    (herr : Fails md5 P Q) :
    Wp md5 mode who ((bucket md5 readOnly).writeChunks ⟨d, c, tempName who.1, written⟩ chunks).run Q w := by
  induction chunks generalizing written mtimeNs w with
  | nil =>
    have hdone := h w mtimeNs hw hinv (by rwa [flatten_nil, append_nil])
    rwa [flatten_nil, append_nil] at hdone
  | cons data chunks ih =>
    refine wp_bindE (wp_orDiscardOf rfl hP.stable (wp_writeOf hP hw hinv hmine ?_ fun w' e hw' _ => hw') herr)
    intro w1 mtimeNs1 hw1 hinv1 hmine1
    refine ih hw1 hinv1 hmine1 ?_
    rw [append_assoc, ← flatten_cons]
    exact h

/-- Bytes of another file are appended. `K` says what is known about them. -/
theorem wp_copyLoopOf {ino offset len fuel sofar : Nat} {K : Nat → Bytes → Prop} (hP : Lasting mode P)
    (hK : ∀ {w' sofar} {written data : Bytes}, P w' → Inv md5 w'.files → sofar < len → K sofar written →
      Saw who (.read ino (offset + sofar) (min (len - sofar) chunk)) (.ok data) w' →
      K (sofar + data.length) (written ++ data)) (hw : P w) (hinv : Inv md5 w.files)
    (hmine : Mine who c written mtimeNs none w) (hsofar : K sofar written)
    (hfuel : len ≤ sofar + fuel)
    (h : ∀ w' sofar written mtimeNs, P w' → Inv md5 w'.files → Mine who c written mtimeNs none w' →
      K sofar written → len ≤ sofar → Q (.ok ⟨d, c, tempName who.1, written⟩) w')
    (herr : Fails md5 P Q) :
    Wp md5 mode who ((bucket md5 readOnly).copyLoop (bucket md5 readOnly) ino offset len
      fuel sofar ⟨d, c, tempName who.1, written⟩).run Q w := by
  induction fuel generalizing sofar written mtimeNs w with
  | zero => exact h w sofar written mtimeNs hw hinv hmine hsofar hfuel
  | succ fuel ih =>
    rw [Bucket.copyLoop]
    split
    · rename_i hlt
      have hstable := hP.stable.and (mine_stable md5 mode who c written mtimeNs none)
      refine wp_bindE ((bucketRules_fair md5 mode).read rfl hstable ⟨hw, hmine⟩ ?_)
      rintro w1 (reply : Except Errno Bytes) ⟨hw1, hmine1⟩ hinv1 hsaw -
      match reply with
      | .ok data =>
        have hnext := hK hw1 hinv1 hlt hsofar hsaw
        show Wp md5 mode who (ExceptT.run (if data = [] then _ else _)) Q w1
        split
        · exact herr w1 _ hw1 hinv1
        · rename_i hne
          have hpos : 0 < data.length := length_pos_iff.mpr hne
          refine wp_bindE (wp_writeOf hP hw1 hinv1 hmine1 ?_ herr)
          exact fun w2 mtimeNs2 hw2 hinv2 hmine2 => ih hw2 hinv2 hmine2 hnext (by omega)
      | .error .isdir => exact herr w1 _ hw1 hinv1
      | .error .noent | .error .exist | .error .notdir | .error .inval | .error .notempty
      | .error .nodata | .error .nametoolong | .error .rofs | .error .dquot | .error .io => exact herr w1 _ hw1 hinv1
    · exact h w sofar written mtimeNs hw hinv hmine hsofar (by omega)

/-! ### Giving the file its name -/

/-- The file that a call has put in its place, as it is then. -/
structure Published (who : Who D) (dest : List Text × Text) (o : Object D) (data : Bytes)
    (w : World D (Who D)) : Prop where
  fileAt : w.files.FileAt dest.1 dest.2 o.ino
  node : ∃ n m, w.files.nodes o.ino = some n ∧ n.kind = .file ∧ n.maker = some who ∧ n.moved = true ∧
    n.data = data ∧ n.recorded = some m ∧ m.etag = o.etag ∧ m.headers = o.headers

omit [DecidableEq D] in
theorem Mine.of_temp {nd : Node D (Who D)} {src : Nat} (hmine : Mine who c data mtimeNs recorded w)
    (hinv : Inv md5 w.files) (hnames : w.files.Names d nd (tempName who.1) src)
    (hn : w.files.Has src n) (hk : n.kind ≠ .dir) : src = c := by
  have hfile := (hinv.kinds hn.1).resolve_left hk
  obtain ⟨j, call, hmaker, hhidden, htarget⟩ := hinv.owned hnames.linked hnames.has.1 hn.1 hfile
  cases hmoved : n.moved with
  | false =>
    obtain rfl := tempName_inj (hhidden hmoved)
    exact hmine.only hn.1 hfile hmaker
  | true => exact absurd rfl (target_ne_tempName (htarget hmoved) who.1)

omit [DecidableEq D] in
theorem publish_answer (md5 : Md5 D) (mode : Mode) {m : ObjectMeta D} {o : Object D}
    (hinv : Inv md5 w.files) (hd : At path d w) (hmine : Mine who c data mtimeNs (some m) w)
    (htarget : who.2.target = some (path, name)) (ho : o.ino = c) (hetag : m.etag = o.etag)
    (hheaders : m.headers = o.headers) (hfault : x.fault = none)
    (hok : (w.files.perform who x.nowNs (.rename d (tempName who.1) name)).1 = .ok v) :
    Acts md5 mode who x (.rename d (tempName who.1) name)
      (fun w' => w.Grows mode w' ∧ Published who (path, name) o data w') w := by
  have hname := target_ne_tempName htarget who.1
  obtain ⟨nd, src, n, hnames, hn, hk, hcases⟩ := answer_rename hinv.wf hname hfault hok
  obtain rfl := hmine.of_temp hinv hnames hn hk
  obtain ⟨hfile, hmaker, hmoved, hdata, -, hrec⟩ := hmine.has hn
  obtain ⟨md, hmd, -, rfl⟩ := hd
  obtain rfl := mem_unique hmd hnames.has.1
  have hsome : n.recorded.isSome = true := by rw [hrec]; rfl
  -- in both cases the file takes its name once nothing has it
  have hdone : ∀ {g : Files D (Who D)} {e : Node D (Who D)}, g.WF → g.Names d e (tempName who.1) src →
      g.Has src n → e.path = md.path →
      ReflTransGen (Does md5 mode w.log who x.nowNs) w.files (placed g x.nowNs d e (tempName who.1) name src n) →
      (answer who x (.rename d (tempName who.1) name) w).2.files = placed g x.nowNs d e (tempName who.1) name src n →
      Acts md5 mode who x (.rename d (tempName who.1) name)
        (fun w' => w.Grows mode w' ∧ Published who (md.path, name) o data w') w := by
    intro g e hg hge hgn hpath hdoes hfiles
    obtain ⟨hinv', hguar, hgrows⟩ := does_answer (x := x) hinv (hfiles ▸ hdoes)
    refine ⟨hinv', hguar, hgrows, ?_, ?_⟩
    · rw [hfiles, ho]
      exact hpath ▸ hg.fileAt_placed hge hgn hfile
    · rw [hfiles, ho]
      exact ⟨_, m, (placed_nodes ..).trans (if_pos rfl), hfile, hmaker, rfl, hdata, hrec, hetag, hheaders⟩
  rcases hcases with ⟨hfree, hfiles⟩ | ⟨dst, gone, hdst, hne, hgone, hgk, hfiles⟩
  · refine hdone hinv.wf hnames hn rfl (.single ?_) hfiles
    exact .publish hnames hn hfile hmaker hmoved hsome htarget hfree
  · obtain ⟨hg, hge, hgn, hfree⟩ := hinv.wf.before_placed x.nowNs hnames hn hdst hgone hgk hne hname
    refine hdone hg hge hgn rfl ?_ hfiles
    refine (ReflTransGen.single ?_).tail (.publish hge hgn hfile hmaker hmoved hsome htarget hfree)
    exact .unlink hdst hgone ((hinv.kinds hgone.1).resolve_left hgk) (.inr (.inl htarget))

section

variable (hP : Lasting mode P) (htarget : who.2.target = some (path, name))
include hP htarget

section

variable {etag : Option (ETag D)}
  (hcontent : ∀ w', P w' → Content md5 mode who.2 w'.files written (etag.getD (.plain (md5.ofBytes written))))
  (hw : P w) (hd : At path d w) (hmine : Mine who c written mtimeNs none w)
  {expected : Option D} {headers : Headers} {Q : Except StoreError (Object D) → World D (Who D) → Prop}
  (h : ∀ w' o, P w' → Inv md5 w'.files → o.etag = etag.getD (.plain (md5.ofBytes written)) →
    o.headers = headers → Published who (path, name) o written w' → Q (.ok o) w')
  (herr : Fails md5 P Q)
include hcontent hw hd hmine h herr

theorem wp_placeOf : Wp md5 mode who ((bucket md5 readOnly).place ⟨d, c, tempName who.1, written⟩ name expected
      etag headers).run Q w := by
  have hfair := bucketRules_fair md5 mode
  have hplace := hP.and (lasting_at (D := D) mode path d)
  have hstable := fun mtimeNs recorded =>
    hplace.stable.and (mine_stable md5 mode who c written mtimeNs recorded)
  refine wp_bindE (hfair.call rfl (hstable mtimeNs none) ⟨⟨hw, hd⟩, hmine⟩
    (fun w1 _ hw1 hinv1 _ => ?_) fun w' n hw' hinv' => herr w' _ hw'.1.1 hinv')
  dsimp only
  split
  · exact herr w1 _ hw1.1.1 hinv1
  refine wp_bindE (hfair.call rfl (hstable mtimeNs none) hw1 (fun w2 a hw2 hinv2 hsaw => ?_)
    fun w' n hw' hinv' => herr w' _ hw'.1.1 hinv')
  obtain ⟨n2, hn2, rfl⟩ := getattr_eq_ok.mp hsaw.ok
  obtain ⟨hk2, -, -, hdata2, hmtime2, -⟩ := hw2.2.has hn2
  have hsize : (n2.attr c).size = written.length := by
    rw [Node.attr, hk2, hdata2]
    rfl
  refine wp_bindE (hfair.change (hstable mtimeNs none) hw2 ?_ fun w' e hw' hinv' => herr w' _ hw'.1.1 hinv')
  rintro x w3 v ⟨⟨hw3, hd3⟩, hmine3⟩ hinv3 - hfault hok
  obtain ⟨n, hn, hfiles⟩ := setRecorded_eq_ok (answer_ok (r := .setRecorded c
    ⟨etag.getD (.plain (md5.ofBytes written)), (n2.attr c).size, (n2.attr c).mtimeNs, headers⟩)
    hfault hok rfl)
  obtain ⟨hk, hmaker, hmoved, hdata, hmtime, hrec⟩ := hmine3.has hn
  have hdoes : Does md5 mode w3.log who x.nowNs w3.files (answer who x (.setRecorded c
      ⟨etag.getD (.plain (md5.ofBytes written)), (n2.attr c).size, (n2.attr c).mtimeNs, headers⟩)
      w3).2.files := by
    rw [hfiles]
    refine .record hn hk hmaker hmoved hrec ⟨hsize.trans (by rw [hdata]), ?_, hdata ▸ hcontent w3 hw3⟩
    exact hmtime2.trans hmtime.symm
  obtain ⟨hinv4, hguar, hgrows⟩ := does_answer hinv3 (.single hdoes)
  have hmine4 := mine_set hmine3 hn hfiles rfl rfl rfl hdata hmtime rfl
  refine ⟨hinv4, hguar, ?_⟩
  refine wp_bindE (hfair.lookup (hstable mtimeNs _) ⟨hplace hgrows ⟨hw3, hd3⟩, hmine4⟩ ?_)
  rintro w5 res hw5 hinv5 - -
  have hrename : Wp md5 mode who ((bucket md5 readOnly).moveInto
      ⟨d, c, tempName who.1, written⟩ name ⟨c, (n2.attr c).size, (n2.attr c).mtimeNs,
        etag.getD (.plain (md5.ofBytes written)), headers⟩).run Q w5 := by
    refine hfair.change (hstable mtimeNs _) hw5 ?_ fun w' e hw' hinv' => by
      cases e <;> exact herr w' _ hw'.1.1 hinv'
    rintro x w6 v ⟨⟨hw6, hd6⟩, hmine6⟩ hinv6 - hfault hok
    obtain ⟨hinv7, hguar, hgrows, hpub⟩ := publish_answer md5 mode
      (o := ⟨c, (n2.attr c).size, (n2.attr c).mtimeNs, etag.getD (.plain (md5.ofBytes written)), headers⟩)
      hinv6 hd6 hmine6 htarget rfl rfl rfl hfault hok
    exact ⟨hinv7, hguar, h _ _ (hP hgrows hw6) hinv7 rfl rfl hpub⟩
  rcases res with e | _ | t
  · exact herr w5 e hw5.1.1 hinv5
  · exact hrename
  · dsimp only
    split
    · exact herr w5 _ hw5.1.1 hinv5
    · exact hrename

theorem wp_commitOf : Wp md5 mode who ((bucket md5 readOnly).commit ⟨d, c, tempName who.1, written⟩ name
      expected etag headers).run Q w := by
  refine wp_bind (wp_placeOf hP htarget hcontent hw hd hmine h fun w' e hw' _ => ?_)
  exact wp_unlinkOf hP.stable hw' (fun _ _ _ _ => .inl rfl) fun w'' _ hw'' hinv'' =>
    herr w'' e hw'' hinv''

end

end

/-!
## Puts, copies and part uploads

What a call that puts a file has done when it succeeds.
-/

variable {key : Text} {headers : Headers}

/-- The bytes of an object; a marker has none. -/
def Node.content {W : Type} (n : Node D W) : Bytes := if n.kind = .dir then [] else n.data

/-- The object at `key` is there, with this content and these headers. -/
def Readable {W : Type} (key : Text) (data : Bytes) (headers : Headers) (f : Files D W) : Prop :=
  ∃ c n m, f.objectAt key = some c ∧ f.nodes c = some n ∧ n.content = data ∧ n.recorded = some m ∧
    m.headers = headers

/-! ### Markers -/

omit [DecidableEq D] in
/-- A change of what is kept on a directory is no trouble to the call's own file. -/
theorem onward_dir_set (md5 : Md5 D) (mode : Mode) {nd nd' : Node D (Who D)} (hinv : Inv md5 w.files)
    (hnd : w.files.Has d nd) (hdk : nd.kind = .dir) (hfiles : (answer who x r w).2.files = w.files.set d nd')
    (hdoes : Does md5 mode w.log who x.nowNs w.files (answer who x r w).2.files) :
    Acts md5 mode who x r (w.Onward mode who.1) w := by
  obtain ⟨hinv', hguar, -⟩ := does_answer hinv (.single hdoes)
  refine ⟨hinv', hguar, onward_of_keep hinv hdoes ?_ ?_ who.1⟩
  · intro c n hn
    rw [hfiles]
    refine node_set (X := fun n n' => n.kind = .file → n.SameFile n' ∧ n'.moved = n.moved)
      (fun _ _ => ⟨⟨rfl, rfl, rfl⟩, rfl⟩) hnd (fun hf => ?_) hn
    rw [hdk] at hf
    cases hf
  · intro c n' hn' _
    rw [hfiles, set_nodes] at hn'
    split at hn'
    · exact ⟨nd, ‹c = d› ▸ hnd.1⟩
    · exact ⟨n', hn'⟩

omit [DecidableEq D] in
theorem mark_does (md5 : Md5 D) (mode : Mode) {dirs : List Text} {m : Option (ObjectMeta D)} {nd : Node D (Who D)}
    (hinv : Inv md5 w.files) (hmarks : who.2.marks = some dirs) (hd : At dirs d w)
    (hnd : w.files.Has d nd)
    (hfiles : (answer who x r w).2.files = w.files.set d { nd with recorded := m, ctimeNs := x.nowNs }) :
    Acts md5 mode who x r (w.Onward mode who.1) w := by
  obtain ⟨md, hmd, hdk, hpath⟩ := hd
  obtain rfl := Option.mem_unique hmd hnd.1
  refine onward_dir_set md5 mode hinv hnd hdk hfiles ?_
  rw [hfiles]
  exact .mark m hnd hdk (hpath ▸ hmarks)

omit [DecidableEq D] in
theorem readable_marked {dirs : List Text} {m : ObjectMeta D} {nd : Node D (Who D)} {nowNs : Int}
    {f : Files D (Who D)} (hkey : parseKey key = .ok ⟨dirs, none⟩) (hd : At dirs d w)
    (hnd : w.files.Has d nd) (hwf : f.WF)
    (hfiles : f = w.files.set d { nd with recorded := some m, ctimeNs := nowNs }) :
    Readable key [] m.headers f := by
  obtain ⟨md, hmd, hdk, hpath⟩ := hd
  obtain rfl := Option.mem_unique hmd hnd.1
  subst hfiles
  refine ⟨d, _, m, (hwf.objectAt_mark hkey).mpr ?_, set_nodes_self .., if_pos hdk, rfl, rfl⟩
  exact ⟨_, ⟨set_nodes_self .., hnd.2⟩, hdk, hpath, rfl⟩

theorem wp_preparePutOf {Q : Except StoreError (Option (Nat × Text)) → World D (Who D) → Prop}
    (hmarks : who.2.marks = markPlace key) (hP : Stable (bucketRules md5 mode) who P) (hw : P w)
    (hinv : Inv md5 w.files)
    (hok : ∀ w' dirs name d, P w' → Inv md5 w'.files → parseKey key = .ok ⟨dirs, some name⟩ →
      At dirs d w' → Q (.ok (some (d, name))) w')
    (hmark : ∀ w', P w' → Inv md5 w'.files → key.getLast? = some '/' → Readable key [] headers w'.files →
      Q (.ok none) w')
    (herr : Fails md5 P Q) :
    Wp md5 mode who ((bucket md5 readOnly).preparePut key headers).run Q w := by
  have hfair := bucketRules_fair md5 mode
  refine Fair.wp_writable ?_ (herr w _ hw hinv)
  match hkey : parseKey key with
  | .error e => exact herr w e hw hinv
  | .ok ⟨dirs, some name⟩ =>
    refine wp_bindE (hfair.makeFrom (makesAt md5 mode who) hP hw hinv (at_root hinv) (fun w1 d hw1 hinv1 hd => ?_) herr)
    refine wp_bindE (hfair.lookup (hP.and (lasting_at mode dirs d).stable) ⟨hw1, hd⟩ ?_)
    rintro w2 res ⟨hw2, hd2⟩ hinv2 - -
    match res with
    | .error e => exact herr w2 e hw2 hinv2
    | .ok none => exact hok w2 dirs name d hw2 hinv2 hkey hd2
    | .ok (some a) =>
      dsimp only
      split
      · exact herr w2 _ hw2 hinv2
      · exact hok w2 dirs name d hw2 hinv2 hkey hd2
  | .ok ⟨dirs, none⟩ =>
    refine wp_bindE (hfair.makeFrom (makesAt md5 mode who) hP hw hinv (at_root hinv) (fun w1 d hw1 hinv1 hd => ?_) herr)
    have hstable := hP.and (lasting_at (D := D) mode dirs d).stable
    refine wp_bindE (hfair.call rfl hstable ⟨hw1, hd⟩ (fun w2 a hw2 _ _ => ?_)
      fun w' n hw' hinv' => herr w' _ hw'.1 hinv')
    refine wp_bindE (hfair.change hstable hw2 ?_ fun w' e hw' hinv' => herr w' _ hw'.1 hinv')
    rintro x w3 v ⟨hw3, hd3⟩ hinv3 - hfault hok
    obtain ⟨nd, hnd, hfiles⟩ := setRecorded_eq_ok (answer_ok hfault hok rfl)
    obtain ⟨hinv4, hguar, honward⟩ := mark_does md5 mode hinv3
      (hmarks.trans (markPlace_eq_some.mpr hkey)) hd3 hnd hfiles
    refine ⟨hinv4, hguar, hmark _ (hP honward hinv4 hw3) hinv4 ?_ ?_⟩
    · rw [(parseKey_eq_ok hkey).2]
      simp
    · exact readable_marked hkey hd3 hnd hinv4.wf hfiles

/-! ### Puts -/

omit [DecidableEq D] in
theorem Published.readable {dirs : List Text} {name : Text} {o : Object D} {data : Bytes}
    (h : Published who (dirs, name) o data w) (hinv : Inv md5 w.files)
    (hkey : parseKey key = .ok ⟨dirs, some name⟩) : Readable key data o.headers w.files := by
  obtain ⟨n, m, hn, hk, -, -, hdata, hrec, -, hheaders⟩ := h.node
  refine ⟨o.ino, n, m, (hinv.wf.objectAt_file hkey).mpr h.fileAt, hn, ?_, hrec, hheaders⟩
  rw [Node.content, if_neg (by rw [hk]; nofun)]
  exact hdata

omit [DecidableEq D] in
theorem content_plain {data : Bytes} {f : Files D (Who D)}
    (hcall : ∀ id key parts, who.2 ≠ .completeUpload id key parts)
    (hpart : ∀ {id key number body}, who.2 = .uploadPart id key number body → data = body.chunks.flatten) :
    Content md5 mode who.2 f data (.plain (md5.ofBytes data)) :=
  ⟨fun _ => rfl, hpart, fun h => absurd h (hcall _ _ _)⟩

theorem wp_receiveOf {body : Body D} {commit : Writer → Store (Reply (D := D)) (ETag D)}
    {mtimeNs : Int} {Q : Out D → World D (Who D) → Prop} (hP : Lasting mode P) (hw : P w)
    (hinv : Inv md5 w.files) (hmine : Mine who c [] mtimeNs none w)
    (hcommit : ∀ w' mtimeNs, P w' → Mine who c body.chunks.flatten mtimeNs none w' →
      Wp md5 mode who (commit ⟨d, c, tempName who.1, body.chunks.flatten⟩).run (fun
        | .ok e => Q (.ok (.etag e))
        | .error e => Q (.error (.store e))) w')
    (herr : ∀ w' e, P w' → Q (.error e) w') :
    Wp md5 mode who ((bucket md5 readOnly).receive ⟨d, c, tempName who.1, []⟩ body commit) Q w := by
  refine wp_bind (wp_writeChunksOf hP hw hinv hmine ?_ fun w' e hw' _ => herr w' _ hw')
  intro w1 mtimeNs1 hw1 _ hmine1
  rw [List.nil_append] at hmine1 ⊢
  dsimp only
  split
  · refine wp_bind (wp_mono (fun res w' hres => ?_) (hcommit w1 mtimeNs1 hw1 hmine1))
    match res with
    | .ok e => exact hres
    | .error e => exact hres
  · exact wp_bind (wp_discardOf rfl hP.stable hw1 fun w' hw' _ => herr w' _ hw')

section

variable {ifNoneMatch : Bool} {body : Body D} (hwho : who.2 = .put key ifNoneMatch headers body)
  (hinv : Inv md5 w.files) (hno : NoFile who.1 w.files)
include hwho hinv hno

theorem wp_putBodyOf : Wp md5 mode who ((bucket md5 readOnly).putBody who.1 key headers body)
      (fun out w' => ∀ a, out = .ok a → Readable key body.chunks.flatten headers w'.files) w := by
  have hmarks : who.2.marks = markPlace key := by rw [hwho]; rfl
  unfold Bucket.putBody
  split
  · exact fun a ha => nomatch ha
  rename_i hbody
  refine wp_bind (wp_preparePutOf hmarks (noFile_stable md5 mode who) hno hinv ?_ ?_ fun w' e _ _ a ha => nomatch ha)
  · intro w1 dirs name d hno1 hinv1 hkey hd
    have htarget : who.2.target = some (dirs, name) := by rw [hwho]; exact place_eq_some.mpr hkey
    have hlasting := lasting_at (D := D) mode dirs d
    refine wp_bind (wp_writerOf hlasting hd hinv1 hno1 ?_ fun w' e _ _ a ha => nomatch ha)
    intro w2 c mtimeNs hd2 hinv2 hmine2
    refine wp_receiveOf hlasting hd2 hinv2 hmine2 ?_ fun w' e _ a ha => nomatch ha
    intro w3 mtimeNs3 hd3 hmine3
    refine wp_bindE (wp_commitOf hlasting htarget (fun w' _ => content_plain (by rw [hwho]; nofun)
      (by rw [hwho]; nofun)) hd3 hd3 hmine3 ?_ fun w' e _ _ a ha => nomatch ha)
    intro w4 o _ hinv4 _ hheaders hpub a _
    exact hheaders ▸ hpub.readable hinv4 hkey
  · intro w1 _ _ hlast hread a _
    have hempty : body.chunks.flatten = [] := by
      by_contra hne
      refine hbody ⟨hlast, ?_⟩
      simpa using hne
    rw [hempty]
    exact hread

theorem wp_putObjectOf : Wp md5 mode who ((bucket md5 readOnly).putObject who.1 key ifNoneMatch headers body)
      (fun out w' => ∀ a, out = .ok a → Readable key body.chunks.flatten headers w'.files) w := by
  unfold Bucket.putObject
  split
  · refine wp_bind (wp_headOf (noFile_stable md5 mode who) hno hinv
      (fun w' o _ _ _ a ha => nomatch ha) fun w' e hno' hinv' => ?_)
    match e with
    | .noSuchKey => exact wp_putBodyOf hwho hinv' hno'
    | .noSuchUpload | .invalidKey _ | .conflict _ | .readOnly | .quota | .invalidPart _ | .tooSmall _
    | .badDigest | .invalid _ | .io _ => exact fun a ha => nomatch ha
  · exact wp_putBodyOf hwho hinv hno

end

/-! ### Copies -/

omit [DecidableEq D] in
theorem wp_finish {α : Type} {f : α → Answer D} {y : Store (Reply (D := D)) α}
    {R : Rules (Reply (D := D)) (Who D) Env (World D (Who D))} {Q : Out D → World D (Who D) → Prop}
    (h : R.wp who y.run (fun
      | .ok a => Q (.ok (f a))
      | .error e => Q (.error (.store e))) w) : R.wp who (finish f y) Q w := by
  refine wp_bind (wp_mono (fun res w' hres => ?_) h)
  match res with
  | .ok a => exact hres
  | .error e => exact hres

theorem wp_copyObjectOf {src : Text} {replaced : Option Headers} (hwho : who.2 = .copy src key replaced)
    (hinv : Inv md5 w.files) (hno : NoFile who.1 w.files) :
    Wp md5 mode who ((bucket md5 readOnly).copyObject who.1 src key replaced).run (fun _ _ => True) w := by
  have hmarks : who.2.marks = markPlace key := by rw [hwho]; rfl
  have hfree := noFile_stable md5 mode who
  refine wp_bindE (wp_headOf hfree hno hinv ?_ fun _ _ _ _ => trivial)
  intro w1 s hno1 hinv1 _
  refine wp_bindE (wp_preparePutOf hmarks hfree hno1 hinv1 ?_ ?_ fun _ _ _ _ => trivial)
  · intro w2 dirs name d hno2 hinv2 hkey hd
    have htarget : who.2.target = some (dirs, name) := by rw [hwho]; exact place_eq_some.mpr hkey
    have hlasting := lasting_at (D := D) mode dirs d
    refine wp_bindE (wp_writerOf hlasting hd hinv2 hno2 ?_ fun _ _ _ _ => trivial)
    intro w3 c mtimeNs hd3 hinv3 hmine3
    refine wp_bindE (wp_orDiscardOf rfl hlasting.stable (wp_copyLoopOf hlasting
      (K := fun _ _ => True) (fun _ _ _ _ _ => trivial) hd3 hinv3 hmine3 trivial (by omega) ?_
      fun _ _ hd' _ => hd') fun _ _ _ _ => trivial)
    intro w4 _ written mtimeNs4 hd4 _ hmine4 _ _
    exact wp_commitOf hlasting htarget (fun w' _ => content_plain (by rw [hwho]; nofun)
      (by rw [hwho]; nofun)) hd4 hd4 hmine4 (fun _ _ _ _ _ _ _ => trivial) fun _ _ _ _ => trivial
  · intro w2 hno2 hinv2 _ _
    exact wp_headOf hfree hno2 hinv2 (fun _ _ _ _ _ => trivial) fun _ _ _ _ => trivial

/-! ### Parts -/

theorem wp_uploadPartOf {id : Text} {number : Int} {body : Body D}
    (hwho : who.2 = .uploadPart id key number body) (hinv : Inv md5 w.files)
    (hno : NoFile who.1 w.files) :
    Wp md5 mode who ((bucket md5 readOnly).uploadPart who.1 id key number body) (fun _ _ => True) w := by
  have htarget : who.2.target = some ([uploadsDir, id], partName number) := by rw [hwho]; rfl
  have hcall : ∀ id key parts, who.2 ≠ .completeUpload id key parts := by rw [hwho]; nofun
  have hpart : ∀ {id' key' number' body'}, who.2 = .uploadPart id' key' number' body' →
      body.chunks.flatten = body'.chunks.flatten := by
    rw [hwho]
    intro id' key' number' body' heq
    injection heq with _ _ _ hbody
    rw [hbody]
  refine wp_bind (Fair.wp_writable ?_ trivial)
  split
  · exact trivial
  refine wp_bindE (wp_uploadDir (noFile_stable md5 mode who) hno hinv ?_ fun _ _ _ _ => trivial)
  intro w1 d _ hno1 hinv1 hd
  have hlasting := lasting_at (D := D) mode [uploadsDir, id] d
  refine wp_writerOf hlasting hd hinv1 hno1 ?_ fun _ _ _ _ => trivial
  intro w2 c mtimeNs hd2 hinv2 hmine2
  refine wp_receiveOf hlasting hd2 hinv2 hmine2 ?_ fun _ _ _ => trivial
  intro w3 mtimeNs3 hd3 hmine3
  exact wp_bindE (wp_commitOf hlasting htarget (fun w' _ => content_plain hcall hpart) hd3 hd3
    hmine3 (fun _ _ _ _ _ _ _ => trivial) fun _ _ _ _ => trivial)

end AtlasNative.S3
