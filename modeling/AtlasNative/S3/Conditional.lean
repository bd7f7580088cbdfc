import AtlasNative.S3.Follow
import AtlasNative.S3.Objects

/-!
# Conditional puts

A PUT with `If-None-Match: *` looks for the object first and puts it in place much later. Puts of one
key exclude each other as long as nobody puts the object in place while another conditional put is
under way.
-/

namespace AtlasNative.S3.Conditional

open Program Files Rules Option Files Pool

variable {D : Type} {f f' : Files D (Who D)} {i c d : Nat} {path : List Text} {key : Text}

/-! ### What a put does before it places its object -/

/-- Directories are made, and things come and go under the call's own hidden name. -/
structure Quiet (i : Nat) (f f' : Files D (Who D)) : Prop where
  wf : f'.WF
  node : ∀ {c n}, f.nodes c = some n → ∃ n', f'.nodes c = some n' ∧ n'.kind = n.kind ∧
    n'.path = n.path ∧ (n.kind = .dir → n'.live = n.live ∧ n'.recorded = n.recorded)
  link : ∀ {d x c}, f.Linked d x c → x ≠ tempName i → f'.Linked d x c
  back : ∀ {d x c}, f'.Linked d x c → x ≠ tempName i → f.Linked d x c ∨
    ∃ n', f'.nodes c = some n' ∧ n'.kind = .dir
  fresh : ∀ {c n'}, f'.nodes c = some n' → n'.recorded.isSome = true → ∃ n, f.nodes c = some n

variable {n n' nd : Node D (Who D)} {nowNs : Int} {name : Text}

namespace Quiet

theorem refl (hwf : f.WF) : Quiet i f f :=
  ⟨hwf, fun hn => ⟨_, hn, rfl, rfl, fun _ => ⟨rfl, rfl⟩⟩, fun hl _ => hl, fun hl _ => .inl hl, fun hn _ => ⟨_, hn⟩⟩

theorem set (hwf : f.WF) (hn : f.Has c n) (hfile : n.kind = .file) (hkind : n'.kind = n.kind)
    (hpath : n'.path = n.path) (hlive : n'.live = true) (hent : n'.entries = n.entries) :
    Quiet i f (f.set c n') where
  wf := hwf.set hn hkind hpath hlive hent
  node := node_set (X := fun n n' => n'.kind = n.kind ∧ n'.path = n.path ∧
      (n.kind = .dir → n'.live = n.live ∧ n'.recorded = n.recorded))
    (fun _ => ⟨rfl, rfl, fun _ => ⟨rfl, rfl⟩⟩) hn
    ⟨hkind, hpath, fun hdir => by rw [hfile] at hdir; cases hdir⟩
  link hl _ := (linked_set hn hent).mpr hl
  back hl _ := .inl ((linked_set hn hent).mp hl)
  fresh {c' m} hm _ := by
    rw [set_nodes] at hm
    split at hm
    · exact ⟨n, ‹c' = c› ▸ hn.1⟩
    · exact ⟨m, hm⟩

theorem made (hwf : f.WF) {who : Who D} {x : Text} {kind : NodeType} (hd : f.Has d nd)
    (hdir : nd.kind = .dir) (hfree : nd.entries.lookup x = none)
    (hx : kind = .dir ∨ x = tempName i) : Quiet i f (made f who nowNs d nd x kind) where
  wf := hwf.made hd hdir hfree
  node := node_made (X := fun n n' => n'.kind = n.kind ∧ n'.path = n.path ∧
      (n.kind = .dir → n'.live = n.live ∧ n'.recorded = n.recorded))
    (fun _ => ⟨rfl, rfl, fun _ => ⟨rfl, rfl⟩⟩) hwf hd fun _ => ⟨rfl, rfl, fun _ => ⟨rfl, rfl⟩⟩
  link hl _ := (hwf.linked_made hd hfree).mpr (.inl hl)
  back hl hne := by
    rcases (hwf.linked_made hd hfree).mp hl with hold | ⟨rfl, rfl, rfl⟩
    · exact .inl hold
    · refine .inr ⟨_, (made_nodes ..).trans (if_pos rfl), ?_⟩
      exact hx.elim id fun heq => absurd heq hne
  fresh {c m} hm hrec := by
    rw [made_nodes] at hm
    split at hm
    · rw [← some.inj hm] at hrec
      cases hrec
    · split at hm
      · exact ⟨nd, ‹c = d› ▸ hd.1⟩
      · exact ⟨m, hm⟩

theorem dropped (hwf : f.WF) (hd : f.Names d nd (tempName i) c) (hn : f.Has c n) (hfile : n.kind ≠ .dir) :
    Quiet i f (dropped f nowNs d nd (tempName i) c n) where
  wf := hwf.dropped hd hn (hwf.leaf hn hfile)
  node := node_dropped (X := fun n n' => n'.kind = n.kind ∧ n'.path = n.path ∧
      (n.kind = .dir → n'.live = n.live ∧ n'.recorded = n.recorded))
    (fun _ => ⟨rfl, rfl, fun _ => ⟨rfl, rfl⟩⟩) hd.has hn (fun _ => ⟨rfl, rfl, fun _ => ⟨rfl, rfl⟩⟩)
    ⟨rfl, rfl, fun hdir => absurd hdir hfile⟩
  link hl hne := (linked_dropped hd hn (hwf.leaf hn hfile)).mpr ⟨hl, fun heq => hne heq.2⟩
  back hl _ := .inl ((linked_dropped hd hn (hwf.leaf hn hfile)).mp hl).1
  fresh {c' m} hm _ := by
    rw [dropped_nodes] at hm
    split at hm
    · exact ⟨n, ‹c' = c› ▸ hn.1⟩
    · split at hm
      · exact ⟨nd, ‹c' = d› ▸ hd.has.1⟩
      · exact ⟨m, hm⟩

theorem dirAt (h : Quiet i f f') (hd : f.DirAt path d) : f'.DirAt path d := by
  obtain ⟨n, hn, hk, hpath⟩ := hd
  obtain ⟨n', hn', hk', hpath', hdir⟩ := h.node hn.1
  exact ⟨n', ⟨hn', (hdir hk).1.trans hn.2⟩, hk'.trans hk, hpath'.trans hpath⟩

theorem fileAt_iff (h : Quiet i f f') (hwf : f.WF) (hname : name ≠ tempName i) :
    f'.FileAt path name c ↔ f.FileAt path name c := by
  rw [hwf.fileAt_iff, h.wf.fileAt_iff]
  constructor
  · rintro ⟨d, nd', n', hl, hnd', hpath, hn', hk⟩
    have hold : f.Linked d name c := by
      rcases h.back hl hname with hold | ⟨m, hm, hmk⟩
      · exact hold
      · rw [mem_unique hn' hm, hmk] at hk
        cases hk
    obtain ⟨-, nd, n, hnd, -, hn, -⟩ := hwf.link hold
    obtain ⟨m, hm, -, hpath', -⟩ := h.node hnd.1
    obtain ⟨m', hm', hkind', -⟩ := h.node hn.1
    obtain rfl : nd' = m := mem_unique hnd' hm
    obtain rfl : n' = m' := mem_unique hn' hm'
    exact ⟨d, nd, n, hold, hnd.1, hpath'.symm.trans hpath, hn.1, hkind'.symm.trans hk⟩
  · rintro ⟨d, nd, n, hl, hnd, hpath, hn, hk⟩
    obtain ⟨nd', hnd', -, hpath', -⟩ := h.node hnd
    obtain ⟨n', hn', hk', -⟩ := h.node hn
    exact ⟨d, nd', n', h.link hl hname, hnd', hpath'.trans hpath, hn', hk'.trans hk⟩

theorem markAt_iff (h : Quiet i f f') : f'.MarkAt path c ↔ f.MarkAt path c := by
  constructor
  · rintro ⟨n', hn', hk, hpath, hrec⟩
    obtain ⟨n, hn⟩ := h.fresh hn'.1 hrec
    obtain ⟨m, hm, hk', hpath', hdir⟩ := h.node hn
    obtain rfl : n' = m := mem_unique hn'.1 hm
    obtain ⟨hlive, hsame⟩ := hdir (hk'.symm.trans hk)
    exact ⟨n, ⟨hn, hlive.symm.trans hn'.2⟩, hk'.symm.trans hk, hpath'.symm.trans hpath, hsame ▸ hrec⟩
  · rintro ⟨n, hn, hk, hpath, hrec⟩
    obtain ⟨n', hn', hk', hpath', hdir⟩ := h.node hn.1
    obtain ⟨hlive, hsame⟩ := hdir hk
    exact ⟨n', ⟨hn', hlive.trans hn.2⟩, hk'.trans hk, hpath'.trans hpath, hsame ▸ hrec⟩

theorem objectAt (h : Quiet i f f') (hwf : f.WF) (key : Text) : f'.objectAt key = f.objectAt key := by
  match hkey : parseKey key with
  | .error e => simp only [Files.objectAt, hkey]
  | .ok ⟨dirs, some name⟩ =>
    have hname : Segment name := (parseKey_eq_ok hkey).1 name (by simp)
    refine ext fun c => ?_
    rw [h.wf.objectAt_file hkey, hwf.objectAt_file hkey, h.fileAt_iff hwf (hname.ne_tempName i)]
  | .ok ⟨dirs, none⟩ =>
    refine ext fun c => ?_
    rw [h.wf.objectAt_mark hkey, hwf.objectAt_mark hkey, h.markAt_iff]

end Quiet

/-! ### Puts that place their object -/

/-- The requests by which a put of `key` makes its object appear. -/
def placing (key : Text) : Request D → Bool
  | .rename .. => true
  | .setRecorded .. => key.getLast? = some '/'
  | _ => false

/-- A PUT with `If-None-Match: *`. -/
def conditional : Call D → Bool
  | .put _ ifNoneMatch _ _ => ifNoneMatch
  | _ => false

def Asked.succeeded (e : Asked D (Who D)) : Bool :=
  match e.reply with
  | .ok _ => true
  | .error _ => false

/-- A conditional put has placed its object. -/
def PlacedBy (key : Text) (log : List (Asked D (Who D))) (who : Who D) : Prop :=
  conditional who.2 = true ∧
    ∃ e ∈ log, e.who = who ∧ placing key e.request = true ∧ Asked.succeeded e = true

/-- The hidden file of a call. -/
def TempAt (f : Files D (Who D)) (i d c : Nat) : Prop :=
  f.Linked d (tempName i) c ∧ ∃ n, f.nodes c = some n ∧ n.kind = .file

structure Inv (key : Text) (w : World D (Who D)) : Prop where
  wf : w.files.WF
  present : ∀ {who}, PlacedBy key w.log who → (w.files.objectAt key).isSome = true
  single : ∀ {who who'}, PlacedBy key w.log who → PlacedBy key w.log who' → who = who'

/-- What a put lets the other puts do. -/
structure Rely (key : Text) (who : Who D) (w w' : World D (Who D)) : Prop where
  dirAt : ∀ {path d}, w.files.DirAt path d → w'.files.DirAt path d
  tempAt : ∀ {d c}, TempAt w.files who.1 d c → TempAt w'.files who.1 d c
  log : ∀ {e}, e ∈ w.log → e ∈ w'.log
  object : conditional who.2 = true → w'.files.objectAt key = w.files.objectAt key

/-- What a put does itself. -/
structure Guar (key : Text) (who : Who D) (r : Request D) (w w' : World D (Who D)) : Prop where
  dirAt : ∀ {path d}, w.files.DirAt path d → w'.files.DirAt path d
  tempAt : ∀ {i d c}, i ≠ who.1 → TempAt w.files i d c → TempAt w'.files i d c
  log : ∀ {e}, e ∈ w.log → e ∈ w'.log
  object : placing key r = false → w'.files.objectAt key = w.files.objectAt key
  /-- A conditional put replaces nothing. -/
  keeps : conditional who.2 = true → ∀ {c}, w.files.objectAt key = some c →
    w'.files.objectAt key = some c

def rules (key : Text) : Rules (Reply (D := D)) (Who D) Env (World D (Who D)) where
  answer := answer
  inv := Inv key
  rely := Rely key
  guar := Guar key
  may _ _ _ _ := True

section

variable {who : Who D} {r : Request D} {x : Env} {w w' : World D (Who D)}

theorem Rely.refl (key : Text) (who : Who D) (w : World D (Who D)) : Rely key who w w := ⟨id, id, id, fun _ => rfl⟩

theorem Rely.trans {w'' : World D (Who D)} (h : Rely key who w w') (h' : Rely key who w' w'') : Rely key who w w'' :=
  ⟨fun hd => h'.dirAt (h.dirAt hd), fun hd => h'.tempAt (h.tempAt hd), fun he => h'.log (h.log he),
    fun hc => (h'.object hc).trans (h.object hc)⟩

theorem Quiet.tempAt {j : Nat} (h : Quiet i f f') (hj : j ≠ i) (ht : TempAt f j d c) : TempAt f' j d c := by
  obtain ⟨hl, n, hn, hk⟩ := ht
  obtain ⟨n', hn', hk', -⟩ := h.node hn
  exact ⟨h.link hl fun heq => hj (tempName_inj heq), n', hn', hk'.trans hk⟩

/-- The invariant after a request, where one that places finds no object and leaves one. -/
theorem Inv.answer (h : Inv key w) (hwf : (answer who x r w).2.files.WF)
    (hpresent : (w.files.objectAt key).isSome = true → ((answer who x r w).2.files.objectAt key).isSome = true)
    (hplace : conditional who.2 = true → placing key r = true → (∃ v, (S3.answer who x r w).1 = .ok v) →
      w.files.objectAt key = none ∧ ((S3.answer who x r w).2.files.objectAt key).isSome = true) :
    Inv key (S3.answer who x r w).2 := by
  -- a put has placed its object before, or does so now
  have hcases : ∀ {who'}, PlacedBy key (S3.answer who x r w).2.log who' → PlacedBy key w.log who' ∨
      who' = who ∧ w.files.objectAt key = none ∧ ((S3.answer who x r w).2.files.objectAt key).isSome = true := by
    rintro who' ⟨hc, e, he, rfl, hplaces, hok⟩
    rcases List.mem_append.mp he with hold | hnew
    · exact .inl ⟨hc, e, hold, rfl, hplaces, hok⟩
    · obtain rfl := List.mem_singleton.mp hnew
      refine .inr ⟨rfl, hplace hc hplaces ?_⟩
      dsimp only [Asked.succeeded] at hok
      split at hok
      · exact ⟨_, ‹_›⟩
      · cases hok
  have hnone : ∀ {who'}, PlacedBy key w.log who' → w.files.objectAt key ≠ none := by
    intro who' hp heq
    have hsome := h.present hp
    rw [heq] at hsome
    cases hsome
  refine ⟨hwf, fun hp => ?_, fun hp hp' => ?_⟩
  · rcases hcases hp with hold | ⟨-, -, hsome⟩
    · exact hpresent (h.present hold)
    · exact hsome
  · rcases hcases hp with hold | ⟨rfl, habsent, -⟩ <;>
      rcases hcases hp' with hold' | ⟨rfl, habsent', -⟩
    · exact h.single hold hold'
    · exact absurd habsent' (hnone hold)
    · exact absurd habsent (hnone hold')
    · rfl

theorem quiet_answer (key : Text) (h : Inv key w) (hq : Quiet who.1 w.files (answer who x r w).2.files)
    (hr : placing key r = false ∨ ∃ e, (answer who x r w).1 = .error e) :
    Inv key (answer who x r w).2 ∧ Guar key who r w (answer who x r w).2 := by
  have hsame := hq.objectAt h.wf key
  refine ⟨h.answer hq.wf (fun hsome => by rwa [hsame]) fun _ hplaces hok => ?_, hq.dirAt,
    fun hi => hq.tempAt hi, fun he => List.mem_append_left _ he, fun _ => hsame, fun _ _ hc => by
      rwa [hsame]⟩
  rcases hr with hr | ⟨e, he⟩
  · rw [hr] at hplaces
    cases hplaces
  · obtain ⟨v, hv⟩ := hok
    rw [he] at hv
    cases hv

theorem fair (key : Text) : Fair (rules (D := D) key) where
  answer_eq := rfl
  still {who x r w} hinv hfiles hr := by
    have hq : Quiet who.1 w.files (answer who x r w).2.files := by
      rw [hfiles]
      exact Quiet.refl hinv.wf
    have hplaces : placing key r = false ∨ ∃ e, (answer who x r w).1 = .error e :=
      hr.imp (fun hreads => by cases r <;> first | rfl | cases hreads) id
    obtain ⟨hinv', hguar⟩ := quiet_answer key hinv hq hplaces
    refine ⟨hinv', hguar, hguar.dirAt, fun ht => ?_, hguar.log, fun _ => ?_⟩ <;> rw [hfiles]
    exact ht

/-! ### The text of a put -/

variable {md5 : Md5 D} {readOnly : Bool}

/-- Where a directory is, for a put. -/
def At (path : List Text) (d : Nat) (w : World D (Who D)) : Prop := w.files.DirAt path d

theorem makes (key : Text) (who : Who D) : Fair.Makes (rules key) who At where
  stable _ _ _ _ hrely _ hd := hrely.dirAt hd
  step hinv hd ha hk := hinv.wf.dirAt_step hd ha hk
  mkdir {path d x e w} hinv hd _ := by
    cases hreply : (answer who e (.mknode d x .dir) w).1 with
    | error n =>
      obtain ⟨hinv', hguar, hrely⟩ := (fair key).still hinv (answer_files_of_error hreply) (.inr ⟨n, hreply⟩)
      exact ⟨hinv', hguar, hrely, by simp⟩
    | ok a =>
      have hfault : e.fault = none := by
        cases hx : e.fault with
        | none => rfl
        | some e => simp [answer, hx] at hreply
      rw [answer_eq_perform hfault] at hreply
      obtain ⟨nd, hnd, hdir, hfree, rfl, hmade⟩ := answer_mknode hfault hreply
      have hq : Quiet who.1 w.files (answer who e (.mknode d x .dir) w).2.files :=
        hmade ▸ Quiet.made hinv.wf hnd hdir hfree (.inl rfl)
      obtain ⟨hinv', hguar⟩ := quiet_answer key hinv hq (.inl rfl)
      refine ⟨hinv', hguar, ⟨hguar.dirAt, fun htemp => ?_, hguar.log, fun _ =>
        hguar.object rfl⟩, fun b hb => ?_⟩
      · obtain ⟨hl, n, hn, hk⟩ := htemp
        obtain ⟨n', hn', hk', -⟩ := hq.node hn
        rw [TempAt, hmade]
        exact ⟨(hinv.wf.linked_made hnd hfree).mpr (.inl hl), n', hmade ▸ hn', hk'.trans hk⟩
      · obtain rfl := Except.ok.inj hb
        obtain ⟨md, hmd, -, hpath⟩ := hd
        obtain rfl := hmd.unique hnd
        rw [At, hmade]
        exact ⟨_, ⟨(made_nodes ..).trans (if_pos rfl), rfl⟩, rfl, congrArg (· ++ [x]) hpath⟩

/-- Where a segment of the key's path is missing there is no object. -/
theorem absent_of_missing {p : KeyPath} (hwf : w.files.WF) (hkey : parseKey key = .ok p)
    (h : Fair.Missing At p.dirs w) : w.files.objectAt key = none := by
  obtain ⟨front, x, back, ino, hdirs, hino, hx⟩ := h
  obtain ⟨hseg, -⟩ := parseKey_eq_ok hkey
  have hno : ∀ d, ¬ w.files.DirAt p.dirs d := by
    intro d hd
    rw [hdirs] at hd
    obtain ⟨a, ha, hk⟩ := hwf.lookup_of_dirAt (hseg x (by simp [hdirs])) hd hino
    exact hx a ha hk
  obtain ⟨dirs, name⟩ := p
  refine eq_none_iff_forall_ne_some.mpr fun c hc => ?_
  cases name with
  | some name =>
    obtain ⟨d, nd, n, hnames, hpath, -⟩ := (hwf.objectAt_file hkey).mp hc
    exact hno d ⟨nd, hnames.has, hnames.isDir, hpath⟩
  | none =>
    obtain ⟨n, hn, hk, hpath, -⟩ := (hwf.objectAt_mark hkey).mp hc
    exact hno c ⟨n, hn, hk, hpath⟩

variable {Q : Except StoreError (Object D) → World D (Who D) → Prop}

/-- `object` of an inode that stays the object of the key fails only with an error of its own. -/
theorem wp_object {P : World D (Who D) → Prop} (hP : Stable (rules key) who P) {a : Attr}
    (hlive : ∀ w', P w' → Inv key w' → ∃ n, w'.files.Has a.ino n) (hw : P w)
    (h : ∀ w' res, Inv key w' → res ≠ .error .noSuchKey → Q res w') :
    (rules key).wp who ((bucket md5 readOnly).object a).run Q w := by
  refine wp_bindE ((fair key).recorded hP hw ?_ ?_ ?_)
  · exact fun w' m _ hinv _ => h w' _ hinv nofun
  · intro w' hw' hinv hgone
    obtain ⟨n, hn⟩ := hlive w' hw' hinv
    exact absurd hn (hgone n)
  · exact fun w' n _ hinv => h w' _ hinv (by cases n <;> nofun)

/-- When `head` finds no object for a conditional put there is none. -/
theorem wp_head (hcond : conditional who.2 = true) (hinv : Inv key w)
    (h : ∀ w' res, Inv key w' → (res = .error .noSuchKey → w'.files.objectAt key = none) → Q res w') :
    (rules key).wp who ((bucket md5 readOnly).head key).run Q w := by
  have hother : ∀ w' e, Inv key w' → (∃ n, e = io n) → Q (.error e) w' := by
    rintro w' e hinv' ⟨n, rfl⟩
    exact h w' _ hinv' fun heq => by cases n <;> cases heq
  have hobject : ∀ c, Stable (rules key) who fun w => w.files.objectAt key = some c :=
    fun c w w' hrely _ hc => (hrely.object hcond).trans hc
  have hdone : ∀ w' res, Inv key w' → res ≠ .error .noSuchKey → Q res w' :=
    fun w' res hinv' hne => h w' res hinv' fun heq => absurd heq hne
  unfold Bucket.head
  match hkey : parseKey key with
  | .error e =>
    have hnone : w.files.objectAt key = none := by simp only [objectAt, hkey]
    cases e <;> exact h w _ hinv fun _ => hnone
  | .ok ⟨dirs, some name⟩ =>
    have hname : Segment name := (parseKey_eq_ok hkey).1 name (by simp)
    refine wp_bindE ((fair key).findFrom (makes key who).toPlaces (P := fun _ => True)
      (fun _ _ _ _ => id) trivial hinv hinv.wf.dirAt_root ?_)
    rintro w1 (e | _ | d) - hinv1 hres
    · exact hother w1 e hinv1 hres
    · exact h w1 _ hinv1 fun _ => absent_of_missing hinv1.wf hkey hres
    · refine wp_bindE ((fair key).lookup ((makes key who).stable dirs d) hres ?_)
      intro w2 res hd hinv2 hlook _
      -- whatever the look-up found is the object
      have hfound : ∀ {c}, w2.files.objectAt key = some c →
          ∃ n : Node D (Who D), n.kind = .file ∧ w2.files.lookup d name = .ok (n.attr c) := by
        intro c hc
        obtain ⟨n, -, hk, hn⟩ := hinv2.wf.lookup_of_fileAt hname ((hinv2.wf.objectAt_file hkey).mp hc) hd
        exact ⟨n, hk, hn⟩
      rcases res with e | _ | a
      · exact hother w2 e hinv2 hlook
      · refine h w2 _ hinv2 fun _ => eq_none_iff_forall_ne_some.mpr fun c hc => ?_
        obtain ⟨n, -, hn⟩ := hfound hc
        rw [show w2.files.lookup d name = .error .noent from hlook] at hn
        cases hn
      · have ha : w2.files.lookup d name = .ok a := hlook.ok
        dsimp only
        split
        · rename_i hk
          obtain ⟨-, nd, c, n, hnames, hn, rfl⟩ := lookup_eq_ok.mp ha
          obtain ⟨md, hmd, -, hpath⟩ := hd
          obtain rfl := hmd.unique hnames.has
          have hc : w2.files.objectAt key = some c :=
            (hinv2.wf.objectAt_file hkey).mpr ⟨d, md, n, hnames, hpath, hn, hk⟩
          refine wp_object (hobject c) (fun w' hw' hinv' => ?_) hc hdone
          obtain ⟨-, -, n', -, -, hn', -⟩ := (hinv'.wf.objectAt_file hkey).mp hw'
          exact ⟨n', hn'⟩
        · rename_i hk
          refine h w2 _ hinv2 fun _ => eq_none_iff_forall_ne_some.mpr fun c hc => ?_
          obtain ⟨n, hkn, hn⟩ := hfound hc
          exact hk (Except.ok.inj (ha.symm.trans hn) ▸ hkn)
  | .ok ⟨dirs, none⟩ =>
    refine wp_bindE ((fair key).findFrom (makes key who).toPlaces (P := fun _ => True)
      (fun _ _ _ _ => id) trivial hinv hinv.wf.dirAt_root ?_)
    rintro w1 (e | _ | d) - hinv1 hres
    · exact hother w1 e hinv1 hres
    · exact h w1 _ hinv1 fun _ => absent_of_missing hinv1.wf hkey hres
    · refine wp_bindE (wp_bindE ((fair key).recorded ((makes key who).stable dirs d) hres
        ?_ ?_ fun w' n _ hinv' => hother w' _ hinv' ⟨n, rfl⟩))
      · intro w2 m hd hinv2 hsaw
        obtain ⟨nd, hnd, hdk, hpath⟩ := hd
        have hm : nd.recorded = m := by
          have hperform : (w2.files.inode d).map Node.recorded = .ok m := hsaw.ok
          rw [inode_eq_ok.mpr hnd] at hperform
          exact Except.ok.inj hperform
        cases m with
        | none =>
          refine h w2 _ hinv2 fun _ => eq_none_iff_forall_ne_some.mpr fun c hc => ?_
          obtain ⟨n, hn, hk, hpath', hrec⟩ := (hinv2.wf.objectAt_mark hkey).mp hc
          obtain rfl := hinv2.wf.dirAt_unique ⟨n, hn, hk, hpath'⟩ ⟨nd, hnd, hdk, hpath⟩
          rw [hn.unique hnd, hm] at hrec
          cases hrec
        | some m =>
          have hc : w2.files.objectAt key = some d :=
            (hinv2.wf.objectAt_mark hkey).mpr ⟨nd, hnd, hdk, hpath, by rw [hm]; rfl⟩
          refine wp_bindE ((fair key).call rfl (hobject d) hc (fun w3 a hw3 hinv3 hsaw => ?_)
            fun w' n _ hinv' => hother w' _ hinv' ⟨n, rfl⟩)
          obtain ⟨n, -, rfl⟩ := getattr_eq_ok.mp hsaw.ok
          refine wp_object (hobject d) (fun w' hw' hinv' => ?_) hw3 hdone
          obtain ⟨n', hn', -⟩ := (hinv'.wf.objectAt_mark hkey).mp hw'
          exact ⟨n', hn'⟩
      · rintro w2 ⟨nd, hnd, -⟩ - hgone
        exact absurd hnd (hgone nd)

/-- As long as nobody else places it, the key of a conditional put has no object. -/
def Absent (key : Text) (who : Who D) (w : World D (Who D)) : Prop :=
  conditional who.2 = true → w.files.objectAt key = none

theorem absent_stable (key : Text) (who : Who D) : Stable (rules key) who (Absent key who) :=
  fun _ _ hrely _ habsent hcond => (hrely.object hcond).trans (habsent hcond)

/-- A put that places its object, and finds none if it is conditional. -/
theorem placed_answer (hinv : Inv key w) (habsent : Absent key who w)
    (hwf : (answer who x r w).2.files.WF) (hplaces : placing key r = true)
    (hdirs : ∀ {path d}, w.files.DirAt path d → (answer who x r w).2.files.DirAt path d)
    (htemps : ∀ {i d c}, i ≠ who.1 → TempAt w.files i d c → TempAt (answer who x r w).2.files i d c)
    (hobject : ((answer who x r w).2.files.objectAt key).isSome = true) :
    Inv key (answer who x r w).2 ∧ Guar key who r w (answer who x r w).2 := by
  refine ⟨hinv.answer hwf (fun _ => hobject) fun hcond _ _ => ⟨habsent hcond, hobject⟩, hdirs, htemps,
    fun he => List.mem_append_left _ he, fun hno => ?_, fun hcond c hc => ?_⟩
  · rw [hplaces] at hno
    cases hno
  · rw [habsent hcond] at hc
    cases hc

theorem placedBy_answer (hplaces : placing key r = true) {v : r.Value}
    (hok : (answer who x r w).1 = .ok v) (hcond : conditional who.2 = true) :
    PlacedBy key (answer who x r w).2.log who := by
  refine ⟨hcond, _, List.mem_append_right _ (List.mem_singleton_self _), rfl, hplaces, ?_⟩
  show Asked.succeeded ⟨who, r, (answer who x r w).1, w.files⟩ = true
  rw [hok]
  rfl

variable {dirs : List Text}

theorem getLast?_of_marker (hkey : parseKey key = .ok ⟨dirs, none⟩) : key.getLast? = some '/' := by
  rw [(parseKey_eq_ok hkey).2]
  simp

theorem TempAt.set {e : Nat} (hn : f.Has e n) (hkind : n'.kind = n.kind)
    (hent : n'.entries = n.entries) (h : TempAt f i d c) : TempAt (f.set e n') i d c := by
  obtain ⟨hl, m, hm, hk⟩ := h
  obtain ⟨m', hm', hk'⟩ := node_set (X := fun n n' => n'.kind = n.kind) (fun _ => rfl) hn hkind hm
  exact ⟨(linked_set hn hent).mpr hl, m', hm', hk'.trans hk⟩

theorem mark_answer {m : ObjectMeta D} {v : Unit} (hkey : parseKey key = .ok ⟨dirs, none⟩)
    (hinv : Inv key w) (habsent : Absent key who w) (hd : At dirs d w) (hfault : x.fault = none)
    (hok : (w.files.perform who x.nowNs (.setRecorded d m)).1 = .ok v) :
    Inv key (answer who x (.setRecorded d m) w).2 ∧
      Guar key who (.setRecorded d m) w (answer who x (.setRecorded d m) w).2 ∧
      (conditional who.2 = true → PlacedBy key (answer who x (.setRecorded d m) w).2.log who) := by
  have hplaces : placing key (.setRecorded d m) = true := by simp [placing, getLast?_of_marker hkey]
  obtain ⟨n, hn, hset⟩ := setRecorded_eq_ok (answer_ok hfault hok rfl)
  obtain ⟨nd, hnd, hdk, hpath⟩ := hd
  obtain rfl := hn.unique hnd
  have hwf : (w.files.set d { n with recorded := some m, ctimeNs := x.nowNs }).WF := hinv.wf.set hn rfl rfl hn.2 rfl
  have hobject : (w.files.set d { n with recorded := some m, ctimeNs := x.nowNs }).objectAt key = some d :=
    (hwf.objectAt_mark hkey).mpr ⟨_, ⟨set_nodes_self .., hn.2⟩, hdk, hpath, rfl⟩
  obtain ⟨hinv', hguar⟩ := placed_answer (x := x) hinv habsent (hset ▸ hwf) hplaces (fun hd => by
      rw [hset]
      exact dirAt_set hn rfl rfl rfl hd)
    (fun _ ht => by
      rw [hset]
      exact ht.set hn rfl rfl)
    (by rw [hset, hobject]; rfl)
  refine ⟨hinv', hguar, placedBy_answer hplaces (v := v) ?_⟩
  rw [answer_eq_perform hfault]
  exact hok

variable {headers : Headers}

theorem wp_preparePut {Q : Except StoreError (Option (Nat × Text)) → World D (Who D) → Prop}
    (hinv : Inv key w) (hw : Absent key who w)
    (hok : ∀ w' dirs name d, Inv key w' → Absent key who w' → parseKey key = .ok ⟨dirs, some name⟩ →
      At dirs d w' → Q (.ok (some (d, name))) w')
    (hmark : ∀ w', Inv key w' → (conditional who.2 = true → PlacedBy key w'.log who) →
      Q (.ok none) w') (herr : ∀ w' e, Inv key w' → Q (.error e) w') :
    (rules key).wp who ((bucket md5 readOnly).preparePut key headers).run Q w := by
  refine Fair.wp_writable ?_ (herr w _ hinv)
  match hkey : parseKey key with
  | .error e => exact herr w e hinv
  | .ok ⟨dirs, some name⟩ =>
    refine wp_bindE ((fair key).makeFrom (makes key who) (absent_stable key who) hw hinv
      hinv.wf.dirAt_root (fun w1 d hw1 hinv1 hd => ?_) fun w' e _ hinv' => herr w' e hinv')
    refine wp_bindE ((fair key).lookup ((absent_stable key who).and ((makes key who).stable dirs d)) ⟨hw1, hd⟩ ?_)
    rintro w2 res ⟨hw2, hd2⟩ hinv2 - -
    match res with
    | .error e => exact herr w2 e hinv2
    | .ok none => exact hok w2 dirs name d hinv2 hw2 hkey hd2
    | .ok (some a) =>
      dsimp only
      split
      · exact herr w2 _ hinv2
      · exact hok w2 dirs name d hinv2 hw2 hkey hd2
  | .ok ⟨dirs, none⟩ =>
    refine wp_bindE ((fair key).makeFrom (makes key who) (absent_stable key who) hw hinv
      hinv.wf.dirAt_root (fun w1 d hw1 hinv1 hd => ?_) fun w' e _ hinv' => herr w' e hinv')
    have hstable := (absent_stable key who).and ((makes key who).stable dirs d)
    refine wp_bindE ((fair key).call rfl hstable ⟨hw1, hd⟩ (fun w2 a hw2 _ _ => ?_) fun w' n _ hinv' => herr w' _ hinv')
    refine wp_bindE ((fair key).change hstable hw2 ?_ fun w' e _ hinv' => herr w' _ hinv')
    rintro x w3 v ⟨hw3, hd3⟩ hinv3 - hfault hok
    obtain ⟨hinv4, hguar, hplaced⟩ := mark_answer hkey hinv3 hw3 hd3 hfault hok
    exact ⟨hinv4, hguar, hmark _ hinv4 hplaced⟩

/-- The put has its hidden file, next to where the object goes. -/
def Mine (key : Text) (who : Who D) (dirs : List Text) (d c : Nat) (w : World D (Who D)) : Prop :=
  (Absent key who w ∧ At dirs d w) ∧ TempAt w.files who.1 d c

theorem mine_stable (key : Text) (who : Who D) (dirs : List Text) (d c : Nat) :
    Stable (rules key) who (Mine key who dirs d c) :=
  ((absent_stable key who).and ((makes key who).stable dirs d)).and fun _ _ hrely _ ht => hrely.tempAt ht

/-- What goes on in hiding leaves the place of the object as it is. -/
theorem quiet_place (hinv : Inv key w) (hq : Quiet who.1 w.files (answer who x r w).2.files)
    (hw : Absent key who w ∧ At dirs d w) :
    Absent key who (answer who x r w).2 ∧ At dirs d (answer who x r w).2 :=
  ⟨fun hcond => (hq.objectAt hinv.wf key).trans (hw.1 hcond), hq.dirAt hw.2⟩

theorem placing_setRecorded (hkey : parseKey key = .ok ⟨dirs, some name⟩) (m : ObjectMeta D) :
    placing key (.setRecorded c m) = false := by
  unfold parseKey at hkey
  by_cases hmarker : key.getLast? = some '/'
  · simp only [hmarker, if_true, badKey] at hkey
    split_ifs at hkey
    split at hkey
    · cases hkey
    · injection hkey with hkey
      injection hkey with _ hname
      cases hname
  · simp [placing, hmarker]

theorem wp_writer {Q : Except StoreError Writer → World D (Who D) → Prop} (hinv : Inv key w)
    (hw : Absent key who w ∧ At dirs d w)
    (h : ∀ w' c, Inv key w' → Mine key who dirs d c w' → Q (.ok ⟨d, c, tempName who.1, []⟩) w')
    (herr : ∀ w' e, Inv key w' → Q (.error e) w') :
    (rules key).wp who ((bucket md5 readOnly).writer who.1 d).run Q w := by
  refine Fair.wp_writable ?_ (herr w _ hinv)
  refine wp_bindE ((fair key).change ((absent_stable key who).and ((makes key who).stable dirs d))
    hw ?_ fun w' e _ hinv' => herr w' _ hinv')
  rintro x w1 a hw1 hinv1 - hfault hok
  obtain ⟨nd, hnd, hdk, hfree, rfl, hmade⟩ := answer_mknode hfault hok
  have hq : Quiet who.1 w1.files (answer who x (.mknode d (tempName who.1) .file) w1).2.files :=
    hmade ▸ Quiet.made hinv1.wf hnd hdk hfree (.inr rfl)
  obtain ⟨hinv2, hguar⟩ := quiet_answer key hinv1 hq (.inl rfl)
  refine ⟨hinv2, hguar, h _ _ hinv2 ⟨quiet_place hinv1 hq hw1, ?_⟩⟩
  rw [hmade]
  exact ⟨(hinv1.wf.linked_made hnd hfree).mpr (.inr ⟨rfl, rfl, rfl⟩), _, (made_nodes ..).trans (if_pos rfl), rfl⟩

theorem own_answer (hinv : Inv key w) (hw : Mine key who dirs d c w) (hr : placing key r = false)
    (hn : w.files.Has c n) (hfiles : (answer who x r w).2.files = w.files.set c n')
    (hkind : n'.kind = n.kind) (hpath : n'.path = n.path) (hlive : n'.live = true)
    (hent : n'.entries = n.entries) :
    Inv key (answer who x r w).2 ∧ Guar key who r w (answer who x r w).2 ∧
      Mine key who dirs d c (answer who x r w).2 := by
  obtain ⟨hplace, ht⟩ := hw
  have hfile : n.kind = .file := by
    obtain ⟨-, m, hm, hk⟩ := ht
    rwa [mem_unique hn.1 hm]
  have hq : Quiet who.1 w.files (answer who x r w).2.files := hfiles ▸ Quiet.set hinv.wf hn hfile hkind hpath hlive hent
  obtain ⟨hinv', hguar⟩ := quiet_answer key hinv hq (.inl hr)
  exact ⟨hinv', hguar, quiet_place hinv hq hplace, hfiles ▸ ht.set hn hkind hent⟩

variable {written : Bytes}

section

variable {Q : Except StoreError Writer → World D (Who D) → Prop} (hinv : Inv key w)
  (hw : Mine key who dirs d c w)
  (h : ∀ w' written, Inv key w' → Mine key who dirs d c w' → Q (.ok ⟨d, c, tempName who.1, written⟩) w')
  (herr : ∀ w' e, Inv key w' → Q (.error e) w')
include hinv hw h herr

theorem wp_write {data : Bytes} :
    (rules key).wp who ((bucket md5 readOnly).write ⟨d, c, tempName who.1, written⟩ data).run Q w := by
  unfold Bucket.write
  split
  · exact h w written hinv hw
  · refine wp_bindE ((fair key).change (mine_stable key who dirs d c) hw ?_ fun w' e _ hinv' => herr w' _ hinv')
    rintro x w1 v hw1 hinv1 - hfault hok
    obtain ⟨n, hn, -, hset⟩ := change_eq_ok (answer_ok hfault hok rfl)
    obtain ⟨hinv2, hguar, hw2⟩ := own_answer hinv1 hw1 rfl hn hset rfl rfl hn.2 rfl
    exact ⟨hinv2, hguar, h _ _ hinv2 hw2⟩

omit hinv hw h herr in
/-- The hidden file goes, if it can. -/
theorem wp_unlink {α : Type} {Q : α → World D (Who D) → Prop}
    {next : Reply (D := D) (.unlink d (tempName who.1)) → Client (Reply (D := D)) α}
    (h : ∀ w' reply, Inv key w' → (rules key).wp who (next reply) Q w') :
    (rules key).wp who (.ask (.unlink d (tempName who.1)) next) Q w := by
  refine (fair key).change (P := fun _ => True) (fun _ _ _ _ => id) trivial ?_ fun w' e _ hinv' => h w' _ hinv'
  rintro x w1 v - hinv1 - hfault hok
  obtain ⟨nd, c, n, hnames, hn, hk, hfiles⟩ := unlink_eq_ok (answer_ok hfault hok rfl)
  obtain ⟨hinv2, hguar⟩ := quiet_answer key (r := .unlink d (tempName who.1)) (x := x) hinv1
    (hfiles ▸ Quiet.dropped hinv1.wf hnames hn hk) (.inl rfl)
  exact ⟨hinv2, hguar, h _ _ hinv2⟩

omit hinv hw h herr in
theorem wp_discard {wr : Writer} (hwr : wr.tmp = tempName who.1)
    {Q : Unit → World D (Who D) → Prop} (h : ∀ w', Inv key w' → Q () w') :
    (rules key).wp who ((bucket md5 readOnly).discard wr) Q w := by
  refine (fair key).read rfl (P := fun _ => True) (fun _ _ _ _ => id) trivial ?_
  intro w' _ _ _ _ _
  obtain ⟨d, c, tmp, written⟩ := wr
  obtain rfl : tmp = tempName who.1 := hwr
  exact wp_unlink fun w'' _ hinv => h w'' hinv

omit hinv hw h herr in
theorem wp_orDiscard {wr : Writer} (hwr : wr.tmp = tempName who.1) {y : Store (Reply (D := D)) Writer}
    {Q : Except StoreError Writer → World D (Who D) → Prop}
    (h : (rules key).wp who y.run (fun
      | .ok wr' => Q (.ok wr')
      | .error _ => fun _ => True) w) (herr : ∀ w' e, Inv key w' → Q (.error e) w') :
    (rules key).wp who ((bucket md5 readOnly).orDiscard wr y).run Q w := by
  refine wp_bind (wp_mono (fun res w' hres => ?_) h)
  match res with
  | .ok wr' => exact hres
  | .error e => exact wp_bind (wp_discard hwr fun w'' hinv => herr w'' e hinv)

theorem wp_writeChunks {chunks : List Bytes} : (rules key).wp who
      ((bucket md5 readOnly).writeChunks ⟨d, c, tempName who.1, written⟩ chunks).run Q w := by
  induction chunks generalizing written w with
  | nil => exact h w written hinv hw
  | cons data chunks ih =>
    refine wp_bindE (wp_orDiscard rfl (wp_write hinv hw ?_ fun _ _ _ => trivial) herr)
    intro w1 written1 hinv1 hw1
    exact ih hinv1 hw1

end

theorem TempAt.placed {e src j : Nat} (hwf : f.WF) (hd : f.Names e nd (tempName i) src)
    (hn : f.Has src n) (hfile : n.kind = .file) (hname : Segment name) (hj : j ≠ i)
    (h : TempAt f j d c) : TempAt (placed f nowNs e nd (tempName i) name src n) j d c := by
  obtain ⟨hl, m, hm, hk⟩ := h
  obtain ⟨m', hm', hk'⟩ := node_placed (X := fun n n' => n'.kind = n.kind) (fun _ => rfl) hd.has hn
    (fun _ => rfl) rfl hm
  refine ⟨(hwf.linked_placed hd hn (by rw [hfile]; nofun)).mpr (.inr ⟨hl, ?_, ?_⟩), m', hm', hk'.trans hk⟩
  · exact fun heq => hj (tempName_inj heq.2)
  · exact fun heq => hname.ne_tempName j heq.2.symm

theorem TempAt.dropped {e dst j : Nat} (hwf : f.WF) (hd : f.Names e nd name dst) (hn : f.Has dst n)
    (hfile : n.kind ≠ .dir) (hname : Segment name) (h : TempAt f j d c) :
    TempAt (dropped f nowNs e nd name dst n) j d c := by
  obtain ⟨hl, m, hm, hk⟩ := h
  obtain ⟨m', hm', hk'⟩ := node_dropped (X := fun n n' => n'.kind = n.kind) (fun _ => rfl) hd.has hn
    (fun _ => rfl) rfl hm
  refine ⟨(linked_dropped hd hn (hwf.leaf hn hfile)).mpr ⟨hl, ?_⟩, m', hm', hk'.trans hk⟩
  exact fun heq => hname.ne_tempName j heq.2.symm

/-- The hidden file becomes the object. -/
theorem rename_answer {v : Unit} (hkey : parseKey key = .ok ⟨dirs, some name⟩) (hinv : Inv key w)
    (hw : Mine key who dirs d c w) (hfault : x.fault = none)
    (hok : (w.files.perform who x.nowNs (.rename d (tempName who.1) name)).1 = .ok v) :
    Inv key (answer who x (.rename d (tempName who.1) name) w).2 ∧ Guar key who (.rename d (tempName who.1) name) w
        (answer who x (.rename d (tempName who.1) name) w).2 ∧
      (conditional who.2 = true → PlacedBy key (answer who x (.rename d (tempName who.1) name) w).2.log who) := by
  have hname : Segment name := (parseKey_eq_ok hkey).1 name (by simp)
  obtain ⟨⟨habsent, md, hmd, -, hpath⟩, hl, m, hm, hmk⟩ := hw
  obtain ⟨nd, src, n, hnames, hn, -, hcases⟩ := answer_rename hinv.wf (hname.ne_tempName who.1) hfault hok
  obtain rfl := hmd.unique hnames.has
  obtain rfl : src = c := by
    obtain ⟨nd, hnd, hx⟩ := hl
    obtain rfl : md = nd := mem_unique hmd.1 hnd
    exact mem_unique hnames.entry hx
  have hfile : n.kind = .file := by rwa [mem_unique hn.1 hm]
  have hfile' : n.kind ≠ .dir := by rw [hfile]; nofun
  have hplaced : (answer who x (.rename d (tempName who.1) name) w).1 = .ok v := by
    rw [answer_eq_perform hfault]
    exact hok
  -- in both cases the object is there afterwards
  have hdone : ∀ {g : Files D (Who D)} {e : Node D (Who D)}, g.WF → g.Names d e (tempName who.1) src →
      g.Has src n → e.path = dirs → e.entries.lookup name = none →
      (∀ {path b}, w.files.DirAt path b → g.DirAt path b) →
      (∀ {i a b}, TempAt w.files i a b → TempAt g i a b) →
      (answer who x (.rename d (tempName who.1) name) w).2.files = placed g x.nowNs d e (tempName who.1) name src n →
      Inv key (answer who x (.rename d (tempName who.1) name) w).2 ∧
        Guar key who (.rename d (tempName who.1) name) w (answer who x (.rename d (tempName who.1) name) w).2 := by
    intro g e hg hge hgn hpath hfree hdirs htemps hfiles
    have hwf : (placed g x.nowNs d e (tempName who.1) name src n).WF := hg.placed hge hgn hfile' hfree
    refine placed_answer hinv habsent (hfiles ▸ hwf) rfl (fun hd => ?_) (fun hi ht => ?_) ?_
    · rw [hfiles]
      exact dirAt_placed hge.has hgn (hdirs hd)
    · rw [hfiles]
      exact (htemps ht).placed hg hge hgn hfile hname hi
    · rw [hfiles, (hwf.objectAt_file hkey).mpr (hpath ▸ hg.fileAt_placed hge hgn hfile)]
      rfl
  rcases hcases with ⟨hfree, hfiles⟩ | ⟨dst, gone, hdst, hne, hgone, hgk, hfiles⟩
  · obtain ⟨hinv', hguar⟩ := hdone hinv.wf hnames hn hpath hfree id id hfiles
    exact ⟨hinv', hguar, placedBy_answer rfl hplaced⟩
  · obtain ⟨hg, hge, hgn, hfree⟩ := hinv.wf.before_placed x.nowNs hnames hn hdst hgone hgk hne (hname.ne_tempName who.1)
    obtain ⟨hinv', hguar⟩ := hdone hg hge hgn hpath hfree (fun hd => dirAt_dropped hdst hgone hgk hd)
      (fun ht => ht.dropped hinv.wf hdst hgone hgk hname) hfiles
    exact ⟨hinv', hguar, placedBy_answer rfl hplaced⟩

section

variable (hkey : parseKey key = .ok ⟨dirs, some name⟩) (hw : Mine key who dirs d c w)
  (h : ∀ w' o, Inv key w' → (conditional who.2 = true → PlacedBy key w'.log who) → Q (.ok o) w')
  (herr : ∀ w' e, Inv key w' → Q (.error e) w')
include hkey hw h herr

theorem wp_place [DecidableEq D] {expected : Option D} {etag : Option (ETag D)} :
    (rules key).wp who ((bucket md5 readOnly).place ⟨d, c, tempName who.1, written⟩ name expected etag
      headers).run Q w := by
  have hstable := mine_stable key who dirs d c
  refine wp_bindE ((fair key).call rfl hstable hw (fun w1 _ hw1 hinv1 _ => ?_) fun w' n _ hinv' => herr w' _ hinv')
  dsimp only
  split
  · exact herr w1 _ hinv1
  refine wp_bindE ((fair key).call rfl hstable hw1 (fun w2 a hw2 hinv2 _ => ?_) fun w' n _ hinv' => herr w' _ hinv')
  refine wp_bindE ((fair key).change hstable hw2 ?_ fun w' e _ hinv' => herr w' _ hinv')
  rintro x w3 v hw3 hinv3 - hfault hok
  obtain ⟨n, hn, hset⟩ := setRecorded_eq_ok (answer_ok hfault hok rfl)
  obtain ⟨hinv4, hguar, hw4⟩ := own_answer hinv3 hw3 (placing_setRecorded hkey _) hn hset rfl rfl hn.2 rfl
  refine ⟨hinv4, hguar, ?_⟩
  refine wp_bindE ((fair key).lookup hstable hw4 ?_)
  rintro w5 res hw5 hinv5 - -
  have hrename : ∀ o, (rules key).wp who
      ((bucket md5 readOnly).moveInto ⟨d, c, tempName who.1, written⟩ name o).run Q w5 := by
    intro o
    refine (fair key).change hstable hw5 ?_ fun w' e _ hinv' => by cases e <;> exact herr w' _ hinv'
    rintro x w6 v hw6 hinv6 - hfault hok
    obtain ⟨hinv7, hguar, hplaced⟩ := rename_answer hkey hinv6 hw6 hfault hok
    exact ⟨hinv7, hguar, h _ _ hinv7 hplaced⟩
  match res with
  | .error e => exact herr w5 e hinv5
  | .ok none => exact hrename _
  | .ok (some t) =>
    dsimp only
    split
    · exact herr w5 _ hinv5
    · exact hrename _

theorem wp_commit [DecidableEq D] {expected : Option D} {etag : Option (ETag D)} :
    (rules key).wp who ((bucket md5 readOnly).commit ⟨d, c, tempName who.1, written⟩ name expected etag
      headers).run Q w := by
  refine wp_bind (wp_place hkey hw (fun w' o hinv' hplaced => ?_) fun w' e _ => ?_)
  · exact h w' o hinv' hplaced
  · exact wp_unlink fun w'' _ hinv'' => herr w'' e hinv''

end

/-- A put that succeeds, if conditional, has placed its object. -/
def Ends (key : Text) (who : Who D) (out : Out D) (w : World D (Who D)) : Prop :=
  (∃ a, out = .ok a) → conditional who.2 = true → PlacedBy key w.log who

theorem Ends.error (key : Text) (who : Who D) (e : Failure) (w : World D (Who D)) : Ends key who (.error e) w :=
  fun ⟨_, ha⟩ => nomatch ha

theorem wp_putBody [DecidableEq D] {body : Body D} (hinv : Inv key w) (hw : Absent key who w) :
    (rules key).wp who ((bucket md5 readOnly).putBody who.1 key headers body) (Ends key who) w := by
  unfold Bucket.putBody
  split
  · exact Ends.error _ _ _ _
  refine wp_bind (wp_preparePut hinv hw ?_ (fun w' _ hplaced _ => hplaced) fun w' e _ =>
    Ends.error _ _ _ _)
  intro w1 dirs name d hinv1 hw1 hkey hd
  refine wp_bind (wp_writer hinv1 ⟨hw1, hd⟩ ?_ fun w' e _ => Ends.error _ _ _ _)
  intro w2 c hinv2 hw2
  refine wp_bind (wp_writeChunks hinv2 hw2 ?_ fun w' e _ => Ends.error _ _ _ _)
  intro w3 written hinv3 hw3
  dsimp only
  split
  · refine wp_bind (wp_bindE (wp_commit hkey hw3 (fun w' o _ hplaced => ?_) fun w' e _ => ?_))
    · exact fun _ => hplaced
    · exact Ends.error _ _ _ _
  · exact wp_bind (wp_discard rfl fun w' _ => Ends.error _ _ _ _)

theorem wp_putObject [DecidableEq D] {ifNoneMatch : Bool} {body : Body D} (hinv : Inv key w)
    (hcond : conditional who.2 = ifNoneMatch) :
    (rules key).wp who ((bucket md5 readOnly).putObject who.1 key ifNoneMatch headers body) (Ends key who) w := by
  unfold Bucket.putObject
  split
  · rename_i hif
    refine wp_bind (wp_head (hcond.trans hif) hinv fun w' res hinv' hnone => ?_)
    match res with
    | .ok o => exact Ends.error _ _ _ _
    | .error .noSuchKey => exact wp_putBody hinv' fun _ => hnone rfl
    | .error .noSuchUpload | .error (.invalidKey _) | .error (.conflict _) | .error .readOnly
    | .error .quota | .error (.invalidPart _) | .error (.tooSmall _) | .error .badDigest
    | .error (.invalid _) | .error (.io _) => exact Ends.error _ _ _ _
  · rename_i hif
    refine wp_putBody hinv fun hyes => ?_
    rw [hcond] at hyes
    exact absurd hyes hif

end

/-! ### Puts of one key together -/

variable [DecidableEq D] {md5 : Md5 D} {readOnly : Bool} {files : Files D (Who D)}
  {turns : List (Turn (Call D) Env)}

/-- The only calls that start are puts of `key`. -/
def startsPut (key : Text) : Turn (Call D) Env → Bool
  | .start (.put key' _ _ _) => key' = key
  | .start _ => false
  | .step .. => true

/-- The request that call `i` makes next. -/
def asksNext (p : Gateway D) (i : Nat) : Option (Request D) := p.threads[i]?.bind (·.rest.asks)

/-- Nobody makes an object of `key` appear while another conditional put is under way. -/
def Apart (key : Text) (p : Gateway D) : Turn (Call D) Env → Prop
  | .start _ => True
  | .step i _ => (asksNext p i).any (placing key) = true → ∀ j < p.threads.length, j ≠ i →
      (asksNext p j).isSome = true → (p.threads[j]?.map (conditional ·.call)) ≠ some true

instance (key : Text) (p : Gateway D) : (e : Turn (Call D) Env) → Decidable (Apart key p e)
  | .start _ => isTrue trivial
  | .step _ _ => inferInstanceAs (Decidable (_ → _))

omit [DecidableEq D] in
theorem asksNext_eq {p : Gateway D} {i : Nat} {c : Call D} {r : Request D}
    {next : Reply r → Client (Reply (D := D)) (Out D)} (h : p.threads[i]? = some ⟨c, .ask r next⟩) :
    asksNext p i = some r := by
  rw [asksNext, h]
  rfl

/-- What a turn of a run of puts of `key` may be. -/
def PutsApart (key : Text) (p : Gateway D) (e : Turn (Call D) Env) : Prop :=
  startsPut key e = true ∧ Apart key p e

theorem fits (md5 : Md5 D) (readOnly : Bool) (key : Text) :
    Fits (rules key) (bucket md5 readOnly).program (Ends key) (PutsApart key) where
  trans := Rely.trans
  start p c hinv _ hP := by
    match c, hP.1 with
    | .put key' ifNoneMatch headers body, hkey =>
      obtain rfl : key' = key := of_decide_eq_true hkey
      exact wp_putObject hinv rfl
  may _ _ _ _ _ _ _ _ := trivial
  others p i c r next x j c' r' next' _ hP hi hj hij hguar := by
    refine ⟨hguar.dirAt, fun ht => hguar.tempAt (fun heq => hij heq.symm) ht, hguar.log, fun hcond => hguar.object ?_⟩
    by_contra hplaces
    have hlt : j < p.threads.length := lt_of_getElem? hj
    refine hP.2 ?_ j hlt (fun heq => hij heq.symm) ?_ ?_
    · rw [asksNext_eq hi]
      simpa using hplaces
    · rw [asksNext_eq hj]
      rfl
    · rw [hj]
      exact congrArg some hcond
  idle _ _ _ _ _ _ _ _ _ _ _ := trivial

omit [DecidableEq D] in
theorem inv_start (key : Text) (hwf : files.WF) : Inv key ⟨files, []⟩ where
  wf := hwf
  present := fun ⟨_, _, he, _⟩ => nomatch he
  single := fun ⟨_, _, he, _⟩ => nomatch he

section

variable (hwf : files.WF) (h : Meets (step md5 readOnly) (S3.start files) (PutsApart key) turns)
include hwf h

theorem good_run : Pool.Good (rules key) (Ends key) (run md5 readOnly files turns) :=
  good_of_meets (R := rules key) (inv_start key hwf) (fun _ => trivial) (fits md5 readOnly key) (Rely.refl key) h

theorem ended_run {i : Nat} {c : Call D} {out : Out D} (hi : (run md5 readOnly files turns).returned i c out) :
    Ends key (i, c) out (run md5 readOnly files turns).state := by
  refine ended_of_meets (R := rules key) (inv_start key hwf) (fun _ => trivial)
    (fits md5 readOnly key) (Rely.refl key) ?_ h i c out hi
  intro p i c r next x j c' out _ _ _ _ _ hguar hends hok hcond
  obtain ⟨-, e, he, hrest⟩ := hends hok hcond
  exact ⟨hcond, e, hguar.log he, hrest⟩

end

/-- PUTs of one key that keep apart: at most one conditional put succeeds, and no request of one
replaces an object. -/
theorem conditional_puts_exclusive (hwf : files.WF)
    (hputs : ∀ e ∈ turns, startsPut key e = true)
    (hapart : Meets (step md5 readOnly) (S3.start files) (Apart key) turns) :
    (∀ i j c c' a a', (run md5 readOnly files turns).returned i c (.ok a) →
      (run md5 readOnly files turns).returned j c' (.ok a') → conditional c = true →
      conditional c' = true → i = j) ∧
    ∀ before i x after, turns = before ++ .step i x :: after → ∀ c rest,
      (run md5 readOnly files before).threads[i]? = some ⟨c, rest⟩ → conditional c = true → ∀ ino,
      (run md5 readOnly files before).state.files.objectAt key = some ino →
      (run md5 readOnly files (before ++ [.step i x])).state.files.objectAt key = some ino := by
  have hmeets : Meets (step md5 readOnly) (S3.start files) (PutsApart key) turns :=
    fun before e after heq => ⟨hputs e (by rw [heq]; simp), hapart before e after heq⟩
  refine ⟨fun i j c c' a a' hi hj hc hc' => ?_, fun before i x after heq c rest hi hc ino hino => ?_⟩
  · have hgood := good_run hwf hmeets
    have hsame := hgood.inv.single (ended_run hwf hmeets hi ⟨a, rfl⟩ hc) (ended_run hwf hmeets hj ⟨a', rfl⟩ hc')
    exact congrArg Prod.fst hsame
  · have hbefore : Meets (step md5 readOnly) (S3.start files) (PutsApart key) before :=
      fun b e a hb => hmeets b e (a ++ .step i x :: after) (by rw [heq, hb]; simp)
    have hgood := good_run hwf hbefore
    rw [run, List.foldl_append]
    show ((run md5 readOnly files before).step answer (bucket md5 readOnly).program
      (.step i x)).state.files.objectAt key = some ino
    cases rest with
    | done out =>
      rw [Pool.step, hi]
      exact hino
    | ask r next =>
      obtain ⟨-, hguar, -⟩ := hgood.asked (fits md5 readOnly key) hi (Rely.refl ..) (hmeets before _ after heq)
      rw [step_ask hi]
      exact hguar.keeps hc hino

def conditionalPut (b : UInt8) : Call Bytes := .put ['a'] true {} ⟨[[b]], true, none⟩

theorem conditional_puts_one_by_one :
    let turns := .start (conditionalPut 0) :: inTurn 10 [0] ++ .start (conditionalPut 1) :: inTurn 10 [1]
    (run plainMd5 false (.empty 0) turns).returned 0 (conditionalPut 0) (.ok (.etag (.plain [0]))) ∧
      ∀ i j c c' a a', (run plainMd5 false (.empty 0) turns).returned i c (.ok a) →
        (run plainMd5 false (.empty 0) turns).returned j c' (.ok a') → conditional c = true →
        conditional c' = true → i = j := by
  intro turns
  exact ⟨rfl, (conditional_puts_exclusive (WF.empty 0) (show ∀ e ∈ turns, startsPut ['a'] e = true by decide)
    (meets_of_take (by decide))).1⟩

/-- Two conditional puts whose requests alternate both succeed. -/
theorem conditional_puts_both_succeed :
    let turns := [.start (conditionalPut 0), .start (conditionalPut 1)] ++ inTurn 10 [0, 1]
    (run plainMd5 false (.empty 0) turns).returned 0 (conditionalPut 0) (.ok (.etag (.plain [0]))) ∧
      (run plainMd5 false (.empty 0) turns).returned 1 (conditionalPut 1)
        (.ok (.etag (.plain [1]))) := ⟨rfl, rfl⟩

end AtlasNative.S3.Conditional
