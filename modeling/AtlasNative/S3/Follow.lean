import AtlasNative.S3.Calls
import AtlasNative.S3.Frame

/-!
# Following a call

What the gateway's look-ups tell about the files, whatever else is said about the calls that run
together. A fact that the others cannot take away stays true while a call reads.
-/

namespace AtlasNative.S3

open Program Files Rules

variable {D W : Type}

/-- Who asks: the number of the call, and the call. -/
abbrev Who (D : Type) := Nat × Call D

/-- A request that never changes the files. -/
def Request.reads : Request D → Bool
  | .lookup .. | .getattr _ | .readdir _ | .getRecorded _ | .getUpload _ | .getCreated _ | .read ..
  | .flush _ => true
  | _ => false

variable {r : Request D}

theorem Files.perform_of_reads (h : r.reads = true) (f : Files D W) (who : W) (nowNs : Int) :
    f.perform who nowNs r = ((f.perform who 0 r).1, f) := by
  cases r <;> first | rfl | cases h

theorem answer_eq_perform {x : Env} (h : x.fault = none) (who : W) (r : Request D) (w : World D W) :
    answer who x r w = ((w.files.perform who x.nowNs r).1, ⟨(w.files.perform who x.nowNs r).2,
      w.log ++ [⟨who, r, (w.files.perform who x.nowNs r).1, w.files⟩]⟩) := by
  simp only [answer, h]

theorem answer_files_of_reads (h : r.reads = true) (who : W) (x : Env) (w : World D W) :
    (answer who x r w).2.files = w.files := by
  unfold answer
  cases x.fault with
  | some e => rfl
  | none => exact congrArg Prod.snd (perform_of_reads h ..)

theorem changed_eq_ok {α : Type} {f : Files D W} {y : Except Errno (α × Files D W)} {v : α}
    (h : (changed f y).1 = .ok v) : y = .ok (v, (changed f y).2) := by
  cases y with
  | ok a => exact congrArg (fun b => Except.ok (b, a.2)) (Except.ok.inj h)
  | error e => cases h

/-- A request that fails changes nothing. -/
theorem answer_files_of_error {who : W} {x : Env} {w : World D W} {e : Errno}
    (h : (answer who x r w).1 = .error e) : (answer who x r w).2.files = w.files := by
  cases hx : x.fault with
  | some e => simp only [answer, hx]
  | none =>
    rw [answer_eq_perform hx] at h ⊢
    have hchanged : ∀ {α : Type} (y : Except Errno (α × Files D W)),
        (changed w.files y).1 = .error e → (changed w.files y).2 = w.files := by
      intro α y hy
      cases y with
      | ok a => cases hy
      | error e => rfl
    cases r <;> first | rfl | exact hchanged _ h

/-! ### What a request that succeeds leaves -/

section

variable {who : W} {x : Env} {w : World D W} {ino parent : Nat} {name newName : Text} {u : Unit}

theorem answer_ok {v : r.Value} {y : Except Errno (r.Value × Files D W)} (hx : x.fault = none)
    (h : (w.files.perform who x.nowNs r).1 = .ok v)
    (hr : w.files.perform who x.nowNs r = changed w.files y) :
    y = .ok (v, (answer who x r w).2.files) := by
  rw [hr] at h
  rw [answer_eq_perform hx, hr]
  exact changed_eq_ok h

theorem answer_mknode {kind : NodeType} {a : Attr} (hx : x.fault = none)
    (h : (w.files.perform who x.nowNs (.mknode parent name kind)).1 = .ok a) :
    ∃ d, w.files.Has parent d ∧ d.kind = .dir ∧ d.entries.lookup name = none ∧
      a = (fresh who x.nowNs d name kind).attr w.files.next ∧
      (answer who x (.mknode parent name kind) w).2.files = made w.files who x.nowNs parent d name kind :=
  mknode_eq_ok (answer_ok hx h rfl)

/-- A rename puts out the file that had the name, then takes it. -/
theorem answer_rename (hwf : w.files.WF) (hne : newName ≠ name) (hx : x.fault = none)
    (h : (w.files.perform who x.nowNs (.rename parent name newName)).1 = .ok u) :
    ∃ d src n, w.files.Names parent d name src ∧ w.files.Has src n ∧ n.kind ≠ .dir ∧
      (d.entries.lookup newName = none ∧ (answer who x (.rename parent name newName) w).2.files =
          placed w.files x.nowNs parent d name newName src n ∨
        ∃ dst gone, w.files.Names parent d newName dst ∧ dst ≠ src ∧ w.files.Has dst gone ∧
          gone.kind ≠ .dir ∧ (answer who x (.rename parent name newName) w).2.files =
            placed (dropped w.files x.nowNs parent d newName dst gone) x.nowNs parent
              (touch d x.nowNs (d.entries.erase newName)) name newName src n) := by
  obtain ⟨d, src, n, hd, hn, hk, hcases⟩ := rename_eq_ok (answer_ok hx h rfl)
  refine ⟨d, src, n, hd, hn, hk, ?_⟩
  rcases hcases with ⟨hfree, hfiles⟩ | ⟨hsame, -⟩ | ⟨dst, gone, hdst, hds, hgone, hgk, hfiles⟩
  · exact .inl ⟨hfree, hfiles⟩
  · exact absurd (hwf.single ⟨d, hd.has.1, hsame⟩ hd.linked).2 hne
  · have hnames : w.files.Names parent d newName dst := ⟨hd.has, hd.isDir, hdst⟩
    exact .inr ⟨dst, gone, hnames, hds, hgone, hgk, hfiles.trans (replaced_eq hds (hwf.not_self hnames))⟩

end

/-- The files answered a request just now. -/
structure Saw (who : W) (r : Request D) (reply : Reply r) (w : World D W) : Prop where
  reply_eq : reply = (w.files.perform who 0 r).1 ∨ ∃ e : Fault, reply = .error e.errno
  logged : ⟨who, r, reply, w.files⟩ ∈ w.log

theorem saw_answer (h : r.reads = true) (who : W) (x : Env) (w : World D W) :
    Saw who r (answer who x r w).1 (answer who x r w).2 := by
  have hfiles := answer_files_of_reads h who x w
  refine ⟨?_, ?_⟩
  · rw [hfiles]
    unfold answer
    cases x.fault with
    | some e => exact .inr ⟨e, rfl⟩
    | none => exact .inl (congrArg Prod.fst (perform_of_reads h ..))
  · rw [hfiles]
    exact List.mem_append_right _ (List.mem_singleton_self _)

namespace Saw

variable {who : W} {r : Request D} {w : World D W}

theorem ok {v : r.Value} (h : Saw who r (.ok v) w) : (w.files.perform who 0 r).1 = .ok v := by
  rcases h.reply_eq with heq | ⟨e, he⟩
  · exact heq.symm
  · cases he

theorem noent (h : Saw who r (.error .noent) w) : (w.files.perform who 0 r).1 = .error .noent := by
  rcases h.reply_eq with heq | ⟨e, he⟩
  · exact heq.symm
  · cases e <;> cases he

end Saw

/-! ### Rules that are about the files -/

variable {R : Rules (Reply (D := D)) (Who D) Env (World D (Who D))} {who : Who D}
  {w : World D (Who D)} {α : Type}

/-- A request that reads or fails breaks no rule. -/
structure Fair (R : Rules (Reply (D := D)) (Who D) Env (World D (Who D))) : Prop where
  answer_eq : R.answer = answer
  still : ∀ {who x r w}, R.inv w → (answer who x r w).2.files = w.files →
    (r.reads = true ∨ ∃ e, (answer who x r w).1 = .error e) →
    R.inv (answer who x r w).2 ∧ R.guar who r w (answer who x r w).2 ∧
      R.rely who w (answer who x r w).2

/-- What the others cannot take away from a call. -/
def Stable (R : Rules (Reply (D := D)) (Who D) Env (World D (Who D))) (who : Who D)
    (P : World D (Who D) → Prop) : Prop :=
  ∀ ⦃w w'⦄, R.rely who w w' → R.inv w' → P w → P w'

theorem Stable.and {P P' : World D (Who D) → Prop} (h : Stable R who P) (h' : Stable R who P') :
    Stable R who fun w => P w ∧ P' w :=
  fun _ _ hrely hinv hP => ⟨h hrely hinv hP.1, h' hrely hinv hP.2⟩

namespace Fair

variable {P : World D (Who D) → Prop} {Q : α → World D (Who D) → Prop}

variable {next : Reply r → Client (Reply (D := D)) α}

theorem ask (hR : Fair R) (h : ∀ x w', R.rely who w w' → R.inv w' → R.may who x r w' → R.inv (answer who x r w').2 ∧
      R.guar who r w' (answer who x r w').2 ∧
      R.wp who (next (answer who x r w').1) Q (answer who x r w').2) :
    R.wp who (.ask r next) Q w := by
  intro x w' hrely hinv hmay
  rw [hR.answer_eq]
  exact h x w' hrely hinv hmay

theorem read (hR : Fair R) (hr : r.reads = true) (hP : Stable R who P) (hw : P w)
    (h : ∀ w' reply, P w' → R.inv w' → Saw who r reply w' →
      (∃ x log, R.may who x r ⟨w'.files, log⟩ ∧ w'.log = log ++ [⟨who, r, reply, w'.files⟩]) →
      R.wp who (next reply) Q w') : R.wp who (.ask r next) Q w := by
  refine hR.ask fun x w' hrely hinv hmay => ?_
  have hfiles := answer_files_of_reads hr who x w'
  obtain ⟨hinv', hguar, hrely'⟩ := hR.still hinv hfiles (.inl hr)
  refine ⟨hinv', hguar, h _ _ (hP hrely' hinv' (hP hrely hinv hw)) hinv' (saw_answer hr who x w') ?_⟩
  refine ⟨x, w'.log, ?_, ?_⟩
  · rw [hfiles]
    exact hmay
  · rw [hfiles]
    rfl

/-- A request that changes something: it fails, or does what is said for it. -/
theorem change (hR : Fair R) (hP : Stable R who P) (hw : P w)
    (hok : ∀ x w' v, P w' → R.inv w' → R.may who x r w' → x.fault = none →
      (w'.files.perform who x.nowNs r).1 = .ok v → R.inv (answer who x r w').2 ∧
        R.guar who r w' (answer who x r w').2 ∧ R.wp who (next (.ok v)) Q (answer who x r w').2)
    (herr : ∀ w' e, P w' → R.inv w' → R.wp who (next (.error e)) Q w') :
    R.wp who (.ask r next) Q w := by
  refine hR.ask fun x w' hrely hinv hmay => ?_
  have hw' := hP hrely hinv hw
  cases hreply : (answer who x r w').1 with
  | error e =>
    obtain ⟨hinv', hguar, hrely'⟩ := hR.still hinv (answer_files_of_error hreply) (.inr ⟨e, hreply⟩)
    exact ⟨hinv', hguar, herr _ e (hP hrely' hinv' hw') hinv'⟩
  | ok v =>
    have hfault : x.fault = none := by
      cases hx : x.fault with
      | none => rfl
      | some e => simp [answer, hx] at hreply
    refine hok x w' v hw' hinv hmay hfault ?_
    simpa [answer, hfault] using hreply

variable {md5 : Md5 D} {readOnly : Bool}

theorem wp_writable {k : Unit → Store (Reply (D := D)) α}
    {Q : Except StoreError α → World D (Who D) → Prop} (h : R.wp who (k ()).run Q w)
    (herr : Q (.error .readOnly) w) :
    R.wp who ((bucket md5 readOnly).writable >>= k).run Q w := by
  refine wp_bindE ?_
  unfold Bucket.writable
  split
  · exact herr
  · exact h

/-- What `lookup` tells about the files, now. -/
def LookedUp (who : Who D) (parent : Nat) (name : Text) (w : World D (Who D)) :
    Except StoreError (Option Attr) → Prop
  | .ok (some a) => Saw who (.lookup parent name) (.ok a) w
  | .ok none => w.files.lookup parent name = .error .noent
  | .error e => ∃ n, e = io n

theorem lookup (hR : Fair R) {parent : Nat} {name : Text}
    {Q : Except StoreError (Option Attr) → World D (Who D) → Prop} (hP : Stable R who P) (hw : P w)
    (h : ∀ w' res, P w' → R.inv w' → LookedUp who parent name w' res →
      (∃ x log reply, R.may who x (.lookup parent name) ⟨w'.files, log⟩ ∧
        w'.log = log ++ [⟨who, .lookup parent name, reply, w'.files⟩]) → Q res w') :
    R.wp who ((bucket md5 readOnly).lookup parent name).run Q w := by
  refine hR.read rfl hP hw fun w' reply hw' hinv hsaw ⟨x, log, hmay, hlog⟩ => ?_
  have hall := fun res hres => h w' res hw' hinv hres ⟨x, log, reply, hmay, hlog⟩
  match reply with
  | .ok a => exact hall (.ok (some a)) hsaw
  | .error .noent => exact hall (.ok none) hsaw.noent
  | .error .exist | .error .notdir | .error .isdir | .error .inval | .error .notempty | .error .nodata
  | .error .nametoolong | .error .rofs | .error .dquot | .error .io => exact hall (.error _) ⟨_, rfl⟩

theorem call (hR : Fair R) (hr : r.reads = true)
    {Q : Except StoreError r.Value → World D (Who D) → Prop} (hP : Stable R who P) (hw : P w)
    (h : ∀ w' v, P w' → R.inv w' → Saw who r (.ok v) w' → Q (.ok v) w')
    (herr : ∀ w' n, P w' → R.inv w' → Q (.error (io n)) w') :
    R.wp who ((bucket md5 readOnly).call r).run Q w := by
  refine hR.read hr hP hw fun w' reply hw' hinv hsaw _ => ?_
  match reply with
  | .ok v => exact h w' v hw' hinv hsaw
  | .error n => exact herr w' n hw' hinv

theorem recorded (hR : Fair R) {ino : Nat}
    {Q : Except StoreError (Option (ObjectMeta D)) → World D (Who D) → Prop} (hP : Stable R who P)
    (hw : P w)
    (h : ∀ w' m, P w' → R.inv w' → Saw who (.getRecorded ino) (.ok m) w' → Q (.ok m) w')
    (hgone : ∀ w', P w' → R.inv w' → (∀ n, ¬ w'.files.Has ino n) → Q (.error .noSuchKey) w')
    (herr : ∀ w' n, P w' → R.inv w' → Q (.error (io n)) w') :
    R.wp who ((bucket md5 readOnly).recorded ino).run Q w := by
  refine hR.read rfl hP hw fun w' reply hw' hinv hsaw _ => ?_
  match reply with
  | .ok m => exact h w' m hw' hinv hsaw
  | .error .noent =>
    refine hgone w' hw' hinv fun n hn => ?_
    have hnone : (w'.files.inode ino).map Node.recorded = .error .noent := hsaw.noent
    rw [inode_eq_ok.mpr hn] at hnone
    cases hnone
  | .error .exist | .error .notdir | .error .isdir | .error .inval | .error .notempty | .error .nodata
  | .error .nametoolong | .error .rofs | .error .dquot | .error .io => exact herr w' _ hw' hinv

/-! ### Paths -/

section

variable {A : List Text → Nat → World D (Who D) → Prop} {path dirs : List Text} {ino : Nat}

/-- `A path ino`: `ino` is the directory at `path`, as far as the others leave it there. -/
structure Places (R : Rules (Reply (D := D)) (Who D) Env (World D (Who D))) (who : Who D)
    (A : List Text → Nat → World D (Who D) → Prop) : Prop where
  stable : ∀ path ino, Stable R who (A path ino)
  step : ∀ {path ino x a w}, R.inv w → A path ino w → w.files.lookup ino x = .ok a → a.kind = .dir →
    A (path ++ [x]) a.ino w

/-- A segment of `path` is not there, or is no directory. -/
def Missing (A : List Text → Nat → World D (Who D) → Prop) (path : List Text)
    (w : World D (Who D)) : Prop :=
  ∃ front x back ino, path = front ++ x :: back ∧ A front ino w ∧
    ∀ a, w.files.lookup ino x = .ok a → a.kind ≠ .dir

/-- What `find_dir` tells about the files, now. -/
def Found (A : List Text → Nat → World D (Who D) → Prop) (path : List Text) (w : World D (Who D)) :
    Except StoreError (Option Nat) → Prop
  | .ok (some d) => A path d w
  | .ok none => Missing A path w
  | .error e => ∃ n, e = io n

theorem findFrom (hR : Fair R) (hA : Places R who A) (hP : Stable R who P)
    {Q : Except StoreError (Option Nat) → World D (Who D) → Prop} (hw : P w) (hinv : R.inv w)
    (hino : A path ino w)
    (h : ∀ w' res, P w' → R.inv w' → Found A (path ++ dirs) w' res → Q res w') :
    R.wp who ((bucket md5 readOnly).findFrom ino dirs).run Q w := by
  induction dirs generalizing path ino w with
  | nil => exact h w (.ok (some ino)) hw hinv (by rwa [List.append_nil])
  | cons x dirs ih =>
    rw [Bucket.findFrom]
    refine wp_bindE (hR.lookup (hP.and (hA.stable path ino)) ⟨hw, hino⟩ ?_)
    rintro w' res ⟨hw', hino'⟩ hinv' hres -
    have hnone : (∀ a, w'.files.lookup ino x = .ok a → a.kind ≠ .dir) → Q (.ok none) w' :=
      fun hx => h w' _ hw' hinv' ⟨path, x, dirs, ino, rfl, hino', hx⟩
    match res with
    | .error e => exact h w' (.error e) hw' hinv' hres
    | .ok none =>
      refine hnone fun a ha => ?_
      rw [show w'.files.lookup ino x = .error .noent from hres] at ha
      cases ha
    | .ok (some a) =>
      have ha : w'.files.lookup ino x = .ok a := hres.ok
      dsimp only
      split
      · rename_i hk
        refine ih hw' hinv' (hA.step hinv' hino' ha hk) fun w'' res' hw'' hinv'' hres' => ?_
        refine h w'' res' hw'' hinv'' ?_
        rwa [List.append_assoc] at hres'
      · refine hnone fun a' ha' => ?_
        rwa [← Except.ok.inj (ha.symm.trans ha')]

/-- A directory may be made where none is, and is then where it was made. -/
structure Makes (R : Rules (Reply (D := D)) (Who D) Env (World D (Who D))) (who : Who D)
    (A : List Text → Nat → World D (Who D) → Prop) : Prop extends Places R who A where
  mkdir : ∀ {path ino x e w}, R.inv w → A path ino w → R.may who e (.mknode ino x .dir) w →
    R.inv (answer who e (.mknode ino x .dir) w).2 ∧
      R.guar who (.mknode ino x .dir) w (answer who e (.mknode ino x .dir) w).2 ∧
      R.rely who w (answer who e (.mknode ino x .dir) w).2 ∧
      ∀ a, (answer who e (.mknode ino x .dir) w).1 = .ok a →
        A (path ++ [x]) a.ino (answer who e (.mknode ino x .dir) w).2

section

variable (hR : Fair R) (hA : Makes R who A) (hP : Stable R who P) (hw : P w)
include hR hA hP hw

theorem makeDir {x : Text} {Q : Except StoreError Attr → World D (Who D) → Prop} (hino : A path ino w)
    (h : ∀ w' a, P w' → R.inv w' → (a.kind = .dir → A (path ++ [x]) a.ino w') → Q (.ok a) w')
    (herr : ∀ w' n, P w' → R.inv w' → Q (.error (io n)) w') :
    R.wp who ((bucket md5 readOnly).makeDir ino x).run Q w := by
  have hstable := hP.and (hA.stable path ino)
  refine wp_bindE (hR.lookup hstable ⟨hw, hino⟩ ?_)
  rintro w1 res ⟨hw1, hino1⟩ hinv1 hres -
  match res with
  | .error e =>
    obtain ⟨n, rfl⟩ := hres
    exact herr w1 n hw1 hinv1
  | .ok (some a) => exact h w1 a hw1 hinv1 fun hk => hA.step hinv1 hino1 hres.ok hk
  | .ok none =>
    refine hR.ask fun e w' hrely hinv hmay => ?_
    obtain ⟨hw', hino'⟩ := hstable hrely hinv ⟨hw1, hino1⟩
    obtain ⟨hinv2, hguar, hrely2, hmade⟩ := hA.mkdir hinv hino' hmay
    obtain ⟨hw2, hino2⟩ := hstable hrely2 hinv2 ⟨hw', hino'⟩
    refine ⟨hinv2, hguar, ?_⟩
    revert hmade
    generalize (answer who e (.mknode ino x .dir) w').1 = reply
    intro hmade
    match reply with
    | .ok a => exact h _ a hw2 hinv2 fun _ => hmade a rfl
    | .error .exist =>
      refine wp_bindE (hR.lookup hstable ⟨hw2, hino2⟩ ?_)
      rintro w3 res ⟨hw3, hino3⟩ hinv3 hres -
      match res with
      | .error e =>
        obtain ⟨n, rfl⟩ := hres
        exact herr w3 n hw3 hinv3
      | .ok none => exact herr w3 .noent hw3 hinv3
      | .ok (some a) => exact h w3 a hw3 hinv3 fun hk => hA.step hinv3 hino3 hres.ok hk
    | .error .noent | .error .notdir | .error .isdir | .error .inval | .error .notempty | .error .nodata
    | .error .nametoolong | .error .rofs | .error .dquot | .error .io => exact herr _ _ hw2 hinv2

theorem makeFrom {above : List Text} {Q : Except StoreError Nat → World D (Who D) → Prop}
    (hinv : R.inv w) (hino : A path ino w)
    (h : ∀ w' d, P w' → R.inv w' → A (path ++ dirs) d w' → Q (.ok d) w')
    (herr : ∀ w' e, P w' → R.inv w' → Q (.error e) w') :
    R.wp who ((bucket md5 readOnly).makeFrom above ino dirs).run Q w := by
  induction dirs generalizing path above ino w with
  | nil => exact h w ino hw hinv (by rwa [List.append_nil])
  | cons x dirs ih =>
    rw [Bucket.makeFrom]
    refine wp_bindE (hR.makeDir hA hP hw hino ?_ fun w' n hw' hinv' => herr w' _ hw' hinv')
    intro w' a hw' hinv' hdir
    dsimp only
    split
    · rename_i hk
      refine ih hw' hinv' (hdir hk) fun w'' d hw'' hinv'' hd => h w'' d hw'' hinv'' ?_
      rwa [List.append_assoc] at hd
    · exact herr w' _ hw' hinv'

end

end

end Fair

end AtlasNative.S3
