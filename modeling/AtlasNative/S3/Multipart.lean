import AtlasNative.S3.Changing

/-!
# Completed uploads

A completion lists the parts, checks their ETags and then looks each part up by its name. If it finds
the files that it has listed, the object is made of the parts that it was asked for.
-/

namespace AtlasNative.S3

open Program Files Relation Option Pool

variable {D : Type} [DecidableEq D] {md5 : Md5 D} {mode : Mode} {readOnly : Bool} {nowNs : Int}
  {turns : List (Turn (Call D) Env)} {w w' : World D (Who D)}

/-! ### Who made what -/

/-- Whatever is there was made by one of the calls. -/
def Known (p : Gateway D) : Prop :=
  ∀ c n who, p.state.files.nodes c = some n → n.maker = some who →
    ∃ rest, p.threads[who.1]? = some ⟨who.2, rest⟩

omit [DecidableEq D] in
theorem Guar.maker {who : Who D} {r : Request D} (h : Guar md5 mode who r w w') (hinv : Inv md5 w.files)
    {c : Nat} {n' : Node D (Who D)} (hn' : w'.files.nodes c = some n') :
    (∃ n, w.files.nodes c = some n ∧ n'.maker = n.maker) ∨ n'.maker = some who := by
  obtain ⟨⟨nowNs, hdoes⟩, -⟩ := h
  -- along the changes that the request makes
  generalize w'.files = f' at hdoes hn'
  induction hdoes generalizing n' with
  | refl => exact .inl ⟨n', hn', rfl⟩
  | tail hsteps hstep ih =>
    rcases hstep.fresh hn' with ⟨m, hm⟩ | hnew
    · obtain ⟨m', hm', hlater⟩ := hstep.node (inv_of_does hsteps hinv).wf hm
      obtain rfl := mem_unique hn' hm'
      rw [hlater.maker]
      exact ih hm
    · exact .inr hnew.maker

theorem Known.step {p : Gateway D} {e : Turn (Call D) Env} (h : Known p)
    (hgood : Pool.Good (bucketRules md5 mode) (Post md5 mode) p) (hP : Allowed mode p e) :
    Known (step md5 readOnly p e) := by
  intro c n' who hn' hmaker
  cases e with
  | start call =>
    obtain ⟨rest, hwho⟩ := h c n' who hn' hmaker
    have hlt := lt_of_getElem? hwho
    exact ⟨rest, (List.getElem?_append_left hlt).trans hwho⟩
  | step i x =>
    rcases ask_or_idle answer (bucket md5 readOnly).program p i x with
      ⟨call, r, next, hi⟩ | hidle
    · obtain ⟨-, hguar, -⟩ := hgood.asked (fits md5 mode readOnly) hi (.refl ..) hP
      have hlt : i < p.threads.length := lt_of_getElem? hi
      rw [S3.step, step_ask hi] at hn' ⊢
      -- the call that asks is there before and after
      have hself : ∀ {t}, (p.threads.set i ⟨call, t⟩)[i]? = some ⟨call, t⟩ := List.getElem?_set_self hlt
      rcases hguar.maker hgood.inv hn' with ⟨n, hn, heq⟩ | hmine
      · obtain ⟨rest, hwho⟩ := h c n who hn (heq ▸ hmaker)
        by_cases hij : i = who.1
        · subst hij
          rw [hi] at hwho
          injection hwho with hwho
          injection hwho with hcall _
          rw [← hcall]
          exact ⟨_, hself⟩
        · exact ⟨rest, (List.getElem?_set_ne hij).trans hwho⟩
      · obtain rfl := mem_unique hmine hmaker
        exact ⟨_, hself⟩
    · rw [S3.step, hidle] at hn' ⊢
      exact h c n' who hn' hmaker

theorem known_run (h : Meets (step md5 readOnly) (start (.empty nowNs)) (Allowed mode) turns) :
    Known (run md5 readOnly (.empty nowNs) turns) := by
  refine (h.invariant (I := fun p => Pool.Good (bucketRules md5 mode) (Post md5 mode) p ∧ Known p)
    ⟨good_start md5 mode nowNs, ?_⟩ ?_).2
  · intro c n who hn hmaker
    rw [empty_node hn] at hmaker
    cases hmaker
  · rintro p e ⟨hgood, hknown⟩ hP
    exact ⟨hgood.step (fits md5 mode readOnly) (fun who w => .refl mode who.1 w) e hP, hknown.step hgood hP⟩

/-! ### What completions return -/

/-- Every completion that looks a part up finds the file that it has listed. -/
def FindsListed (p : Gateway D) : Turn (Call D) Env → Prop
  | .start _ => True
  | .step i _ => ∀ q ∈ p.asking i, SameParts (i, q.1) q.2 p.state

instance (p : Gateway D) : (e : Turn (Call D) Env) → Decidable (FindsListed p e)
  | .start _ => isTrue trivial
  | .step i _ => inferInstanceAs (Decidable (∀ _ ∈ p.asking i, _))

/-- The bytes that some call uploaded as a part, under the ETag that a completion gives for it. -/
def UploadedAs (md5 : Md5 D) (p : Gateway D) (id : Text) (part : Int × ETag D) (bytes : Bytes) : Prop :=
  part.2 = .plain (md5.ofBytes bytes) ∧ ∃ (j : Nat) (key : Text) (body : Body D), ∃ rest,
    p.threads[j]? = some ⟨.uploadPart id key part.1 body, rest⟩ ∧ body.chunks.flatten = bytes

/-- A completion has made its object of the parts. -/
def Completed (md5 : Md5 D) (mode : Mode) (who : Who D) (out : Out D) (w : World D (Who D)) : Prop :=
  ∀ id key parts o, who.2 = .completeUpload id key parts → out = .ok (.object o) →
    Assembled md5 mode id parts o w

theorem completed_run (hquiet : mode.quiet)
    (h : Meets (step md5 readOnly) (start (.empty nowNs)) (Allowed mode) turns) {i : Nat} {c : Call D}
    {out : Out D} (hi : (run md5 readOnly (.empty nowNs) turns).returned i c out) :
    Completed md5 mode (i, c) out (run md5 readOnly (.empty nowNs) turns).state := by
  have hpost : ∀ who out w, Post md5 mode who out w → Completed md5 mode who out w := by
    rintro ⟨i, c⟩ out w hpost id key parts o rfl rfl
    exact hpost hquiet
  have hinit : (bucketRules md5 mode).inv ⟨.empty nowNs, []⟩ := inv_empty md5 nowNs
  refine ended_of_meets hinit (fun _ => noFile_empty _ nowNs)
    ((fits md5 mode readOnly).weaken hpost) (fun who w => .refl mode who.1 w) ?_ h i c out hi
  intro p i c r next x j c' out hinv _ _ _ hij hguar hends id key parts o hwho hout
  exact lasting_assembled md5 hquiet id parts o (hguar.onward hinv hij).grows (hends id key parts o hwho hout)

/-- Uploads of parts, completions, removals of uploads and whatever else does not change files in place,
in any order: what a completion returns is made of the parts that it was given. -/
theorem completed_upload_of_listed_parts (hcalls : ∀ c, Turn.start c ∈ turns → c.inPlace = false)
    (hfinds : Meets (step md5 readOnly) (start (.empty nowNs)) FindsListed turns) {i : Nat} {id key : Text}
    {parts : List (Int × ETag D)} {o : Object D}
    (hi : (run md5 readOnly (.empty nowNs) turns).returned i (.completeUpload id key parts)
      (.ok (.object o))) :
    ∃ n pieces, (run md5 readOnly (.empty nowNs) turns).state.files.nodes o.ino = some n ∧
      List.Forall₂ (UploadedAs md5 (run md5 readOnly (.empty nowNs) turns) id) parts pieces ∧
      n.data = pieces.flatten := by
  let mode : Mode := { calm := True, quiet := True }
  have hmeets : Meets (step md5 readOnly) (start (.empty nowNs)) (Allowed mode) turns := by
    intro before e after heq
    cases e with
    | start c => exact fun _ => hcalls c (by rw [heq]; simp)
    | step i x => exact fun q hq => ⟨fun _ => hfinds before _ after heq q hq, nofun, nofun, nofun⟩
  obtain ⟨n, pieces, hn, -, -, hpieces, hdata⟩ :=
    completed_run (show mode.quiet from trivial) hmeets hi id key parts o rfl rfl
  refine ⟨n, pieces.map Prod.snd, hn, ?_, hdata⟩
  refine List.forall₂_map_right_iff.mpr (hpieces.imp ?_)
  rintro part piece ⟨l, m, hm, hpart, hetag, -, hbytes⟩
  obtain ⟨j, key', body, hmaker, hbody⟩ := hpart.made
  obtain ⟨rest, hj⟩ := known_run hmeets l m _ hm hmaker
  rw [hbytes trivial]
  exact ⟨hetag, j, key', body, rest, hj, hbody.symm⟩

/-- Part 1 of the first upload, for key `a`. -/
def uploadOne (b : UInt8) : Call Bytes := .uploadPart (uuid 0) ['a'] 1 ⟨[[b]], true, none⟩

/-- The completion of that upload, with the ETag of part `[0]`. -/
def completeOne : Call Bytes := .completeUpload (uuid 0) ['a'] [(1, .plain [0])]

theorem completed_upload_one_by_one :
    let turns := .start (.createUpload ['a'] {}) :: inTurn 4 [0] ++ .start (uploadOne 0) :: inTurn 10 [1] ++
      .start completeOne :: inTurn 23 [2]
    ∃ o, (run plainMd5 false (.empty 0) turns).returned 2 completeOne (.ok (.object o)) ∧
      ∃ n pieces, (run plainMd5 false (.empty 0) turns).state.files.nodes o.ino = some n ∧
        List.Forall₂ (UploadedAs plainMd5 (run plainMd5 false (.empty 0) turns) (uuid 0))
          [(1, .plain [0])] pieces ∧ n.data = pieces.flatten := by
  intro turns
  have hreturned : (run plainMd5 false (.empty 0) turns).returned 2 completeOne
      (.ok (.object ⟨5, 1, 0, .parts [0] 1, {}⟩)) := returned_of_result (by decide +kernel)
  have hcalls : ∀ c, Turn.start c ∈ turns → c.inPlace = false := by
    intro c hc
    simp [turns, inTurn] at hc
    rcases hc with rfl | rfl | rfl <;> rfl
  exact ⟨_, hreturned, completed_upload_of_listed_parts hcalls (meets_of_take (by decide +kernel)) hreturned⟩

/-- The part is uploaded again between the listing and the look-up. -/
theorem completed_upload_of_another_part :
    let turns := .start (.createUpload ['a'] {}) :: inTurn 4 [0] ++ .start (uploadOne 0) :: inTurn 10 [1] ++
      .start completeOne :: inTurn 9 [2] ++ .start (uploadOne 1) :: inTurn 10 [3] ++ inTurn 14 [2]
    ∃ o n, (run plainMd5 false (.empty 0) turns).returned 2 completeOne (.ok (.object o)) ∧
      (run plainMd5 false (.empty 0) turns).state.files.nodes o.ino = some n ∧
      ¬ ∃ pieces, List.Forall₂ (UploadedAs plainMd5 (run plainMd5 false (.empty 0) turns) (uuid 0))
          [(1, .plain [0])] pieces ∧ n.data = pieces.flatten := by
  intro turns
  let o : Object Bytes := ⟨6, 1, 0, .parts [0] 1, {}⟩
  have hreturned : (run plainMd5 false (.empty 0) turns).returned 2 completeOne (.ok (.object o)) :=
    returned_of_result (by decide +kernel)
  have hdata : ((run plainMd5 false (.empty 0) turns).state.files.nodes o.ino).map (·.data) = some [1] := by
    decide +kernel
  obtain ⟨n, hn, hn'⟩ := map_eq_some_iff.mp hdata
  refine ⟨o, n, hreturned, hn, ?_⟩
  rintro ⟨pieces, hpieces, hcontent⟩
  obtain ⟨piece, rest, ⟨hetag, -⟩, hrest, rfl⟩ := List.forall₂_cons_left_iff.mp hpieces
  cases hrest
  rw [hn'] at hcontent
  obtain rfl : [0] = piece := ETag.plain.inj hetag
  cases hcontent

end AtlasNative.S3
