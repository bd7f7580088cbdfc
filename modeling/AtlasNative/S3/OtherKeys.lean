import AtlasNative.S3.Changing

/-!
# Calls on other keys

What a call does to a bucket leaves the objects of other keys as they are, unless it removes a
directory that has just become a marker.
-/

namespace AtlasNative.S3

open Program Files Relation Option Pool

variable {D : Type} {md5 : Md5 D} {mode : Mode} {readOnly : Bool} {who : Who D}
  {nowNs : Int} {log : List (Asked D (Who D))} {f f' : Files D (Who D)} {key : Text} {data : Bytes}
  {headers : Headers}

/-! ### Which key a call is about -/

/-- The key whose object a call puts, deletes or changes. -/
def Call.object : Call D → Option Text
  | .put key _ _ _ | .copy _ key _ | .delete key | .setHeaders key _ | .completeUpload _ key _
  | .write key _ _ | .truncate key _ => some key
  | _ => none

variable {dest : List Text × Text}

theorem place_inj {key' : Text} (h : place key = some dest) (h' : place key' = some dest) : key' = key :=
  parseKey_inj (place_eq_some.mp h') (place_eq_some.mp h)

variable {dirs : List Text}

theorem markPlace_inj {key' : Text} (h : markPlace key = some dirs) (h' : markPlace key' = some dirs) : key' = key :=
  parseKey_inj (markPlace_eq_some.mp h') (markPlace_eq_some.mp h)

variable {call : Call D}

/-- Only the calls on a key put a file in its place, -/
theorem object_of_target (hkey : place key = some dest) (h : call.target = some dest) : call.object = some key := by
  cases call with
  | put | copy | completeUpload => exact congrArg some (place_inj hkey h)
  | uploadPart id _ number _ =>
    obtain rfl := some.inj h
    exact absurd (segment_of_place hkey (by simp)) not_segment_uploadsDir
  | delete | setHeaders | head | createUpload | abortUpload | write | truncate => cases h

/-- and change the file that is there, -/
theorem object_of_subject (hkey : place key = some dest) (h : call.subject = some dest) : call.object = some key := by
  cases call with
  | delete | setHeaders | write | truncate => exact congrArg some (place_inj hkey h)
  | put | copy | head | createUpload | uploadPart | completeUpload | abortUpload => cases h

/-- and mark its directory. -/
theorem object_of_marks (hkey : markPlace key = some dirs) (h : call.marks = some dirs) : call.object = some key := by
  cases call with
  | put | copy | delete | setHeaders | completeUpload => exact congrArg some (markPlace_inj hkey h)
  | head | createUpload | uploadPart | abortUpload | write | truncate => cases h

/-! ### What a change leaves -/

section

variable (h : Does md5 mode log who nowNs f f')
include h

theorem Does.unlinked (hwf : f.WF) {d c : Nat} {x : Text} (hl : f.Linked d x c) :
    f'.Linked d x c ∨ (∃ nd, f.nodes d = some nd ∧ Unlinks who nd.path x) ∨
      ∃ n, f.nodes c = some n ∧ n.kind = .dir := by
  have hdropped : ∀ {e ne y j m}, f.Names e ne y j → f.Has j m → (∀ x c, ¬ f.Linked j x c) →
      (dropped f nowNs e ne y j m).Linked d x c ∨ d = e ∧ x = y := by
    intro e ne y j m he hm hleaf
    by_cases hsame : d = e ∧ x = y
    · exact .inr hsame
    · exact .inl ((linked_dropped he hm hleaf).mpr ⟨hl, hsame⟩)
  have hset : ∀ {j m m'}, f.Has j m → m'.entries = m.entries → (f.set j m').Linked d x c :=
    fun hm hent => (linked_set hm hent).mpr hl
  cases h with
  | makeDir hd _ hx | makeTemp hd _ hx => exact .inl ((hwf.linked_made hd hx).mpr (.inl hl))
  | write data hn _ _ _ _ _ | record hn _ _ _ _ _ | mark m hn _ _ | setUpload u hn _ | restamp hn _ _ _ _
  | edit data hn _ _ _ _ => exact .inl (hset hn rfl)
  | @publish e ne y j m hd hm hk _ _ _ _ hfree =>
    by_cases htemp : d = e ∧ x = tempName who.1
    · exact .inr (.inl ⟨ne, htemp.1 ▸ hd.has.1, .inl htemp.2⟩)
    · refine .inl ((hwf.linked_placed hd hm (by rw [hk]; nofun)).mpr (.inr ⟨hl, htemp, ?_⟩))
      rintro ⟨rfl, rfl⟩
      obtain ⟨nd, hnd, hx⟩ := hl
      obtain rfl := mem_unique hnd hd.has.1
      rw [hfree] at hx
      cases hx
  | @unlink e ne y j m hd hm hk hx =>
    rcases hdropped hd hm (hwf.leaf hm (by rw [hk]; nofun)) with hkept | ⟨rfl, rfl⟩
    · exact .inl hkept
    · exact .inr (.inl ⟨ne, hd.has.1, hx⟩)
  | @rmdir e ne y j m hd hm hk hempty _ =>
    rcases hdropped hd hm (not_linked_of_empty hm hempty) with hkept | ⟨rfl, rfl⟩
    · exact .inl hkept
    · obtain ⟨nd, hnd, hx⟩ := hl
      obtain rfl := mem_unique hnd hd.has.1
      obtain rfl := mem_unique hx hd.entry
      exact .inr (.inr ⟨m, hm.1, hk⟩)

/-- A call on another key leaves the file of a key where it is, as it is. -/
theorem Does.fileAt (hinv : Inv md5 f) {name : Text} {c : Nat} {n : Node D (Who D)}
    (hkey : place key = some (dirs, name)) (hother : who.2.object ≠ some key)
    (hc : f.FileAt dirs name c) (hn : f.nodes c = some n) :
    f'.FileAt dirs name c ∧ ∃ n', f'.nodes c = some n' ∧ n'.kind = n.kind ∧ n.SameFile n' := by
  have hseg := fun x hx => segment_of_place (x := x) hkey hx
  obtain ⟨d, nd, m, hl, hnd, hpath, hm, hk⟩ := hinv.wf.fileAt_iff.mp hc
  obtain rfl := mem_unique hm hn
  obtain ⟨j, call, hmaker, hhidden, htarget⟩ := hinv.owned hl hnd hm hk
  -- it has been given its name
  have hmoved : m.moved = true := by
    cases hmv : m.moved with
    | true => rfl
    | false => exact absurd (hhidden hmv) ((hseg name (by simp)).ne_tempName j)
  obtain ⟨m', hm', hstep⟩ := h.node hinv.wf hm
  obtain ⟨nd', hnd', hdstep⟩ := h.node hinv.wf hnd
  have hsame : m.SameFile m' := by
    cases hstep.file hk with
    | same hsame _ | published hsame _ _ _ _ _ => exact hsame
    | written _ _ _ hnew _ | recorded _ _ _ _ _ _ hnew _ => rw [hmoved] at hnew; cases hnew
    | subject hsub _ _ _ =>
      obtain ⟨-, i, call', hmaker', hsub', -⟩ := hsub
      obtain ⟨rfl, rfl⟩ := Prod.mk.inj (mem_unique hmaker hmaker')
      rw [htarget hmoved, hpath] at hsub'
      exact absurd (object_of_subject hkey hsub') hother
  have hlinked : f'.Linked d name c := by
    rcases h.unlinked hinv.wf hl with hkept | ⟨md, hmd, hx⟩ | ⟨md, hmd, hdir⟩
    · exact hkept
    · obtain rfl := mem_unique hmd hnd
      rw [hpath] at hx
      rcases hx with hx | hx | hx | ⟨id, -, hx⟩
      · exact absurd hx ((hseg name (by simp)).ne_tempName who.1)
      · exact absurd (object_of_target hkey hx) hother
      · exact absurd (object_of_subject hkey hx) hother
      · exact absurd (hseg uploadsDir (by simp [hx])) not_segment_uploadsDir
    · obtain rfl := mem_unique hmd hm
      rw [hk] at hdir
      cases hdir
  exact ⟨(h.wf hinv.wf).fileAt_iff.mpr ⟨d, nd', m', hlinked, hnd', hdstep.path.trans hpath, hm', hstep.kind.trans hk⟩,
    m', hm', hstep.kind, hsame⟩

/-- A call on another key leaves a marker as it is. -/
theorem Does.markAt (hwf : f.WF) (hkept : mode.kept) {c : Nat} {n : Node D (Who D)}
    (hkey : markPlace key = some dirs) (hother : who.2.object ≠ some key) (hn : f.Has c n)
    (hk : n.kind = .dir) (hpath : n.path = dirs) (hrec : n.recorded.isSome = true) :
    ∃ n', f'.Has c n' ∧ n'.kind = .dir ∧ n'.path = dirs ∧ n'.recorded = n.recorded := by
  -- a directory stays, with its marker
  let X : Node D (Who D) → Node D (Who D) → Prop := fun n n' =>
    n.kind = .dir → n.path = dirs → n.recorded.isSome = true → n.live = true → n'.live = true ∧ n'.recorded = n.recorded
  have hrefl : ∀ n, X n n := fun n _ _ _ hlive => ⟨hlive, rfl⟩
  have htouch : ∀ {nd : Node D (Who D)} entries, X nd (touch nd nowNs entries) := fun _ _ _ _ hlive => ⟨hlive, rfl⟩
  have hfile : ∀ {n n' : Node D (Who D)}, n.kind = .file → X n n' := by
    intro n n' hf hdir
    rw [hf] at hdir
    cases hdir
  have hnode : ∃ n', f'.nodes c = some n' ∧ X n n' := by
    cases h with
    | makeDir hd _ _ | makeTemp hd _ _ => exact node_made hrefl hwf hd htouch hn.1
    | write data hm hf _ _ _ _ | record hm hf _ _ _ _ | restamp hm hf _ _ _ | edit data hm hf _ _ _ =>
      exact node_set hrefl hm (hfile hf) hn.1
    | publish hd hm hf _ _ _ _ _ => exact node_placed hrefl hd.has hm htouch (hfile hf) hn.1
    | mark m hd _ hmarks =>
      refine node_set hrefl hd (fun _ hp => ?_) hn.1
      rw [hp] at hmarks
      exact absurd (object_of_marks hkey hmarks) hother
    | setUpload u hd _ =>
      refine node_set hrefl hd ?_ hn.1
      exact fun _ _ _ hlive => ⟨hlive, rfl⟩
    | unlink hd hm hf _ => exact node_dropped hrefl hd.has hm htouch (hfile hf) hn.1
    | rmdir hd hm _ _ hmark =>
      refine node_dropped hrefl hd.has hm htouch (fun _ _ hsome => ?_) hn.1
      rw [hmark hkept] at hsome
      cases hsome
  obtain ⟨n', hn', hX⟩ := hnode
  obtain ⟨hlive, hsame⟩ := hX hk hpath hrec hn.2
  obtain ⟨n'', hn'', hstep⟩ := h.node hwf hn.1
  obtain rfl := mem_unique hn' hn''
  exact ⟨n', ⟨hn', hlive⟩, hstep.kind.trans hk, hstep.path.trans hpath, hsame⟩

/-- A call on another key leaves the object readable. -/
theorem Does.readable (hinv : Inv md5 f) (hkept : mode.kept) (hother : who.2.object ≠ some key)
    (hr : Readable key data headers f) : Readable key data headers f' := by
  obtain ⟨c, n, m, hc, hn, hdata, hrec, hheaders⟩ := hr
  have hwf' := h.wf hinv.wf
  match hkey : parseKey key with
  | .error e =>
    rw [objectAt, hkey] at hc
    cases hc
  | .ok ⟨dirs, some name⟩ =>
    have hfile := (hinv.wf.objectAt_file hkey).mp hc
    obtain ⟨hfile', n', hn', hkind, hsame⟩ := h.fileAt hinv (place_eq_some.mpr hkey) hother hfile hn
    refine ⟨c, n', m, (hwf'.objectAt_file hkey).mpr hfile', hn', ?_, hsame.2.2.trans hrec, hheaders⟩
    rw [Node.content, hkind, hsame.1]
    exact hdata
  | .ok ⟨dirs, none⟩ =>
    obtain ⟨n1, hn1, hk, hpath, hsome⟩ := (hinv.wf.objectAt_mark hkey).mp hc
    obtain rfl := mem_unique hn1.1 hn
    obtain ⟨n', hn', hk', hpath', hsame⟩ :=
      h.markAt hinv.wf hkept (markPlace_eq_some.mpr hkey) hother hn1 hk hpath hsome
    refine ⟨c, n', m, (hwf'.objectAt_mark hkey).mpr ⟨n', hn', hk', hpath', by rw [hsame]; exact hsome⟩, hn'.1,
      ?_, hsame.trans hrec, hheaders⟩
    rw [Node.content, if_pos hk'] 
    rwa [Node.content, if_pos hk] at hdata

end

theorem readable_of_does (h : ReflTransGen (Does md5 mode log who nowNs) f f') (hinv : Inv md5 f)
    (hkept : mode.kept) (hother : who.2.object ≠ some key) (hr : Readable key data headers f) :
    Readable key data headers f' := by
  induction h with
  | refl => exact hr
  | tail hsteps hstep ih => exact hstep.readable (inv_of_does hsteps hinv) hkept hother ih

/-! ### Calls on other keys that run together -/

/-- No directory is removed that is a marker at that moment. -/
def KeepsMarkers (p : Gateway D) : Turn (Call D) Env → Prop
  | .start _ => True
  | .step i _ => ∀ q ∈ p.asking i, KeepsMarks q.2 p.state

instance (p : Gateway D) : (e : Turn (Call D) Env) → Decidable (KeepsMarkers p e)
  | .start _ => isTrue trivial
  | .step i _ => inferInstanceAs (Decidable (∀ _ ∈ p.asking i, _))

/-- No call on the key is under way. -/
def Undisturbed (key : Text) (p : Gateway D) : Prop :=
  ∀ j < p.threads.length, ∀ q ∈ p.asking j, q.1.object ≠ some key

instance (key : Text) (p : Gateway D) : Decidable (Undisturbed key p) :=
  inferInstanceAs (Decidable (∀ j < p.threads.length, _))

variable [DecidableEq D]

/-- A turn that begins no call on the key leaves its object readable. -/
theorem readable_step {p : Gateway D} {e : Turn (Call D) Env} (hkept : mode.kept)
    (hgood : Pool.Good (bucketRules md5 mode) (Post md5 mode) p) (hP : Allowed mode p e)
    (hquiet : Undisturbed key p) (hstart : ∀ c, e = .start c → c.object ≠ some key)
    (hr : Readable key data headers p.state.files) :
    Undisturbed key (step md5 readOnly p e) ∧ Readable key data headers (step md5 readOnly p e).state.files := by
  have hold : ∀ {j q}, q ∈ p.asking j → q.1.object ≠ some key := by
    intro j q hq
    obtain ⟨next, hj⟩ := thread_of_asking hq
    exact hquiet j (lt_of_getElem? hj) q hq
  cases e with
  | start c =>
    refine ⟨fun j _ q hq => ?_, hr⟩
    obtain ⟨next, hj⟩ := thread_of_asking hq
    rcases getElem?_snoc_iff.mp hj with hj | ⟨-, heq⟩
    · exact hold (asking_eq hj)
    · injection heq with hc _
      exact hc ▸ hstart c rfl
  | step i x =>
    rcases ask_or_idle answer (bucket md5 readOnly).program p i x with ⟨c, r, next, hi⟩ | hidle
    · obtain ⟨-, ⟨⟨nowNs, hdoes⟩, -⟩, -⟩ := hgood.asked (fits md5 mode readOnly) hi (.refl ..) hP
      have hlt : i < p.threads.length := lt_of_getElem? hi
      have hother : c.object ≠ some key := hold (asking_eq hi)
      rw [step, step_ask hi]
      refine ⟨fun j _ q hq => ?_, readable_of_does hdoes hgood.inv hkept hother hr⟩
      obtain ⟨next', hj⟩ := thread_of_asking hq
      rcases (getElem?_set_iff hlt).mp hj with ⟨-, heq⟩ | ⟨-, hj⟩
      · injection heq with hc _
        exact hc ▸ hother
      · exact hold (asking_eq hj)
    · rw [step, hidle]
      exact ⟨hquiet, hr⟩

variable {before after : List (Turn (Call D) Env)} {e : Turn (Call D) Env}

/-- From the return of a put on, its object stays as it was put, as long as no call on the same key is
under way or begins. -/
theorem put_stays_readable {i : Nat} {ifNoneMatch : Bool} {body : Body D} {a : Answer D}
    (hmarkers : Meets (step md5 readOnly) (start (.empty nowNs)) KeepsMarkers (before ++ e :: after))
    (hbefore : ¬ (run md5 readOnly (.empty nowNs) before).returned i (.put key ifNoneMatch headers body) (.ok a))
    (hreturned : (run md5 readOnly (.empty nowNs) (before ++ [e])).returned i
      (.put key ifNoneMatch headers body) (.ok a))
    (hquiet : Undisturbed key (run md5 readOnly (.empty nowNs) (before ++ [e])))
    (hstarts : ∀ c, Turn.start c ∈ after → c.object ≠ some key) :
    Readable key body.chunks.flatten headers
      (run md5 readOnly (.empty nowNs) (before ++ e :: after)).state.files := by
  let mode : Mode := { kept := True }
  have hrefl := fun (who : Who D) (w : World D (Who D)) => World.Onward.refl mode who.1 w
  have hmeets : Meets (step md5 readOnly) (start (.empty nowNs)) (Allowed mode) (before ++ e :: after) := by
    intro b e' a heq
    cases e' with
    | start c => exact nofun
    | step i x => exact fun q hq => ⟨nofun, nofun, nofun, fun _ => hmarkers b _ a heq q hq⟩
  have hgood : Pool.Good (bucketRules md5 mode) (Post md5 mode) (run md5 readOnly (.empty nowNs) before) :=
    good_run fun b e' a heq => hmeets b e' (a ++ e :: after) (by rw [heq]; simp)
  have hP : Allowed mode (run md5 readOnly (.empty nowNs) before) e := hmeets before e after rfl
  have hstep : run md5 readOnly (.empty nowNs) (before ++ [e]) =
      step md5 readOnly (run md5 readOnly (.empty nowNs) before) e := by
    rw [run, List.foldl_append]
    rfl
  -- when the put returns, its object is there
  have hread : Readable key body.chunks.flatten headers
      (run md5 readOnly (.empty nowNs) (before ++ [e])).state.files := by
    rw [hstep] at hreturned ⊢
    rcases hgood.returned (fits md5 mode readOnly) hrefl hP hreturned with hnow | ⟨hold, -⟩
    · exact hnow
    · exact absurd hold hbefore
  have hsplit : before ++ e :: after = (before ++ [e]) ++ after := by simp
  have hrest : Meets (step md5 readOnly) (run md5 readOnly (.empty nowNs) (before ++ [e]))
      (fun p e => Allowed mode p e ∧ ∀ c, e = .start c → c.object ≠ some key) after := by
    intro b e' a heq
    refine ⟨(hsplit ▸ hmeets).rest b e' a heq, ?_⟩
    rintro c rfl
    exact hstarts c (by rw [heq]; simp)
  rw [hsplit, run, List.foldl_append]
  refine (hrest.invariant (I := fun p => Pool.Good (bucketRules md5 mode) (Post md5 mode) p ∧
    Undisturbed key p ∧ Readable key body.chunks.flatten headers p.state.files) ⟨?_, hquiet, hread⟩ ?_).2.2
  · rw [hstep]
    exact hgood.step (fits md5 mode readOnly) hrefl e hP
  · rintro p e' ⟨hgood, hquiet, hread⟩ ⟨hP, hstart⟩
    exact ⟨hgood.step (fits md5 mode readOnly) hrefl e' hP,
      readable_step (show mode.kept from trivial) hgood hP hquiet hstart hread⟩

def putOf (key : String) (chunks : List Bytes) : Call Bytes := .put key.toList false {} ⟨chunks, true, none⟩

/-- A marker stays while an object next to it is put and deleted. -/
theorem put_stays_readable_beside_delete :
    let before := .start (putOf "a/" []) :: inTurn 3 [0]
    let after := .start (putOf "a/b" [[0]]) :: inTurn 10 [1] ++ .start (.delete "a/b".toList) :: inTurn 5 [2]
    Readable "a/".toList [] {} (run plainMd5 false (.empty 0) (before ++ .step 0 ⟨0, none⟩ :: after)).state.files := by
  intro before after
  have hstarts : ∀ c, Turn.start c ∈ after → c.object ≠ some "a/".toList := by
    intro c hc
    simp [after, inTurn] at hc
    rcases hc with rfl | rfl <;> decide
  have hreturned : (run plainMd5 false (.empty 0) (before ++ [.step 0 ⟨0, none⟩])).returned 0 (putOf "a/" [])
      (.ok (.etag (.plain []))) := returned_of_result (by decide +kernel)
  have hasks : (run plainMd5 false (.empty 0) before).asking 0 ≠ none := by decide +kernel
  refine put_stays_readable (meets_of_take (by decide +kernel)) (fun hdone => ?_) hreturned (by decide +kernel) hstarts
  rw [asking, hdone] at hasks
  exact hasks rfl

/-- A directory becomes a marker between the check of a deletion below it and its removal. -/
theorem put_marker_removed :
    let turns := .start (putOf "a/b" [[0]]) :: inTurn 10 [0] ++ .start (.delete "a/b".toList) :: inTurn 4 [1] ++
      .start (putOf "a/" []) :: inTurn 3 [2] ++ inTurn 1 [1]
    (run plainMd5 false (.empty 0) turns).returned 2 (putOf "a/" []) (.ok (.etag (.plain []))) ∧
      (run plainMd5 false (.empty 0) turns).state.files.objectAt "a/".toList = none := by
  exact ⟨returned_of_result (by decide +kernel), by decide +kernel⟩

end AtlasNative.S3
