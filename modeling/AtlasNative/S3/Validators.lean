import AtlasNative.S3.Changing

/-!
# ETags as validators

A file remembers what content it had at what mtime. An ETag that `head` returns is that of the content,
or of the parts it was made of, or is derived from the file's number, size and mtime.
-/

namespace AtlasNative.S3

open Program Files Relation List Option Pool Function

/-! ### Derived ETags -/

theorem append_cons_inj {a : Char} {l l' r r' : Text} (h : a ∉ l) (h' : a ∉ l')
    (heq : l ++ a :: r = l' ++ a :: r') : l = l' ∧ r = r' := by
  induction l generalizing l' with
  | nil =>
    cases l' with
    | nil => exact ⟨rfl, (cons.inj heq).2⟩
    | cons c l' => exact absurd (mem_cons.mpr (.inl (cons.inj heq).1)) h'
  | cons c l ih =>
    cases l' with
    | nil => exact absurd (mem_cons.mpr (.inl (cons.inj heq).1.symm)) h
    | cons c' l' =>
      obtain ⟨rfl, hrest⟩ := cons.inj heq
      obtain ⟨rfl, rfl⟩ := ih (fun hm => h (mem_cons_of_mem _ hm)) (fun hm => h' (mem_cons_of_mem _ hm)) hrest
      exact ⟨rfl, rfl⟩

theorem toDigits_inj {m n : Nat} (h : Nat.toDigits 10 m = Nat.toDigits 10 n) : m = n := by
  rw [← Nat.ofDigitChars_ten_toDigits (n := m), h, Nat.ofDigitChars_ten_toDigits]

theorem not_mem_toDigits {c : Char} (hc : c.isDigit = false) (n : Nat) : c ∉ Nat.toDigits 10 n := by
  intro h
  rw [Nat.isDigit_of_mem_toDigits (by decide) (by decide) h] at hc
  cases hc

theorem derivedText_toList (a : Attr) : (s!"{a.ino}:{a.size}:{a.mtimeNs}" : String).toList =
    Nat.toDigits 10 a.ino ++ ':' :: (Nat.toDigits 10 a.size ++ ':' :: (Int.repr a.mtimeNs).toList) := by
  simp [toString, Nat.toList_repr]

theorem derivedText_inj {a b : Attr} (h : derivedText a = derivedText b) :
    a.ino = b.ino ∧ a.size = b.size ∧ a.mtimeNs = b.mtimeNs := by
  have hstring : (s!"{a.ino}:{a.size}:{a.mtimeNs}" : String) = s!"{b.ino}:{b.size}:{b.mtimeNs}" :=
    String.toByteArray_inj.mp (ByteArray.ext (Array.toList_inj.mp h))
  have hlist := congrArg String.toList hstring
  rw [derivedText_toList, derivedText_toList] at hlist
  have hcolon := not_mem_toDigits (c := ':') rfl
  obtain ⟨hino, hrest⟩ := append_cons_inj (hcolon _) (hcolon _) hlist
  obtain ⟨hsize, hmtime⟩ := append_cons_inj (hcolon _) (hcolon _) hrest
  exact ⟨toDigits_inj hino, toDigits_inj hsize, Int.repr_injective (String.toList_inj.mp hmtime)⟩

/-! ### What a file remembers -/

variable {D : Type} {md5 : Md5 D} {mode : Mode} {readOnly : Bool} {who : Who D}
  {nowNs : Int} {log : List (Asked D (Who D))} {f f' : Files D (Who D)}

/-- What an ETag may be for a content that the file `ino` has had. -/
inductive TagFor (md5 : Md5 D) (ino : Nat) (mtimeNs : Int) (data : Bytes) : ETag D → Prop
  | plain : TagFor md5 ino mtimeNs data (.plain (md5.ofBytes data))
  | derived {a : Attr} (hino : a.ino = ino) (hmtime : a.mtimeNs = mtimeNs) :
      TagFor md5 ino mtimeNs data (.plain (md5.ofBytes (derivedText a)))
  | parts {pieces : List Bytes} (k : Nat) (hdata : data = pieces.flatten) :
      TagFor md5 ino mtimeNs data (.parts (md5.ofDigests (pieces.map md5.ofBytes)) k)

structure Node.Told (md5 : Md5 D) (ino : Nat) (n : Node D (Who D)) : Prop where
  /-- It never had two contents with one mtime. -/
  once : ∀ {p q}, p ∈ n.history → q ∈ n.history → p.1 = q.1 → p.2 = q.2
  /-- What is recorded was right when the file had that mtime. -/
  tags : ∀ {m}, n.recorded = some m →
    ∃ data, (m.mtimeNs, data) ∈ n.history ∧ TagFor md5 ino m.mtimeNs data m.etag

/-- A reading request that was answered was answered from the files. -/
def Asked.Truthful (e : Asked D (Who D)) : Prop :=
  ∀ v, e.reply = .ok v → e.request.reads = true → (e.files.perform e.who 0 e.request).1 = .ok v

/-- What the files and the log of requests tell about each other. -/
structure Remembers (md5 : Md5 D) (log : List (Asked D (Who D))) (f : Files D (Who D)) : Prop where
  told : ∀ {i n}, f.nodes i = some n → n.kind = .file → n.Told md5 i
  past : ∀ {e i n}, e ∈ log → e.files.nodes i = some n →
    ∃ n', f.nodes i = some n' ∧ n'.kind = n.kind ∧ (n.kind = .file → n.Told md5 i ∧ n.history ⊆ n'.history)
  honest : ∀ {e}, e ∈ log → e.Truthful

/-- The ETag that `head` answers with is one for the content that it looked up. -/
theorem Remembers.seen (h : Remembers md5 log f) (readOnly : Bool) {who' : Who D} {d : Nat} {x : Text} {a : Attr}
    {m : Option (ObjectMeta D)} {f1 f2 : Files D (Who D)}
    (hlook : ⟨who, .lookup d x, .ok a, f1⟩ ∈ log) (hrec : ⟨who', .getRecorded a.ino, .ok m, f2⟩ ∈ log)
    (hk : a.kind = .file) : ∃ n1 n, f1.nodes a.ino = some n1 ∧ f.nodes a.ino = some n ∧ n.kind = .file ∧
      n1.mtimeNs = a.mtimeNs ∧ (a.mtimeNs, n1.data) ∈ n.history ∧
      TagFor md5 a.ino a.mtimeNs n1.data ((bucket md5 readOnly).described a m).etag := by
  obtain ⟨-, nd, c, n1, -, hn1, rfl⟩ := lookup_eq_ok.mp (h.honest hlook a rfl rfl)
  have hk1 : n1.kind = .file := hk
  obtain ⟨n, hn, hkind, htold1⟩ := h.past hlook hn1.1
  have hkn : n.kind = .file := hkind.trans hk1
  have hmem : (n1.mtimeNs, n1.data) ∈ n.history := (htold1 hk1).2 mem_cons_self
  refine ⟨n1, n, hn1.1, hn, hkn, rfl, hmem, ?_⟩
  obtain ⟨n2, hn2, rfl⟩ := recorded_eq_ok (h.honest hrec m rfl rfl)
  obtain ⟨n', hn', hkind2, htold2⟩ := h.past hrec hn2.1
  obtain rfl := mem_unique hn' hn
  have hk2 := hkind2.symm.trans hkn
  have hdir : (n1.attr c).kind ≠ .dir := by rw [hk]; nofun
  cases hm : n2.recorded with
  | none =>
    simp only [Bucket.described]
    exact .derived rfl rfl
  | some m =>
    by_cases hvalid : m.size = (n1.attr c).size ∧ m.mtimeNs = (n1.attr c).mtimeNs
    · simp only [Bucket.described, hdir, if_false, hvalid, and_self, if_true]
      -- it has been valid for the content of that mtime
      obtain ⟨htold, hsub⟩ := htold2 hk2
      obtain ⟨data, hdata, htag⟩ := htold.tags hm
      have heq : data = n1.data := (h.told hn hkn).once (hsub hdata) hmem hvalid.2
      rw [heq, hvalid.2] at htag
      exact htag
    · simp only [Bucket.described, hdir, if_false, hvalid]
      exact .derived rfl rfl

/-! ### Every change is remembered -/

/-- The digests of what a completion copies are those of the bytes. -/
theorem digests_of_pieces (hcalm : mode.calm) {id : Text} {parts : List (Int × ETag D)}
    {pieces : List (D × Bytes)} (h : List.Forall₂ (Piece md5 mode f id) parts pieces) :
    pieces.map Prod.fst = (pieces.map Prod.snd).map md5.ofBytes := by
  induction h with
  | nil => rfl
  | cons hpiece _ ih =>
    obtain ⟨l, n, -, -, -, hdigest, hbytes⟩ := hpiece
    rw [map_cons, map_cons, map_cons, ih, hdigest, hbytes hcalm]

variable {n : Node D (Who D)} {ino : Nat}

theorem tagFor_of_stamp {call : Call D} {m : ObjectMeta D} (hcalm : mode.calm)
    (h : Stamp md5 mode call f n m) : TagFor md5 ino m.mtimeNs n.data m.etag := by
  by_cases hcall : ∃ id key parts, call = .completeUpload id key parts
  · obtain ⟨id, key, parts, rfl⟩ := hcall
    obtain ⟨pieces, hpieces, hdata, hetag⟩ := h.content.whole rfl
    rw [hetag, digests_of_pieces hcalm hpieces]
    exact .parts _ hdata
  · rw [h.content.plain fun id key parts heq => hcall ⟨id, key, parts, heq⟩]
    exact .plain

theorem Node.Told.rewritten (h : n.Told md5 ino) (hfresh : Fresh n nowNs) (data : Bytes) :
    (n.rewritten data nowNs).Told md5 ino where
  once {p q} hp hq heq := by
    rcases mem_cons.mp hp with rfl | hp
    · rcases mem_cons.mp hq with rfl | hq
      · rfl
      · exact absurd heq.symm (hfresh q hq)
    · rcases mem_cons.mp hq with rfl | hq
      · exact absurd heq (hfresh p hp)
      · exact h.once hp hq heq
  tags hm := by
    obtain ⟨data, hdata, htag⟩ := h.tags hm
    exact ⟨data, mem_cons_of_mem _ hdata, htag⟩

variable {log' : List (Asked D (Who D))}

/-- What `set_headers` records was right when the file had that mtime. -/
theorem Remembers.restamped {m : ObjectMeta D} (h : Remembers md5 log' f) (hsteady : mode.steady)
    (hlog : log ⊆ log') (hagain : Restamp md5 mode log who ino m) (hn : f.nodes ino = some n) :
    ∃ data, (m.mtimeNs, data) ∈ n.history ∧ TagFor md5 ino m.mtimeNs data m.etag := by
  obtain ⟨o, a', f0, ⟨d, x, a, f1, m0, f2, hlook, hrec, hk, rfl⟩, rfl, -, hetag, -, hmtime, hsame⟩ := hagain
  obtain ⟨n1, n', -, hn', -, -, hmem, htag⟩ := h.seen false (hlog hlook) (hlog hrec) hk
  obtain rfl := mem_unique hn' hn
  have hat : m.mtimeNs = a.mtimeNs := hmtime.trans (hsame hsteady)
  rw [hat, hetag]
  exact ⟨n1.data, hmem, htag⟩

section

variable (h : Does md5 mode log who nowNs f f') (hwf : f.WF) (hcalm : mode.calm)
  (hsteady : mode.steady) (hfresh : mode.fresh) (hlog : log ⊆ log') (hr : Remembers md5 log' f)
include h hwf hcalm hsteady hfresh hlog hr

/-- A file that is there keeps its history, and what is said about it. -/
theorem Does.told {i : Nat} (hn : f.nodes i = some n) (hk : n.kind = .file) :
    ∃ n', f'.nodes i = some n' ∧ n.history ⊆ n'.history ∧ n'.Told md5 i := by
  have htold := hr.told hn hk
  -- a change that leaves the files alone
  have hkeep : (∃ n', f'.nodes i = some n' ∧ (n.kind = .file → n'.history = n.history ∧
      n'.recorded = n.recorded)) → ∃ n', f'.nodes i = some n' ∧ n.history ⊆ n'.history ∧ n'.Told md5 i := by
    rintro ⟨n', hn', hsame⟩
    obtain ⟨hhistory, hrecorded⟩ := hsame hk
    refine ⟨n', hn', hhistory ▸ List.Subset.refl _, ?_, ?_⟩
    · rw [hhistory]
      exact htold.once
    · rw [hhistory, hrecorded]
      exact htold.tags
  have hset : ∀ {j m m'}, f.Has j m → (i = j → m.history ⊆ m'.history ∧ m'.Told md5 i) →
      ∃ n', (f.set j m').nodes i = some n' ∧ n.history ⊆ n'.history ∧ n'.Told md5 i := by
    intro j m m' hm hnew
    rw [set_nodes]
    split
    · obtain rfl := mem_unique hn (‹i = j› ▸ hm.1)
      exact ⟨m', rfl, hnew ‹i = j›⟩
    · exact ⟨n, hn, List.Subset.refl _, htold⟩
  let Same : Node D (Who D) → Node D (Who D) → Prop := fun n n' =>
    n.kind = .file → n'.history = n.history ∧ n'.recorded = n.recorded
  have hrefl : ∀ n, Same n n := fun _ _ => ⟨rfl, rfl⟩
  have hdir : ∀ {n n' : Node D (Who D)}, n.kind = .dir → Same n n' := by
    intro n n' hd hf
    rw [hd] at hf
    cases hf
  cases h with
  | makeDir hd hdk _
  | makeTemp hd hdk _ => exact hkeep (node_made (X := Same) hrefl hwf hd (fun _ => hdir hdk) hn)
  | write data hm hf _ _ _ hnew | edit data hm hf _ hnew _ =>
    refine hset hm fun heq => ⟨subset_cons_self _ _, ?_⟩
    exact (hr.told (heq ▸ hm.1) hf).rewritten (hnew hfresh) data
  | @record j nn m hm hf _ _ _ hstamp =>
    refine hset hm fun heq => ⟨List.Subset.refl _, (hr.told (heq ▸ hm.1) hf).once, fun hm' => ?_⟩
    obtain rfl := some.inj hm'
    refine ⟨nn.data, ?_, tagFor_of_stamp hcalm hstamp⟩
    rw [hstamp.mtimeNs]
    exact mem_cons_self
  | publish hd hm _ _ _ _ _ _ =>
    exact hkeep (node_placed (X := Same) hrefl hd.has hm (fun _ => hdir hd.isDir) (fun _ => ⟨rfl, rfl⟩) hn)
  | mark m hd hdk _
  | setUpload u hd hdk => exact hkeep (node_set (X := Same) hrefl hd (hdir hdk) hn)
  | unlink hd hm _ _ | rmdir hd hm _ _ _ =>
    exact hkeep (node_dropped (X := Same) hrefl hd.has hm (fun _ => hdir hd.isDir) (fun _ => ⟨rfl, rfl⟩) hn)
  | @restamp j nn m hm hf _ hagain _ =>
    refine hset hm fun heq => ⟨List.Subset.refl _, (hr.told (heq ▸ hm.1) hf).once, fun hm' => ?_⟩
    obtain rfl := some.inj hm'
    subst heq
    obtain ⟨data, hmem, htag⟩ := hr.restamped hsteady hlog hagain hm.1
    exact ⟨data, hmem, htag⟩

theorem Does.remembers : Remembers md5 log' f' := by
  have hpast : ∀ {i n}, f.nodes i = some n → ∃ n', f'.nodes i = some n' ∧ n'.kind = n.kind ∧
      (n.kind = .file → n.history ⊆ n'.history ∧ n'.Told md5 i) := by
    intro i n hn
    obtain ⟨n', hn', hstep⟩ := h.node hwf hn
    refine ⟨n', hn', hstep.kind, fun hk => ?_⟩
    obtain ⟨n'', hn'', hrest⟩ := h.told hwf hcalm hsteady hfresh hlog hr hn hk
    rwa [mem_unique hn' hn'']
  refine ⟨fun {i n'} hn' hk => ?_, fun {e i n} he hn => ?_, hr.honest⟩
  · rcases h.fresh hn' with ⟨n, hn⟩ | hnew
    · obtain ⟨n'', hn'', hkind, htold⟩ := hpast hn
      obtain rfl := mem_unique hn' hn''
      exact (htold (hkind.symm.trans hk)).2
    · refine ⟨fun {p q} hp hq _ => ?_, fun hm => ?_⟩
      · rw [Node.history, hnew.was, mem_singleton] at hp hq
        rw [hp, hq]
      · rw [hnew.recorded] at hm
        cases hm
  · obtain ⟨n1, hn1, hkind, htold⟩ := hr.past he hn
    obtain ⟨n', hn', hkind', htold'⟩ := hpast hn1
    refine ⟨n', hn', hkind'.trans hkind, fun hk => ⟨(htold hk).1, ?_⟩⟩
    exact List.Subset.trans (htold hk).2 (htold' (hkind.trans hk)).1

end

theorem remembers_answer {r : Request D} {x : Env} {w : World D (Who D)} (hcalm : mode.calm)
    (hsteady : mode.steady) (hfresh : mode.fresh) (hinv : Inv md5 w.files)
    (hguar : Guar md5 mode who r w (answer who x r w).2) (hr : Remembers md5 w.log w.files) :
    Remembers md5 (answer who x r w).2.log (answer who x r w).2.files := by
  obtain ⟨⟨nowNs, hdoes⟩, -⟩ := hguar
  -- the request is in the log first, and then does what it does
  have hlogged : Remembers md5 (answer who x r w).2.log w.files := by
    refine ⟨hr.told, fun {e i n} he hn => ?_, fun {e} he => ?_⟩
    · rcases mem_append.mp he with he | he
      · exact hr.past he hn
      · obtain rfl := mem_singleton.mp he
        exact ⟨n, hn, rfl, fun hk => ⟨hr.told hn hk, List.Subset.refl _⟩⟩
    · rcases mem_append.mp he with he | he
      · exact hr.honest he
      · obtain rfl := mem_singleton.mp he
        intro v hv hreads
        cases hx : x.fault with
        | some e => simp [hx] at hv
        | none =>
          simp only [hx] at hv
          rw [perform_of_reads hreads] at hv
          exact hv
  have hsub : w.log ⊆ (answer who x r w).2.log := subset_append_left _ _
  generalize (answer who x r w).2.files = f' at hdoes
  induction hdoes with
  | refl => exact hlogged
  | tail hsteps hstep ih =>
    exact hstep.remembers (inv_of_does hsteps hinv).wf hcalm hsteady hfresh hsub ih

/-! ### What a `head` has seen -/

variable [DecidableEq D]

/-- The content of the file, if this is the look-up that the answer `o` is from. -/
def Asked.content (who : Who D) (o : Object D) : Asked D (Who D) → Option Bytes
  | ⟨who', .lookup _ _, .ok a, f⟩ =>
    if who' = who ∧ a.kind = .file ∧ a.ino = o.ino ∧ a.mtimeNs = o.mtimeNs then
      (f.nodes a.ino).map (·.data)
    else none
  | _ => none

/-- The content of the object at `key` when the call found it; a marker has none. -/
def contentsSeen (log : List (Asked D (Who D))) (key : Text) (who : Who D) (o : Object D) : List Bytes :=
  if (place key).isSome then log.filterMap (·.content who o) else [[]]

variable {o : Object D} {data : Bytes}

theorem content_eq_some {e : Asked D (Who D)} (h : e.content who o = some data) :
    ∃ d x a f n, e = ⟨who, .lookup d x, .ok a, f⟩ ∧ a.kind = .file ∧ a.ino = o.ino ∧
      a.mtimeNs = o.mtimeNs ∧ f.nodes a.ino = some n ∧ n.data = data := by
  unfold Asked.content at h
  split at h
  · split at h
    · rename_i hcond
      obtain ⟨rfl, hk, hino, hmtime⟩ := hcond
      obtain ⟨n, hn, hdata⟩ := map_eq_some_iff.mp h
      exact ⟨_, _, _, _, n, rfl, hk, hino, hmtime, hn, hdata⟩
    · cases h
  · cases h

/-- What a `head` looks up. -/
def headLooks : Call D → Request D → Option (Nat × Text)
  | .head _, .lookup d name => some (d, name)
  | _, _ => none

/-- The content of a file that a `head` finds is not the text that an ETag is derived from. -/
def NoDerivedText (c : Call D) (r : Request D) (f : Files D (Who D)) : Prop :=
  ∀ q ∈ headLooks c r, ∀ a ∈ (f.lookup q.1 q.2).toOption, a.kind = .file →
    ∀ n ∈ f.nodes a.ino, ∀ b, n.data ≠ derivedText b

variable {key : Text}

/-- An object that a `head` has returned, and a content that it has seen. -/
theorem Remembers.content (h : Remembers md5 log f)
    (htext : ∀ e ∈ log, NoDerivedText e.who.2 e.request e.files) (hwho : who.2 = .head key)
    (hseen : HeadSeen md5 log who o) (hdata : data ∈ log.filterMap (·.content who o)) :
    TagFor md5 o.ino o.mtimeNs data o.etag ∧ (∀ b, data ≠ derivedText b) ∧
      ∃ n, f.nodes o.ino = some n ∧ n.Told md5 o.ino ∧ (o.mtimeNs, data) ∈ n.history := by
  obtain ⟨d, x, a, f1, m, f2, hlook, hrec, hk, rfl⟩ := hseen
  obtain ⟨n1, n, -, hn, hkn, -, hmem1, htag⟩ := h.seen false hlook hrec hk
  obtain ⟨e, he, hcontent⟩ := mem_filterMap.mp hdata
  obtain ⟨d', x', a', f', n2, rfl, hk', hino, hmtime, hn2, rfl⟩ := content_eq_some hcontent
  have hfound := h.honest he a' rfl rfl
  obtain ⟨-, nd, c, n3, -, hn3, rfl⟩ := lookup_eq_ok.mp hfound
  obtain rfl := mem_unique hn2 hn3.1
  have hino' : c = a.ino := hino
  subst hino'
  obtain ⟨n', hn', -, htold⟩ := h.past he hn3.1
  obtain rfl := mem_unique hn' hn
  -- both look-ups saw the file with one mtime
  have hmem : (a.mtimeNs, n2.data) ∈ n'.history := by
    have hhead := (htold hk').2 mem_cons_self
    rwa [show n2.mtimeNs = a.mtimeNs from hmtime] at hhead
  have heq : n2.data = n1.data := (h.told hn hkn).once hmem hmem1 rfl
  refine ⟨heq ▸ htag, fun b => ?_, n', hn, h.told hn hkn, hmem⟩
  refine htext _ he (d', x') (by rw [hwho]; rfl) _ ?_ hk' n2 hn3.1 b
  rw [show f'.lookup d' x' = _ from hfound]
  rfl

omit [DecidableEq D] in
theorem TagFor.same {i i' : Nat} {t t' : Int} {data' : Bytes} {e : ETag D}
    (hbytes : Injective md5.ofBytes) (hdigests : Injective md5.ofDigests)
    (h : TagFor md5 i t data e) (h' : TagFor md5 i' t' data' e) (htext : ∀ b, data ≠ derivedText b)
    (htext' : ∀ b, data' ≠ derivedText b) (honce : i = i' → t = t' → data = data') :
    data = data' := by
  cases h with
  | plain =>
    generalize he : ETag.plain (md5.ofBytes data) = e at h'
    cases h' with
    | plain => exact hbytes (ETag.plain.inj he)
    | derived _ _ => exact absurd (hbytes (ETag.plain.inj he)) (htext _)
    | parts _ _ => cases he
  | @derived a hino hmtime =>
    generalize he : ETag.plain (md5.ofBytes (derivedText a)) = e at h'
    cases h' with
    | plain => exact absurd (hbytes (ETag.plain.inj he)).symm (htext' _)
    | @derived b hino' hmtime' =>
      obtain ⟨heq, -, hmt⟩ := derivedText_inj (hbytes (ETag.plain.inj he))
      exact honce (by rw [← hino, heq, hino']) (by rw [← hmtime, hmt, hmtime'])
    | parts _ _ => cases he
  | @parts pieces k hdata =>
    generalize he : ETag.parts (md5.ofDigests (pieces.map md5.ofBytes)) k = e at h'
    cases h' with
    | plain | derived => cases he
    | @parts pieces' k' hdata' =>
      have hmap := hdigests (ETag.parts.inj he).1
      rw [hdata, hdata', hbytes.list_map hmap]

/-! ### Calls that run together -/

/-- Every change of a content gives the file an mtime that it never had. -/
def FreshTimes (p : Gateway D) : Turn (Call D) Env → Prop
  | .start _ => True
  | .step i x => ∀ q ∈ p.asking i, FreshMtime x q.2 p.state

/-- Completions find the parts that they listed, `set_headers` stamps the mtime that it saw, and no
`head` finds a content that is the text of a derived ETag. -/
def Steady (p : Gateway D) : Turn (Call D) Env → Prop
  | .start _ => True
  | .step i _ => ∀ q ∈ p.asking i, SameParts (i, q.1) q.2 p.state ∧ SameMtime (i, q.1) q.2 p.state ∧
      NoDerivedText q.1 q.2 p.state.files

variable {turns : List (Turn (Call D) Env)}

theorem remembers_run (hcalm : mode.calm) (hsteady : mode.steady) (hfresh : mode.fresh)
    (h : Meets (step md5 readOnly) (start (.empty nowNs)) (fun p e => Allowed mode p e ∧ Steady p e) turns) :
    Remembers md5 (run md5 readOnly (.empty nowNs) turns).state.log
        (run md5 readOnly (.empty nowNs) turns).state.files ∧
      ∀ e ∈ (run md5 readOnly (.empty nowNs) turns).state.log, NoDerivedText e.who.2 e.request e.files := by
  refine (h.invariant (I := fun p => Pool.Good (bucketRules md5 mode) (Post md5 mode) p ∧
    Remembers md5 p.state.log p.state.files ∧
      ∀ e ∈ p.state.log, NoDerivedText e.who.2 e.request e.files) ⟨good_start md5 mode nowNs, ?_, ?_⟩ ?_).2
  · exact ⟨fun hn hk => absurd hk (empty_kind hn), fun he => absurd he not_mem_nil, fun he => absurd he not_mem_nil⟩
  · exact fun _ he => absurd he not_mem_nil
  · rintro p e ⟨hgood, hr, htext⟩ ⟨hP, hS⟩
    refine ⟨hgood.step (fits md5 mode readOnly) (fun who w => .refl mode who.1 w) e hP, ?_⟩
    cases e with
    | start c => exact ⟨hr, htext⟩
    | step i x =>
      rcases ask_or_idle answer (bucket md5 readOnly).program p i x with
        ⟨c, r, next, hi⟩ | hidle
      · obtain ⟨-, hguar, -⟩ := hgood.asked (fits md5 mode readOnly) hi (.refl ..) hP
        rw [step, step_ask hi]
        refine ⟨remembers_answer hcalm hsteady hfresh hgood.inv hguar hr, fun e he => ?_⟩
        rcases mem_append.mp he with he | he
        · exact htext e he
        · obtain rfl := mem_singleton.mp he
          exact (hS (c, r) (asking_eq hi)).2.2
      · rw [step, hidle]
        exact ⟨hr, htext⟩

/-- What a `head` that has returned knows. -/
def Headed (md5 : Md5 D) (who : Who D) (out : Out D) (w : World D (Who D)) : Prop :=
  ∀ key o, who.2 = .head key → out = .ok (.object o) → HeadOk md5 who key o w

theorem headed_run (h : Meets (step md5 readOnly) (start (.empty nowNs)) (Allowed mode) turns) {i : Nat}
    (hi : (run md5 readOnly (.empty nowNs) turns).returned i (.head key) (.ok (.object o))) :
    HeadOk md5 (i, .head key) key o (run md5 readOnly (.empty nowNs) turns).state := by
  have hpost : ∀ who out w, Post md5 mode who out w → Headed md5 who out w := by
    rintro ⟨i, c⟩ out w hpost key o rfl rfl
    exact hpost
  have hinit : (bucketRules md5 mode).inv ⟨.empty nowNs, []⟩ := inv_empty md5 nowNs
  refine ended_of_meets hinit (fun _ => noFile_empty _ nowNs)
    ((fits md5 mode readOnly).weaken hpost) (fun who w => .refl mode who.1 w) ?_ h i _ _ hi key o rfl rfl
  intro p i c r next x j c' out hinv _ _ _ hij hguar hends key o hwho hout
  exact lasting_headOk md5 mode _ key o (hguar.onward hinv hij).grows (hends key o hwho hout)

theorem contentsSeen_ne_nil {w : World D (Who D)} (hr : Remembers md5 w.log w.files)
    (h : HeadOk md5 who key o w) : contentsSeen w.log key who o ≠ [] := by
  unfold contentsSeen
  split
  · rcases h with ⟨dest, -, ⟨d, x, a, f1, m, f2, hlook, -, hk, rfl⟩, -⟩ | ⟨dirs, hmark, -⟩
    · obtain ⟨-, nd, c, n, -, hn, rfl⟩ := lookup_eq_ok.mp (hr.honest hlook a rfl rfl)
      refine ne_nil_of_mem (mem_filterMap.mpr ⟨_, hlook, (?_ : _ = some n.data)⟩)
      have hnode : f1.nodes (n.attr c).ino = some n := hn.1
      have hfrom : (n.attr c).ino = ((bucket md5 false).described (n.attr c) m).ino ∧
          (n.attr c).mtimeNs = ((bucket md5 false).described (n.attr c) m).mtimeNs := ⟨rfl, rfl⟩
      simp only [Asked.content, hk, hfrom.1, hfrom.2, and_self, if_true]
      rw [← hfrom.1, hnode]
      rfl
    · rename_i hplace
      rw [place, markPlace_eq_some.mp hmark] at hplace
      cases hplace
  · exact cons_ne_nil _ _

/-- The same ETag from two `head` calls on a key: they found the same content. -/
theorem head_etag_validates (hbytes : Function.Injective md5.ofBytes)
    (hdigests : Function.Injective md5.ofDigests)
    (hfresh : Meets (step md5 readOnly) (start (.empty nowNs)) FreshTimes turns)
    (hsteady : Meets (step md5 readOnly) (start (.empty nowNs)) Steady turns) {i j : Nat} {key : Text}
    {o o' : Object D} (hi : (run md5 readOnly (.empty nowNs) turns).returned i (.head key) (.ok (.object o)))
    (hj : (run md5 readOnly (.empty nowNs) turns).returned j (.head key) (.ok (.object o')))
    (hetag : o.etag = o'.etag) :
    contentsSeen (run md5 readOnly (.empty nowNs) turns).state.log key (i, .head key) o ≠ [] ∧
    ∀ data ∈ contentsSeen (run md5 readOnly (.empty nowNs) turns).state.log key (i, .head key) o,
      ∀ data' ∈ contentsSeen (run md5 readOnly (.empty nowNs) turns).state.log key (j, .head key) o',
        data = data' := by
  let mode : Mode := { calm := True, steady := True, fresh := True }
  have hmeets : Meets (step md5 readOnly) (start (.empty nowNs)) (fun p e => Allowed mode p e ∧ Steady p e) turns := by
    intro before e after heq
    have hS := hsteady before e after heq
    refine ⟨?_, hS⟩
    cases e with
    | start c => exact nofun
    | step i x =>
      exact fun q hq => ⟨fun _ => (hS q hq).1, fun _ => (hS q hq).2.1, fun _ => hfresh before _ after heq q hq, nofun⟩
  have hallowed : Meets (step md5 readOnly) (start (.empty nowNs)) (Allowed mode) turns :=
    fun before e after heq => (hmeets before e after heq).1
  obtain ⟨hr, htext⟩ := remembers_run (show mode.calm from trivial) trivial trivial hmeets
  have hhead := headed_run hallowed hi
  have hhead' := headed_run hallowed hj
  refine ⟨contentsSeen_ne_nil hr hhead, fun data hdata data' hdata' => ?_⟩
  unfold contentsSeen at hdata hdata'
  split at hdata
  · rename_i hplace
    rw [if_pos hplace] at hdata'
    -- a key of a file is no key of a marker
    have hfile : ∀ {who : Who D} {o : Object D} {w : World D (Who D)}, HeadOk md5 who key o w →
        HeadSeen md5 w.log who o := by
      rintro who o w (⟨-, -, hseen, -⟩ | ⟨dirs, hmark, -⟩)
      · exact hseen
      · rw [place, markPlace_eq_some.mp hmark] at hplace
        cases hplace
    obtain ⟨htag, hplain, n, hn, htold, hmem⟩ := hr.content htext rfl (hfile hhead) hdata
    obtain ⟨htag', hplain', n', hn', -, hmem'⟩ := hr.content htext rfl (hfile hhead') hdata'
    refine htag.same hbytes hdigests (hetag ▸ htag') hplain hplain' fun hino hmtime => ?_
    rw [← hino] at hn'
    obtain rfl := mem_unique hn hn'
    exact htold.once hmem hmem' hmtime
  · rename_i hplace
    rw [if_neg hplace] at hdata'
    rw [mem_singleton.mp hdata, mem_singleton.mp hdata']

/-! ### Runs to look at -/

/-- Numbers in place of digests, no two of which are the same. -/
def numberMd5 : Md5 Nat := ⟨fun b => Encodable.encode (b.map UInt8.toNat), Encodable.encode, 0⟩

theorem numberMd5_ofBytes_inj : Injective numberMd5.ofBytes := fun _ _ h =>
  (Injective.list_map fun _ _ => UInt8.toNat_inj.mp) (Encodable.encode_injective h)

/-- Requests of call `i`, each at a time of its own. -/
def clocked (i since n : Nat) : List (Turn (Call Nat) Env) :=
  (List.range n).map fun k => .step i { nowNs := ((since + k : Nat) : Int) }

def putA : Call Nat := .put ['a'] false {} ⟨[[0]], true, none⟩
def headA : Call Nat := .head ['a']
def setHeadersA : Call Nat := .setHeaders ['a'] { contentType := some "text/plain" }

instance (p : Gateway D) : (e : Turn (Call D) Env) → Decidable (FreshTimes p e)
  | .start _ => isTrue trivial
  | .step i _ => inferInstanceAs (Decidable (∀ _ ∈ p.asking i, _))

theorem two_le_derivedText_length (a : Attr) : 2 ≤ (derivedText a).length := by
  have hcolon : (toString ":").toByteArray.data.toList.length = 1 := rfl
  simp only [derivedText, String.toUTF8, String.toByteArray_append, ByteArray.data_append, Array.toList_append,
    length_append, hcolon]
  omega

/-- A run in which every content that a `head` finds is a byte at most. -/
def SteadyShort (p : Gateway D) : Turn (Call D) Env → Prop
  | .start _ => True
  | .step i _ => ∀ q ∈ p.asking i, SameParts (i, q.1) q.2 p.state ∧ SameMtime (i, q.1) q.2 p.state ∧
      ∀ l ∈ headLooks q.1 q.2, ∀ a ∈ (p.state.files.lookup l.1 l.2).toOption,
        ∀ n ∈ p.state.files.nodes a.ino, n.data.length < 2

instance (p : Gateway D) : (e : Turn (Call D) Env) → Decidable (SteadyShort p e)
  | .start _ => isTrue trivial
  | .step i _ => inferInstanceAs (Decidable (∀ _ ∈ p.asking i, _))

theorem SteadyShort.steady {p : Gateway D} {e : Turn (Call D) Env} (h : SteadyShort p e) : Steady p e := by
  cases e with
  | start c => trivial
  | step i x =>
    intro q hq
    obtain ⟨hparts, hmtime, hshort⟩ := h q hq
    refine ⟨hparts, hmtime, fun l hl a ha _ n hn b heq => ?_⟩
    have hlong := two_le_derivedText_length b
    rw [← heq] at hlong
    exact absurd (hshort l hl a ha n hn) (by omega)

theorem head_etag_validates_beside_set_headers :
    let turns := .start putA :: clocked 0 0 8 ++ .start headA :: clocked 1 8 2 ++
      .start setHeadersA :: clocked 2 10 4 ++ .start headA :: clocked 3 14 2
    let seen := contentsSeen (run numberMd5 false (.empty 0) turns).state.log ['a']
    let o : Object Nat := ⟨2, 1, 2, .plain 1, {}⟩
    let o' : Object Nat := { o with headers := { contentType := some "text/plain" } }
    seen (1, headA) o ≠ [] ∧ ∀ data ∈ seen (1, headA) o, ∀ data' ∈ seen (3, headA) o', data = data' := by
  intro turns seen o o'
  have hfirst : (run numberMd5 false (.empty 0) turns).returned 1 headA (.ok (.object o)) :=
    returned_of_result (by decide +kernel)
  have hsecond : (run numberMd5 false (.empty 0) turns).returned 3 headA (.ok (.object o')) :=
    returned_of_result (by decide +kernel)
  have hshort : Meets (step numberMd5 false) (start (.empty 0)) SteadyShort turns := meets_of_take (by decide +kernel)
  exact head_etag_validates numberMd5_ofBytes_inj Encodable.encode_injective (meets_of_take (by decide +kernel))
    (fun before e after heq => (hshort before e after heq).steady) hfirst hsecond rfl

/-- The file changes between the look-up of `set_headers` and its stamp. -/
theorem head_etag_of_other_content :
    let turns := .start putA :: clocked 0 0 8 ++ .start headA :: clocked 1 8 2 ++
      .start setHeadersA :: clocked 2 10 2 ++ .start (.write ['a'] 0 [1]) :: clocked 3 12 2 ++
      clocked 2 14 2 ++ .start headA :: clocked 4 16 2
    let seen := contentsSeen (run numberMd5 false (.empty 0) turns).state.log ['a']
    let o : Object Nat := ⟨2, 1, 2, .plain 1, {}⟩
    let o' : Object Nat := ⟨2, 1, 13, .plain 1, { contentType := some "text/plain" }⟩
    Meets (step numberMd5 false) (start (.empty 0)) FreshTimes turns ∧
      (run numberMd5 false (.empty 0) turns).returned 1 headA (.ok (.object o)) ∧
      (run numberMd5 false (.empty 0) turns).returned 4 headA (.ok (.object o')) ∧
      seen (1, headA) o = [[0]] ∧ seen (4, headA) o' = [[1]] :=
  ⟨meets_of_take (by decide +kernel), returned_of_result (by decide +kernel),
    returned_of_result (by decide +kernel), by decide +kernel, by decide +kernel⟩

end AtlasNative.S3
