import AtlasNative.Engine.Export

/-!
# A completed export stays complete

A delete decides which blobs are unreferenced from a listing of the manifests, and looks for markers
before each blob. As long as no export was in progress at any moment since that listing, freeing a
blob leaves every manifest complete. The markers alone do not see to that: an export that starts
after they were looked at, or that came and went since the listing, may rely on the blob.
-/

namespace AtlasNative

open List Std Bucket Option ExtTreeMap Bool

namespace Bucket

variable {b b' : Bucket} {name sha : String}

/-- Every blob that a manifest names is there. -/
def Complete (b : Bucket) : Prop :=
  ∀ (name : String) m, b.manifests[name]? = some m → ∀ x ∈ m.extents, x.sha256 ∈ b.blobs

/-- No manifest is new. -/
def Fewer (b b' : Bucket) : Prop :=
  ∀ (name : String) m, b'.manifests[name]? = some m → b.manifests[name]? = some m

theorem fewer_deleteManifest : b.Fewer (b.deleteManifest name) := by
  intro n m h
  exact Program.getElem?_of_erase h

theorem Complete.mono (h : b.Complete) (hfew : b.Fewer b') (hblobs : ∀ x ∈ b.blobs, x ∈ b'.blobs) : b'.Complete :=
  fun n m hm x hx => hblobs _ (h n m (hfew n m hm) x hx)

theorem mem_putBlob {x : String} {data : Bytes} : x ∈ (b.putBlob sha data).blobs ↔ x = sha ∨ x ∈ b.blobs := by
  rw [putBlob, mem_insert, LawfulEqCmp.compare_eq_iff_eq, eq_comm]

theorem Complete.putManifest {m : ExportManifest} (h : b.Complete)
    (hm : ∀ x ∈ m.extents, x.sha256 ∈ b.blobs) : (b.putManifest m).Complete := by
  intro n m' hm' x hx
  rcases Program.getElem?_of_insert hm' with ⟨-, rfl⟩ | hm'
  · exact hm x hx
  · exact h n m' hm' x hx

end Bucket

/-! ### One step of a call -/

/-- An export has put or seen every blob it has listed. -/
def ExportAt.Backed (b : Bucket) : ExportAt → Prop
  | .upload u => (∀ x ∈ u.listed, u.seen.contains x.sha256 = true) ∧
      ∀ x, u.seen.contains x = true → x ∈ b.blobs
  | _ => True

namespace ExportAt

variable {job : ExportJob} {now : Nat} {b : Bucket} {at_ : ExportAt}

/-- What a step does to the bucket, and what backs the export afterwards. -/
inductive Effect (job : ExportJob) (b : Bucket) : ExportAt → ExportAt → Bucket → Prop
  /-- Only markers change. -/
  | none {at_ next : ExportAt} {b' : Bucket} (hm : b'.manifests = b.manifests)
      (hb : b'.blobs = b.blobs) (hnext : at_.Backed b → next.Backed b) : Effect job b at_ next b'
  | blob {at_ next : ExportAt} (sha : String) (data : Bytes)
      (hnext : at_.Backed b → next.Backed (b.putBlob sha data)) :
      Effect job b at_ next (b.putBlob sha data)
  | manifest {u : Upload} {next : ExportAt} {m : ExportManifest} (hname : m.name = job.name)
      (hext : m.extents = u.listed) (hnext : ∀ b, next.Backed b) :
      Effect job b (.upload u) next (b.putManifest m)

theorem seen_keys {x : String}
    (h : (ExtTreeSet.ofList b.blobs.keys : BTreeSet String).contains x = true) : x ∈ b.blobs := by
  rw [ExtTreeSet.contains_ofList] at h
  exact mem_keys.mp (by simpa using h)

theorem upload_effect (u : Upload) : Effect job b (.upload u) (u.step job now b).1 (u.step job now b).2 := by
  unfold Upload.step
  split
  · exact .manifest rfl rfl fun _ => trivial
  · rename_i ext left hleft
    split
    · exact .none rfl rfl id
    split
    · rename_i hseen
      refine .none rfl rfl fun ⟨hlisted, hback⟩ => ⟨fun x hx => ?_, hback⟩
      rcases mem_append.mp hx with hx | hx
      · exact hlisted x hx
      · rw [mem_singleton.mp hx]
        exact hseen
    · refine .blob ext.sha256 ext.data fun ⟨hlisted, hback⟩ => ⟨fun x hx => ?_, fun x hx => ?_⟩
      · rw [ExtTreeSet.contains_insert, or_eq_true]
        rcases mem_append.mp hx with hx | hx
        · exact .inr (hlisted x hx)
        · rw [mem_singleton.mp hx]
          exact .inl (by simp)
      · rw [ExtTreeSet.contains_insert, or_eq_true] at hx
        rw [mem_putBlob]
        rcases hx with hx | hx
        · exact .inl (by simpa using hx : ext.sha256 = x).symm
        · exact .inr (hback x hx)

theorem step_effect (at_ : ExportAt) : Effect job b at_ (at_.step job now b).1 (at_.step job now b).2 := by
  cases at_ with
  | find =>
    refine .none rfl rfl fun _ => ?_
    unfold step
    dsimp only
    split <;> trivial
  | list | mark | relist | unmark | done => exact .none rfl rfl fun _ => trivial
  | scan t left live =>
    cases left with
    | nil =>
      refine .none rfl rfl fun _ => ?_
      unfold step
      dsimp only
      split <;> trivial
    | cons n left => exact .none rfl rfl fun _ => trivial
  | listBlobs =>
    refine .none rfl rfl fun _ => ⟨nofun, fun x hx => seen_keys hx⟩
  | upload u => exact upload_effect u
  | recheck seen left stats =>
    cases left with
    | nil => exact .none rfl rfl fun _ => trivial
    | cons ext left =>
      dsimp only [step]
      split
      · exact .none rfl rfl fun _ => trivial
      · exact .blob ext.sha256 ext.data fun _ => trivial

/-- The manifest was written. -/
def Written : ExportAt → Bool
  | .relist .. | .recheck .. | .unmark (some _) | .done (some _) => true
  | _ => false

/-- Writing the manifest is the only way there. -/
theorem written_step (hnew : (at_.step job now b).1.Written = true) :
    at_.Written = true ∨ job.name ∈ (at_.step job now b).2.manifests := by
  cases at_ with
  | find =>
    dsimp only [step] at hnew
    split at hnew <;> cases hnew
  | scan t left live =>
    cases left with
    | nil =>
      dsimp only [step] at hnew
      split at hnew <;> cases hnew
    | cons n left => cases hnew
  | upload u =>
    dsimp only [step] at hnew ⊢
    unfold Upload.step at hnew ⊢
    split
    · refine .inr ?_
      rw [putManifest, mem_insert]
      exact .inl ReflCmp.compare_self
    · rename_i ext left hleft
      rw [hleft] at hnew
      dsimp only at hnew
      split at hnew
      · cases hnew
      split at hnew <;> cases hnew
  | relist | recheck => exact .inl rfl
  | unmark result => exact .inl (by cases result <;> first | rfl | cases hnew)
  | done result => exact .inl hnew
  | _ => cases hnew

theorem abort_written (h : at_.abort.Written = true) : at_.Written = true := by
  cases at_ with
  | unmark result => cases result <;> first | rfl | cases h
  | done result => exact h
  | _ => cases h

end ExportAt

namespace DeleteAt

variable {name : String} {now : Nat} {b b' : Bucket} {at_ : DeleteAt}

theorem step_cases (name : String) (now : Nat) (b : Bucket) (at_ : DeleteAt) :
    (at_.step name now b).2 = b ∨ (at_.step name now b).2 = b.deleteManifest name ∨
      ∃ live blob left deleted, at_ = .free live blob left deleted ∧ (at_.step name now b).2 = b.deleteBlob blob := by
  cases at_ with
  | infos left names | manifests left live =>
    cases left with
    | nil => exact .inl rfl
    | cons n left =>
      dsimp only [step]
      split <;> exact .inl rfl
  | sweep live left deleted | scan t left found live blob _ deleted => cases left <;> exact .inl rfl
  | remove => exact .inr (.inl rfl)
  | free live blob left deleted => exact .inr (.inr ⟨live, blob, left, deleted, rfl, rfl⟩)
  | _ => exact .inl rfl

/-- `live` has every blob that a manifest names. -/
def Names (b : Bucket) (live : BTreeSet String) : Prop :=
  ∀ (n : String) m, b.manifests[n]? = some m → ∀ x ∈ m.extents, live.contains x.sha256 = true

/-- Since the listing, `at_` accounts for every manifest of the bucket. -/
def Covers (b : Bucket) : DeleteAt → Prop
  | .list | .done _ => True
  | .infos left names => ∀ (n : String) m, b.manifests[n]? = some m → n ∈ left ∨ n ∈ names
  | .manifests left live => ∀ (n : String) m, b.manifests[n]? = some m →
      n ∈ left ∨ ∀ x ∈ m.extents, live.contains x.sha256 = true
  | .listBlobs live | .sweep live .. => Names b live
  | .markers live blob .. | .scan _ _ _ live blob .. | .free live blob .. =>
    Names b live ∧ live.contains blob = false
  | _ => False

theorem Covers.mono (h : at_.Covers b) (hfew : b.Fewer b') : at_.Covers b' := by
  cases at_ <;> first
    | exact h
    | exact fun n m hm => h n m (hfew n m hm)
    | exact ⟨fun n m hm => h.1 n m (hfew n m hm), h.2⟩

theorem Covers.step (h : at_.Covers b) (hnamed : ∀ (n : String) m, b.manifests[n]? = some m → m.name = n) :
    (at_.step name now b).1.Covers (at_.step name now b).2 := by
  cases at_ with
  | find | remove => exact h.elim
  | list =>
    intro n m hm
    have hm : b.manifests[n]? = some m := hm
    exact .inl (mem_keys.mpr (mem_iff_isSome_getElem?.mpr (by rw [hm]; rfl)))
  | infos left names =>
    cases left with
    | nil => exact fun n m hm => .inl ((h n m hm).resolve_left (by simp))
    | cons k left =>
      dsimp only [DeleteAt.step]
      split
      · trivial
      · rename_i m0 hread
        intro n m hm
        obtain ⟨hm0, -⟩ := filter_eq_some_iff.mp hread
        rcases h n m hm with hn | hn
        · rcases mem_cons.mp hn with rfl | hn
          · exact .inr (mem_append_right _ (by rw [hnamed _ _ hm0]; simp))
          · exact .inl hn
        · exact .inr (mem_append_left _ hn)
  | manifests left live =>
    cases left with
    | nil => exact fun n m hm => (h n m hm).resolve_left (by simp)
    | cons k left =>
      dsimp only [DeleteAt.step]
      split
      · trivial
      · rename_i m0 hread
        intro n m hm
        obtain ⟨hm0, -⟩ := filter_eq_some_iff.mp hread
        rcases h n m hm with hn | hn
        · rcases mem_cons.mp hn with rfl | hn
          · obtain rfl := mem_unique hm hm0
            refine .inr fun x hx => ?_
            rw [ExtTreeSet.contains_insertMany_list, or_eq_true]
            exact .inr (by simpa using ⟨x, hx, rfl⟩)
          · exact .inl hn
        · refine .inr fun x hx => ?_
          rw [ExtTreeSet.contains_insertMany_list, or_eq_true]
          exact .inl (hn x hx)
  | listBlobs | markers => exact h
  | sweep live left deleted =>
    cases left with
    | nil => trivial
    | cons blob left =>
      dsimp only [DeleteAt.step]
      split
      · exact h
      · rename_i hnot
        exact ⟨h, eq_false_iff.mpr hnot⟩
  | scan t names found live blob left deleted =>
    cases names with
    | nil =>
      dsimp only [DeleteAt.step]
      split
      · exact h
      · trivial
    | cons n names => exact h
  | free live blob left deleted => exact h.1
  | done result => trivial

end DeleteAt

/-! ### All calls -/

namespace Exports

variable {s : Exports}

/-- No export is in progress. -/
def Quiet (s : Exports) : Prop := ∀ job at_, .exportSnapshot job at_ ∈ s.calls → at_.running = false

/-- The call is no export in progress. -/
def idle : ExportCall → Bool
  | .exportSnapshot _ at_ => !at_.running
  | .deleteExport .. => true

instance (s : Exports) : Decidable s.Quiet :=
  decidable_of_iff (∀ c ∈ s.calls, idle c = true)
    ⟨fun h _ _ hc => (Bool.not_eq_true' _).mp (h _ hc), fun h c hc => match c with
      | .exportSnapshot job at_ => (Bool.not_eq_true' _).mpr (h job at_ hc)
      | .deleteExport .. => rfl⟩

structure Inv (s : Exports) : Prop where
  complete : s.bucket.Complete
  named : ∀ (name : String) m, s.bucket.manifests[name]? = some m → m.name = name
  backed : ∀ job at_, .exportSnapshot job at_ ∈ s.calls → at_.Backed s.bucket
  written : ∀ job at_, .exportSnapshot job at_ ∈ s.calls → at_.Written = true →
    job.name ∈ s.bucket.manifests ∨ ∃ at', .deleteExport job.name at' ∈ s.calls

/-- A call about to free a blob may do so. -/
def MayFree (s : Exports) (call : Nat) : Prop :=
  ∀ name live blob left deleted, s.calls[call]? = some (.deleteExport name (.free live blob left deleted)) →
    s.Quiet ∧ (DeleteAt.free live blob left deleted).Covers s.bucket

variable {at_ : ExportAt}

theorem backed_mono {b b' : Bucket} (h : at_.Backed b) (hblobs : ∀ x ∈ b.blobs, x ∈ b'.blobs) : at_.Backed b' := by
  cases at_ with
  | upload u => exact ⟨h.1, fun x hx => hblobs x (h.2 x hx)⟩
  | _ => trivial

variable {call : Nat} {c : ExportCall}

theorem mem_set_or {calls : List ExportCall} {new : ExportCall} (hc : c ∈ calls) :
    c ∈ calls.set call new ∨ calls[call]? = some c := by
  obtain ⟨i, hi, rfl⟩ := mem_iff_getElem.mp hc
  by_cases heq : i = call
  · exact .inr (heq ▸ getElem?_eq_getElem hi)
  · refine .inl (mem_iff_getElem.mpr ⟨i, by simpa using hi, ?_⟩)
    rw [getElem_set_ne (Ne.symm heq)]

theorem Inv.exportStep {job : ExportJob} (now : Nat) (h : s.Inv)
    (hcall : s.calls[call]? = some (.exportSnapshot job at_)) :
    Inv ⟨(at_.step job now s.bucket).2, s.calls.set call (.exportSnapshot job (at_.step job now s.bucket).1)⟩ := by
  have hmem : .exportSnapshot job at_ ∈ s.calls := mem_of_getElem? hcall
  have hwritten := @ExportAt.written_step job now s.bucket at_
  have heffect := @ExportAt.step_effect job now s.bucket at_
  generalize (at_.step job now s.bucket).2 = b' at heffect hwritten ⊢
  generalize (at_.step job now s.bucket).1 = next at heffect hwritten ⊢
  have hgrow : (∀ x ∈ s.bucket.blobs, x ∈ b'.blobs) ∧
      (∀ x ∈ s.bucket.manifests, x ∈ b'.manifests) ∧ next.Backed b' ∧ b'.Complete ∧
      ∀ (name : String) m, b'.manifests[name]? = some m → m.name = name := by
    have hback := h.backed job at_ hmem
    cases heffect with
    | none hm hb hnext =>
      refine ⟨fun x hx => hb ▸ hx, fun x hx => hm ▸ hx, ?_, ?_, fun name m hm' => ?_⟩
      · exact backed_mono (hnext hback) fun x hx => hb ▸ hx
      · exact h.complete.mono (fun n m hm' => hm ▸ hm') fun x hx => hb ▸ hx
      · exact h.named name m (hm ▸ hm')
    | blob sha data hnext =>
      have hblobs : ∀ x ∈ s.bucket.blobs, x ∈ (s.bucket.putBlob sha data).blobs := fun x hx => mem_putBlob.mpr (.inr hx)
      exact ⟨hblobs, fun x hx => hx, hnext hback, h.complete.mono (fun n m hm => hm) hblobs, h.named⟩
    | manifest hname hext hnext =>
      refine ⟨fun x hx => hx, fun x hx => ?_, hnext _, ?_, fun name m' hm' => ?_⟩
      · exact mem_insert.mpr (.inr hx)
      · refine h.complete.putManifest fun x hx => ?_
        rw [hext] at hx
        exact hback.2 _ (hback.1 x hx)
      · rcases Program.getElem?_of_insert hm' with ⟨rfl, rfl⟩ | hm'
        · rfl
        · exact h.named name m' hm'
  obtain ⟨hblobs, hmanifests, hnext, hcomplete, hnamed⟩ := hgrow
  have hdeletes : ∀ {n : String}, (∃ at', .deleteExport n at' ∈ s.calls) →
      ∃ at', .deleteExport n at' ∈ s.calls.set call (.exportSnapshot job next) := by
    rintro n ⟨at', hat'⟩
    refine ⟨at', (mem_set_or hat').resolve_right fun heq => ?_⟩
    rw [hcall] at heq
    cases heq
  refine ⟨hcomplete, hnamed, fun j a ha => ?_, fun j a ha hw => ?_⟩
  · rcases mem_or_eq_of_mem_set ha with ha | heq
    · exact backed_mono (h.backed j a ha) hblobs
    · cases heq
      exact hnext
  · rcases mem_or_eq_of_mem_set ha with ha | heq
    · exact (h.written j a ha hw).imp (hmanifests _) hdeletes
    · cases heq
      rcases hwritten hw with hold | hnew
      · exact (h.written job at_ hmem hold).imp (hmanifests _) hdeletes
      · exact .inl hnew

variable {name : String}

theorem Inv.deleteStep {at_ : DeleteAt} (now : Nat) (h : s.Inv)
    (hcall : s.calls[call]? = some (.deleteExport name at_)) (hfree : s.MayFree call) :
    Inv ⟨(at_.step name now s.bucket).2, s.calls.set call (.deleteExport name (at_.step name now s.bucket).1)⟩ := by
  have hexports : ∀ {job a}, .exportSnapshot job a ∈
      s.calls.set call (.deleteExport name (at_.step name now s.bucket).1) → .exportSnapshot job a ∈ s.calls := by
    intro job a ha
    rcases mem_or_eq_of_mem_set ha with ha | heq
    · exact ha
    · cases heq
  have hself : .deleteExport name (at_.step name now s.bucket).1 ∈
      s.calls.set call (.deleteExport name (at_.step name now s.bucket).1) := by
    obtain ⟨hlt, -⟩ := List.getElem?_eq_some_iff.mp hcall
    exact mem_set hlt _
  have hdeletes : ∀ {n : String}, (∃ at', .deleteExport n at' ∈ s.calls) → ∃ at', .deleteExport n at' ∈
      s.calls.set call (.deleteExport name (at_.step name now s.bucket).1) := by
    rintro n ⟨at', hat'⟩
    rcases mem_set_or hat' with hat' | heq
    · exact ⟨at', hat'⟩
    · rw [hcall] at heq
      cases heq
      exact ⟨_, hself⟩
  rcases DeleteAt.step_cases name now s.bucket at_ with heq | heq | ⟨live, blob, left, deleted, rfl, heq⟩
  · rw [heq]
    exact ⟨h.complete, h.named, fun j a ha => h.backed j a (hexports ha),
      fun j a ha hw => (h.written j a (hexports ha) hw).imp_right hdeletes⟩
  · rw [heq]
    refine ⟨h.complete.mono fewer_deleteManifest fun x hx => hx, fun n m hm => ?_,
      fun j a ha => h.backed j a (hexports ha), fun j a ha hw => ?_⟩
    · exact h.named n m (fewer_deleteManifest n m hm)
    · by_cases hname : j.name = name
      · exact .inr ⟨_, by rw [hname]; exact hself⟩
      · refine (h.written j a (hexports ha) hw).imp (fun hm => ?_) hdeletes
        rw [deleteManifest, mem_erase]
        exact ⟨fun heq' => hname (LawfulEqCmp.compare_eq_iff_eq.mp heq').symm, hm⟩
  · obtain ⟨hquiet, hnames, hblob⟩ := hfree name live blob left deleted hcall
    rw [heq]
    refine ⟨fun n m hm x hx => ?_, h.named, fun j a ha => ?_,
      fun j a ha hw => (h.written j a (hexports ha) hw).imp_right hdeletes⟩
    · rw [deleteBlob, mem_erase]
      refine ⟨fun heq' => ?_, h.complete n m hm x hx⟩
      have hlive := hnames n m hm x hx
      rw [← LawfulEqCmp.compare_eq_iff_eq.mp heq', hblob] at hlive
      cases hlive
    · have hidle := hquiet j a (hexports ha)
      cases a with
      | upload u => cases hidle
      | _ => trivial

variable {f : ExportCall → ExportCall}

theorem mem_modify {calls : List ExportCall} (hc : c ∈ calls.modify call f) : c ∈ calls ∨ ∃ c0 ∈ calls, c = f c0 := by
  obtain ⟨i, hi⟩ := mem_iff_getElem?.mp hc
  rw [getElem?_modify] at hi
  obtain ⟨c0, hc0, heq⟩ := map_eq_some_iff.mp hi
  have hmem := mem_of_getElem? hc0
  split at heq
  · exact .inr ⟨c0, hmem, heq.symm⟩
  · exact .inl (heq ▸ hmem)

/-- A stop keeps the invariant when it leaves deletions deletions and lets no export go further. -/
theorem Inv.modify (h : s.Inv) (call : Nat)
    (hdelete : ∀ name at_, ∃ at', f (.deleteExport name at_) = .deleteExport name at')
    (hexport : ∀ job at_, ∃ at', f (.exportSnapshot job at_) = .exportSnapshot job at' ∧
      (at_.Backed s.bucket → at'.Backed s.bucket) ∧ (at'.Written = true → at_.Written = true)) :
    Inv { s with calls := s.calls.modify call f } := by
  have hexports : ∀ {job a}, .exportSnapshot job a ∈ s.calls.modify call f → ∃ a0, .exportSnapshot job a0 ∈ s.calls ∧
      (a0.Backed s.bucket → a.Backed s.bucket) ∧ (a.Written = true → a0.Written = true) := by
    intro job a ha
    rcases mem_modify ha with ha | ⟨c0, hc0, heq⟩
    · exact ⟨a, ha, id, id⟩
    · cases c0 with
      | exportSnapshot job0 a0 =>
        obtain ⟨a', hf, hrest⟩ := hexport job0 a0
        rw [hf] at heq
        cases heq
        exact ⟨a0, hc0, hrest⟩
      | deleteExport name a0 =>
        obtain ⟨a', hf⟩ := hdelete name a0
        rw [hf] at heq
        cases heq
  have hdeletes : ∀ {n : String}, (∃ at', .deleteExport n at' ∈ s.calls) →
      ∃ at', .deleteExport n at' ∈ s.calls.modify call f := by
    rintro n ⟨at', hat'⟩
    obtain ⟨i, hi⟩ := mem_iff_getElem?.mp hat'
    obtain ⟨at'', hf⟩ := hdelete n at'
    have hi' : (s.calls.modify call f)[i]? = some (.deleteExport n (if call = i then at'' else at')) := by
      rw [getElem?_modify, hi]
      split <;> simp [*]
    exact ⟨_, mem_of_getElem? hi'⟩
  refine ⟨h.complete, h.named, fun j a ha => ?_, fun j a ha hw => ?_⟩
  · obtain ⟨a0, ha0, hback, -⟩ := hexports ha
    exact hback (h.backed j a0 ha0)
  · obtain ⟨a0, ha0, -, hwritten⟩ := hexports ha
    exact (h.written j a0 ha0 (hwritten hw)).imp_right hdeletes

theorem Inv.append (h : s.Inv)
    (hc : ∀ job at_, c = .exportSnapshot job at_ → at_.Backed s.bucket ∧ at_.Written = false) :
    Inv { s with calls := s.calls ++ [c] } := by
  refine ⟨h.complete, h.named, fun j a ha => ?_, fun j a ha hw => ?_⟩
  · rcases mem_append.mp ha with ha | ha
    · exact h.backed j a ha
    · exact (hc j a (mem_singleton.mp ha).symm).1
  · rcases mem_append.mp ha with ha | ha
    · exact (h.written j a ha hw).imp_right fun ⟨at', hat'⟩ => ⟨at', mem_append_left _ hat'⟩
    · rw [(hc j a (mem_singleton.mp ha).symm).2] at hw
      cases hw

theorem Inv.step (h : s.Inv) (event : Event)
    (hfree : ∀ call now, event = .step call now → s.MayFree call) : (s.step event).Inv := by
  cases event with
  | exportSnapshot job =>
    refine h.append fun job at_ heq => ?_
    split at heq <;> cases heq <;> exact ⟨trivial, rfl⟩
  | deleteExport name => exact h.append fun job at_ heq => by cases heq
  | step call now =>
    dsimp only [Exports.step]
    cases hcall : s.calls[call]? with
    | none => exact h
    | some c =>
      cases c with
      | exportSnapshot job at_ => exact h.exportStep now hcall
      | deleteExport name at_ => exact h.deleteStep now hcall (hfree call now rfl)
  | abort call =>
    refine h.modify call (fun name at_ => ⟨_, rfl⟩) fun job at_ =>
      ⟨_, rfl, fun _ => ?_, ExportAt.abort_written⟩
    cases at_ <;> trivial
  | kill call =>
    refine h.modify call (fun name at_ => ⟨_, rfl⟩) fun job at_ => ?_
    cases at_ with
    | done result => exact ⟨_, rfl, id, id⟩
    | _ => exact ⟨_, rfl, fun _ => trivial, fun hw => by cases hw⟩

/-! ### Since the listing -/

/-- Call `call` deletes `name` and, since it listed the manifests, accounts for every one of them. -/
def Listed (s : Exports) (call : Nat) (name : String) : Prop :=
  ∃ at_, s.calls[call]? = some (.deleteExport name at_) ∧ at_.Covers s.bucket

theorem fewer_exportStep {job : ExportJob} (now : Nat) {b : Bucket} (hidle : at_.running = false) :
    b.Fewer (at_.step job now b).2 := by
  have heffect := @ExportAt.step_effect job now b at_
  generalize (at_.step job now b).2 = b' at heffect ⊢
  generalize (at_.step job now b).1 = next at heffect
  cases heffect with
  | none hm hb hnext => exact fun n m hm' => hm ▸ hm'
  | blob sha data hnext => exact fun n m hm' => hm'
  | manifest hname hext hnext => cases hidle

theorem fewer_deleteStep (at_ : DeleteAt) (now : Nat) (b : Bucket) : b.Fewer (at_.step name now b).2 := by
  rcases DeleteAt.step_cases name now b at_ with heq | heq | ⟨live, blob, left, deleted, -, heq⟩
  · rw [heq]
    exact fun n m hm => hm
  · rw [heq]
    exact fewer_deleteManifest
  · rw [heq]
    exact fun n m hm => hm

/-- Only an export in progress puts a manifest. -/
theorem fewer_step (hquiet : s.Quiet) (event : Event) : s.bucket.Fewer (s.step event).bucket := by
  cases event with
  | step call now =>
    dsimp only [Exports.step]
    cases hcall : s.calls[call]? with
    | none => exact fun n m hm => hm
    | some c =>
      cases c with
      | exportSnapshot job at_ =>
        exact fewer_exportStep now (hquiet job at_ (mem_of_getElem? hcall))
      | deleteExport name at_ => exact fewer_deleteStep at_ now s.bucket
  | _ => exact fun n m hm => hm

theorem Listed.stop (h : s.Listed call name) (i : Nat)
    (hf : ∀ name at_, f (.deleteExport name at_) = .deleteExport name (.done none)) :
    Listed { s with calls := s.calls.modify i f } call name := by
  obtain ⟨at_, hcall, hcovers⟩ := h
  by_cases hi : i = call
  · refine ⟨.done none, ?_, trivial⟩
    rw [hi, getElem?_modify_eq, hcall]
    exact congrArg some (hf name at_)
  · refine ⟨at_, ?_, hcovers⟩
    rw [getElem?_modify_ne _ _ hi]
    exact hcall

theorem Listed.step (h : s.Listed call name) (hquiet : s.Quiet)
    (hnamed : ∀ (n : String) m, s.bucket.manifests[n]? = some m → m.name = n) (event : Event) :
    (s.step event).Listed call name := by
  have hfew := fewer_step hquiet event
  obtain ⟨at_, hcall, hcovers⟩ := id h
  obtain ⟨hlt, -⟩ := List.getElem?_eq_some_iff.mp hcall
  cases event with
  | exportSnapshot | deleteExport =>
    exact ⟨at_, (getElem?_append_left hlt).trans hcall, hcovers⟩
  | step i now =>
    dsimp only [Exports.step] at hfew ⊢
    by_cases hi : i = call
    · rw [hi, hcall]
      exact ⟨_, getElem?_set_self hlt, hcovers.step hnamed⟩
    · cases hc : s.calls[i]? with
      | none => exact h
      | some c =>
        rw [hc] at hfew
        exact ⟨at_, (getElem?_set_ne hi).trans hcall, hcovers.mono hfew⟩
  | abort i | kill i => exact h.stop i fun _ _ => rfl

theorem run_append (events later : List Event) :
    run (events ++ later) = later.foldl Exports.step (run events) := foldl_append

/-- After `events`, call `call` has listed the manifests that remained beside the one of `name`, and
from just before the listing on no export was in progress at any moment. -/
def ListedAlone (events : List Event) (call : Nat) (name : String) : Prop :=
  ∃ before since, events = before ++ since ∧
    (run before).calls[call]? = some (.deleteExport name .list) ∧
    ∀ part, part <+: since → (run (before ++ part)).Quiet

/-- The call that frees a blob at `event`, and the export it deletes. -/
def frees (s : Exports) : Event → Option (Nat × String)
  | .step call _ =>
    match s.calls[call]? with
    | some (.deleteExport name (.free ..)) => some (call, name)
    | _ => none
  | _ => none

/-- Whenever a deletion frees a blob, no export was in progress since it listed the manifests. -/
def Guarded (events : List Event) : Prop :=
  ∀ before event after, events = before ++ event :: after →
    ∀ call name, (run before).frees event = some (call, name) → ListedAlone before call name

variable {events : List Event}

theorem Guarded.before {later : List Event} (h : Guarded (events ++ later)) : Guarded events := by
  intro before event after heq
  exact h before event (after ++ later) (by rw [heq]; simp)

theorem listed_of_alone (hinv : ∀ part, part <+: events → (run part).Inv) (halone : ListedAlone events call name) :
    (run events).Quiet ∧ (run events).Listed call name := by
  obtain ⟨before, since, rfl, hlist, hquiet⟩ := halone
  refine ⟨hquiet since prefix_rfl, ?_⟩
  induction since using reverseRecOn with
  | nil =>
    rw [append_nil]
    exact ⟨.list, hlist, trivial⟩
  | append_singleton since event ih =>
    have hsince : since <+: since ++ [event] := prefix_append _ _
    have hpart : before ++ since <+: before ++ (since ++ [event]) := (prefix_append_right_inj before).mpr hsince
    have hlisted := ih (fun part hp => hinv part (hp.trans hpart)) fun part hp => hquiet part (hp.trans hsince)
    rw [← append_assoc, run_append]
    exact hlisted.step (hquiet since hsince) (hinv _ hpart).named event

theorem run_inv (h : Guarded events) : ∀ part, part <+: events → (run part).Inv := by
  induction events using reverseRecOn with
  | nil =>
    intro part hpart
    rw [prefix_nil.mp hpart]
    exact ⟨fun n m hm => by simp [run] at hm, fun n m hm => by simp [run] at hm, nofun, nofun⟩
  | append_singleton events event ih =>
    intro part hpart
    have hbefore := ih h.before
    rcases prefix_concat_iff.mp hpart with rfl | hpart
    · rw [run_append]
      refine (hbefore events prefix_rfl).step event fun call now heq => ?_
      intro name live blob left deleted hcall
      have halone := h events event [] rfl call name (by rw [heq, frees, hcall])
      obtain ⟨hquiet, at_, hat, hcovers⟩ := listed_of_alone hbefore halone
      rw [hcall] at hat
      cases hat
      exact ⟨hquiet, hcovers⟩
    · exact hbefore part hpart

/-- An export that returned a result and that nobody asked to delete has its manifest, and every
blob that the manifest names. -/
def Intact (s : Exports) : Prop :=
  ∀ job stats, .exportSnapshot job (.done (some stats)) ∈ s.calls →
    (∀ at_, .deleteExport job.name at_ ∉ s.calls) →
    ∃ m, s.bucket.manifests[job.name]? = some m ∧ ∀ x ∈ m.extents, x.sha256 ∈ s.bucket.blobs

theorem completed_export_intact (events : List Event) (h : Guarded events) :
    ∀ part, part <+: events → (run part).Intact := by
  intro part hpart job stats hdone hkept
  have hinv := run_inv h part hpart
  have hin : job.name ∈ (run part).bucket.manifests :=
    (hinv.written job _ hdone rfl).resolve_right fun ⟨at_, hat⟩ => hkept at_ hat
  obtain ⟨m, hm⟩ := isSome_iff_exists.mp (mem_iff_isSome_getElem?.mp hin)
  exact ⟨m, hm, hinv.complete job.name m hm⟩

/-- A run that frees at one moment only is guarded if a listing with no export in progress since
precedes that moment. -/
theorem Guarded.of_once (freed listed call : Nat) (name : String)
    (honce : ∀ i < events.length, i ≠ freed → events[i]?.bind (run (events.take i)).frees = none)
    (hfreed : events[freed]?.bind (run (events.take freed)).frees = some (call, name))
    (hle : listed ≤ freed)
    (hlisted : (run (events.take listed)).calls[call]? = some (.deleteExport name .list))
    (hquiet : ∀ i ≤ freed, listed ≤ i → (run (events.take i)).Quiet) : Guarded events := by
  intro before event after heq c n hfrees
  have htake : events.take before.length = before := by rw [heq, take_left]
  have hget : events[before.length]? = some event := by simp [heq]
  have hbind : events[before.length]?.bind (run (events.take before.length)).frees = some (c, n) := by
    rw [htake, hget]
    exact hfrees
  have hlen : before.length = freed := by
    by_contra hne
    have hlt : before.length < events.length := by simp [heq]
    rw [honce _ hlt hne] at hbind
    cases hbind
  rw [hlen, hfreed] at hbind
  cases hbind
  have hsplit : before = events.take listed ++ (events.drop listed).take (freed - listed) := by
    rw [← take_add, Nat.add_sub_cancel' hle, ← hlen, htake]
  refine ⟨_, _, hsplit, hlisted, fun part hpart => ?_⟩
  have hlong : part.length ≤ freed - listed := hpart.length_le.trans (length_take_le _ _)
  have hpart' : events.take listed ++ part = events.take (listed + part.length) := by
    have heq' := prefix_iff_eq_take.mp (hpart.trans (List.take_prefix _ _))
    rw [take_add, ← heq']
  rw [hpart']
  exact hquiet _ (by omega) (by omega)

/-- A snapshot with an extent for each blob of `blobs`. -/
def jobOf (name : String) (blobs : List String) : ExportJob :=
  ⟨name, "s", "s", 8, blobs.map fun sha => ⟨0, 1, sha, [1]⟩⟩

def steps (call n : Nat) : List Event := List.replicate n (.step call 0)

/-- Two exports share blob `x`. The first is deleted, which frees its own blob `y`. -/
def keptRun : List Event :=
  .exportSnapshot (jobOf "a" ["x", "y"]) :: steps 0 11 ++
    .exportSnapshot (jobOf "b" ["x"]) :: steps 1 11 ++ .deleteExport "a" :: steps 2 14

theorem keptRun_guarded : Guarded keptRun := by
  refine Guarded.of_once 37 27 2 "a" ?_ ?_ ?_ ?_ ?_ <;> decide +kernel

theorem keptRun_intact : Guarded keptRun ∧ (run keptRun).Intact ∧
    (run keptRun).bucket.blobs.keys = ["x"] :=
  ⟨keptRun_guarded, completed_export_intact keptRun keptRun_guarded _ prefix_rfl, by decide +kernel⟩

/-- A deletion has found no marker and is about to free blob `x` when another export begins, finds
the blob in the bucket and reuses it. -/
def racedRun : List Event :=
  .exportSnapshot (jobOf "a" ["x"]) :: steps 0 10 ++ .deleteExport "a" :: steps 1 9 ++
    .exportSnapshot (jobOf "b" ["x"]) :: steps 2 11 ++ steps 1 1

/-- Export `b` succeeded and nobody deletes it, and the blob it lists is gone. -/
theorem raced_blob_freed : ¬ (run racedRun).Intact := by
  intro h
  have hcalls : (run racedRun).calls =
      [.exportSnapshot (jobOf "a" ["x"]) (.done (some ⟨1, 1, 0, 1⟩)), .deleteExport "a" (.sweep ∅ [] 1),
        .exportSnapshot (jobOf "b" ["x"]) (.done (some ⟨1, 0, 1, 0⟩))] := by decide +kernel
  have hmanifest : (run racedRun).bucket.manifests["b"]? =
      some ⟨1, "b", "s", "s", 8, 0, [⟨0, 1, "x"⟩]⟩ := by decide +kernel
  have hgone : "x" ∉ (run racedRun).bucket.blobs := by decide +kernel
  obtain ⟨m, hm, hblobs⟩ := h (jobOf "b" ["x"]) ⟨1, 0, 1, 0⟩ (by simp [hcalls]) (by simp [hcalls, jobOf])
  obtain rfl := mem_unique hmanifest hm
  exact hgone (hblobs ⟨0, 1, "x"⟩ mem_cons_self)

end Exports

end AtlasNative
