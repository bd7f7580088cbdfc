import AtlasNative.Csi.Controller

/-!
# Capacity

A quota is read, judged and written back in separate requests. Where an expand is alone on its volume,
a create is tried again only before the first expand, and no write of a quota is taken late, what a
call has reported stays granted: nobody writes a quota below a limit that was reported. The inode limit
is written back as it was read, and nobody changes it.
-/

namespace AtlasNative.Csi

open Program Rules List Cluster Pool

variable {T : Type} {s s' t : Cluster T}

/-- A byte limit of `n` or more. -/
def atLeast (n : Nat) (limit : Option Nat) : Prop := ∃ m ∈ limit, n ≤ m

/-- Filesystems stay, with their inode limits; those that are not `free` keep their quotas, and byte
limits of `n` or more stay so where `keeps n`. -/
def Moves (free : String → Prop) (keeps : Nat → Prop) (s s' : Cluster T) : Prop :=
  ∀ id f, s.filesystems id = some f → ∃ f', s'.filesystems id = some f' ∧
    f'.quota.maxInodes = f.quota.maxInodes ∧ (¬ free id → f'.quota = f.quota) ∧
    ∀ n, keeps n → atLeast n f.quota.maxBytes → atLeast n f'.quota.maxBytes

variable {id : String} {free free' : String → Prop} {keeps keeps' : Nat → Prop}

namespace Moves

theorem of_eq (h : s'.filesystems = s.filesystems) : Moves free keeps s s' := fun _ f hf =>
  ⟨f, by rw [h, hf], rfl, fun _ => rfl, fun _ _ hn => hn⟩

theorem refl (s : Cluster T) : Moves free keeps s s := of_eq rfl

theorem trans (h : Moves free keeps s s') (h' : Moves free keeps s' t) : Moves free keeps s t := fun id f hf => by
  obtain ⟨f', hf', hinodes, hquota, hkeep⟩ := h id f hf
  obtain ⟨f'', hf'', hinodes', hquota', hkeep'⟩ := h' id f' hf'
  exact ⟨f'', hf'', hinodes'.trans hinodes, fun hid => (hquota' hid).trans (hquota hid),
    fun n hn hf => hkeep' n hn (hkeep n hn hf)⟩

theorem mono (h : Moves free keeps s s') (hfree : ∀ id, free id → free' id) (hkeeps : ∀ n, keeps' n → keeps n) :
    Moves free' keeps' s s' := fun id f hf => by
  obtain ⟨f', hf', hinodes, hquota, hkeep⟩ := h id f hf
  exact ⟨f', hf', hinodes, fun hid => hquota fun h => hid (hfree id h), fun n hn => hkeep n (hkeeps n hn)⟩

theorem putFs {g : Fs T} (h : ∀ f, s.filesystems id = some f →
    g.quota.maxInodes = f.quota.maxInodes ∧ (¬ free id → g.quota = f.quota) ∧
      ∀ n, keeps n → atLeast n f.quota.maxBytes → atLeast n g.quota.maxBytes) :
    Moves free keeps s (s.putFs id (some g)) := fun i f hf => by
  by_cases hi : i = id
  · subst hi
    exact ⟨g, if_pos rfl, h f hf⟩
  · exact ⟨f, (if_neg hi).trans hf, rfl, fun _ => rfl, fun _ _ hn => hn⟩

end Moves

/-- The filesystem has a byte limit of `n` or more. -/
def Grants (s : Cluster T) (id : String) (n : Nat) : Prop :=
  ∃ f, s.filesystems id = some f ∧ atLeast n f.quota.maxBytes

theorem Grants.moves {n : Nat} (h : Grants s id n) (hmoves : Moves free keeps s s')
    (hn : free id → keeps n) : Grants s' id n := by
  obtain ⟨f, hf, hlimit⟩ := h
  obtain ⟨f', hf', -, hquota, hkeep⟩ := hmoves id f hf
  refine ⟨f', hf', ?_⟩
  by_cases hid : free id
  · exact hkeep n (hn hid) hlimit
  · rw [hquota hid]
    exact hlimit

/-! ### Calls and their volumes -/

variable {hex : String → String}

namespace Call

/-- Calls that are about sizes, and late attempts of their requests. -/
def sizing : Call T → Bool
  | .createVolume _ | .expandVolume _ | .late _ => true
  | _ => false

/-- The volume whose size the call is about. -/
def volume (hex : String → String) : Call T → Option String
  | .createVolume req => some (objectId hex req.name)
  | .expandVolume req => some req.volumeId
  | _ => none

def isExpand : Call T → Bool
  | .expandVolume _ => true
  | _ => false

/-- The limits that the call does not take away: a create writes its own, whatever it meets. -/
def spares : Call T → Nat → Prop
  | .createVolume req, n =>
    ∃ l, requested req.capacityRange = .ok l ∧ (req.enforce ∧ 0 < l) ∧ n ≤ l
  | _, _ => True

end Call

/-- What a call does to the cluster with one request. -/
abbrev Does (hex : String → String) (c : Call T) : Cluster T → Cluster T → Prop :=
  Moves (c.volume hex = some ·) c.spares

/-- What it lets others do: an expand is alone on its volume. -/
abbrev Lets (hex : String → String) (c : Call T) : Cluster T → Cluster T → Prop :=
  Moves (fun id => ¬ (c.isExpand ∧ c.volume hex = some id)) fun _ => False

/-! ### Requests -/

variable {c : Call T}

/-- A request that a call for sizes makes: no filesystem is deleted, and a quota is written for the
call's volume, with its inode limit and no smaller limit than the call keeps. -/
def Apt (hex : String → String) (c : Call T) (s : Cluster T) : Req T → Prop
  | .deleteFs _ => False
  | .putQuota id q => c.volume hex = some id ∧ ∀ f, s.filesystems id = some f →
      q.maxInodes = f.quota.maxInodes ∧
        ∀ n, c.spares n → atLeast n f.quota.maxBytes → atLeast n q.maxBytes
  | _ => True

variable {r : Req T}

/-- No write of a quota is taken late. -/
def Cluster.prompt (s : Cluster T) (x : Delivery) : Req T → Bool
  | .again k => match x.fate, s.sent[k]? with
    | .failed _, _ => true
    | _, some (.putQuota ..) => false
    | _, _ => true
  | _ => true

theorem found {k : Fs T → Except ClientError (Cluster T)} (h : s.filesystem id >>= k = .ok s') :
    ∃ f, s.filesystems id = some f ∧ k f = .ok s' := by
  unfold filesystem at h
  cases hf : s.filesystems id with
  | none => rw [hf] at h; cases h
  | some f => rw [hf] at h; exact ⟨f, rfl, h⟩

theorem does_apply [Inhabited T] {now : Int} (hapt : Apt hex c s r) (h : s.apply now r = .ok s') :
    Does hex c s s' ∧ s'.sent = s.sent := by
  cases r with
  | createFs id name extent =>
    simp only [apply, createFs] at h
    split at h
    · split at h <;> cases h
      exact ⟨.refl s, rfl⟩
    · rename_i hnone
      cases h
      exact ⟨.putFs fun f hf => absurd hf (by simp [hnone]), rfl⟩
  | cloneFs snapshot id name =>
    simp only [apply, cloneFs] at h
    split at h
    · split at h <;> cases h
      exact ⟨.refl s, rfl⟩
    · rename_i hnone
      split at h <;> cases h
      exact ⟨.putFs fun f hf => absurd hf (by simp [hnone]), rfl⟩
  | deleteFs id => exact hapt.elim
  | snapshotFs fs id name =>
    simp only [apply, snapshotFs] at h
    split at h
    · split at h <;> cases h
      exact ⟨.refl s, rfl⟩
    · obtain ⟨f, -, h⟩ := found h
      cases h
      exact ⟨.of_eq rfl, rfl⟩
  | deleteFsSnapshot id =>
    simp only [apply] at h
    split at h <;> cases h
    exact ⟨.of_eq rfl, rfl⟩
  | fsSnapshots | again => cases h; exact ⟨.refl s, rfl⟩
  | getQuota id =>
    obtain ⟨f, -, h⟩ := found h
    cases h
    exact ⟨.refl s, rfl⟩
  | putQuota id q =>
    obtain ⟨f, -, h⟩ := found h
    cases h
    refine ⟨.putFs fun f' hf' => ?_, rfl⟩
    exact ⟨(hapt.2 f' hf').1, fun hid => absurd hapt.1 hid, (hapt.2 f' hf').2⟩
  | write id tree =>
    obtain ⟨f, hf, h⟩ := found h
    cases h
    refine ⟨.putFs fun f' hf' => ?_, rfl⟩
    rw [hf] at hf'
    cases hf'
    exact ⟨rfl, fun _ => rfl, fun _ _ hn => hn⟩

/-- No deletion is on its way. -/
def Inv (s : Cluster T) : Prop := ∀ id, .deleteFs id ∉ s.sent

theorem Inv.send (h : Inv s) (hapt : Apt hex c s r) : Inv (s.send r) := by
  intro id hmem
  rcases mem_append.mp hmem with hmem | hmem
  · exact h id hmem
  · rw [← mem_singleton.mp hmem] at hapt
    exact hapt

variable {x : Delivery}

theorem Inv.apt_received {r' : Req T} (h : Inv s) (hapt : Apt hex c s r) (hprompt : s.prompt x r = true)
    (hfate : ∀ e, x.fate ≠ .failed e) (hreceived : s.received r = some r') : Apt hex c s r' := by
  cases r with
  | again k =>
    have hk : s.sent[k]? = some r' := hreceived
    cases r' with
    | deleteFs id => exact h id (mem_of_getElem? hk)
    | putQuota id q =>
      cases hf : x.fate with
      | failed e => exact absurd hf (hfate e)
      | taken | lost => simp [prompt, hk, hf] at hprompt
    | createFs | cloneFs | snapshotFs | deleteFsSnapshot | fsSnapshots | getQuota | write | again =>
      trivial
  | createFs | cloneFs | deleteFs | snapshotFs | deleteFsSnapshot | fsSnapshots | getQuota | putQuota
  | write => exact Option.some.inj hreceived ▸ hapt

theorem does_answer [Inhabited T] (hinv : Inv s) (hapt : Apt hex c s r) (hprompt : s.prompt x r = true) :
    Inv (s.answer x r).2 ∧ Does hex c s (s.answer x r).2 := by
  have hsend : Inv (s.send r) ∧ Does hex c s (s.send r) := ⟨hinv.send hapt, .of_eq rfl⟩
  have htake : ∀ {s'}, (∀ e, x.fate ≠ .failed e) → s.take x.nowNs r = .ok s' → Inv s' ∧ Does hex c s s' := by
    intro s' hfate htake
    unfold Cluster.take at htake
    cases hr : s.received r with
    | none => rw [hr] at htake; cases htake; exact hsend
    | some r' =>
      rw [hr] at htake
      have hapt' : Apt hex c (s.send r) r' := hinv.apt_received hapt hprompt hfate hr
      obtain ⟨hdoes, hsent⟩ := does_apply hapt' htake
      refine ⟨fun id hmem => ?_, hsend.2.trans hdoes⟩
      rw [hsent] at hmem
      exact hsend.1 id hmem
  unfold Cluster.answer
  split
  · exact htake (by simp [‹x.fate = _›]) ‹_›
  · exact hsend
  · exact htake (by simp [‹x.fate = _›]) ‹_›
  · exact hsend
  · exact hsend

/-! ### Calls -/

variable [Inhabited T] {who : Nat × Call T} {α : Type}

def rules (hex : String → String) : Rules (Rep (T := T)) (Nat × Call T) Delivery (Cluster T) where
  answer _ x r s := s.answer x r
  inv := Inv
  rely who := Lets hex who.2
  guar who _ := Does hex who.2
  may _ x r s := s.prompt x r

variable {Q : Except Status α → Cluster T → Prop}

theorem wp_ask {Q : Rep r → Cluster T → Prop}
    (h : ∀ s', Lets hex who.2 s s' → Apt hex who.2 s' r ∧ ∀ x, Q (s'.answer x r).1 (s'.answer x r).2) :
    (rules hex).wp who (ask r) Q s := by
  intro x s' hrely hinv hmay
  obtain ⟨hapt, hQ⟩ := h s' hrely
  obtain ⟨hinv', hdoes⟩ := does_answer hinv hapt hmay
  exact ⟨hinv', hdoes, hQ x⟩

theorem wp_answered {x : Client (Rep (T := T)) (Except ClientError α)} (h : (rules hex).wp who x (fun
      | .ok a => Q (.ok a)
      | .error e => Q (.error (status e))) s) : (rules hex).wp who (answered x).run Q s := by
  refine wp_bind (wp_mono (fun a s' ha => ?_) h)
  cases a with
  | ok | error => exact ha

theorem filesystems_getQuota : (s.answer x (.getQuota id)).2.filesystems = s.filesystems := by
  have htake : ∀ {s'}, s.take x.nowNs (.getQuota id) = .ok s' → s'.filesystems = s.filesystems := by
    intro s' htake
    obtain ⟨f, -, htake⟩ := found htake
    cases htake
    rfl
  unfold Cluster.answer
  split <;> first | exact htake ‹_› | rfl

theorem granted_of_ok {q : FsQuota} (h : (s.answer x (.getQuota id)).1 = .ok q) :
    ∃ f, s.filesystems id = some f ∧ f.quota = q := by
  unfold Cluster.answer at h
  split at h
  · rename_i htake
    obtain ⟨f, hf, htake⟩ := found htake
    cases htake
    refine ⟨f, hf, ?_⟩
    simp only [granted, hf] at h
    exact Except.ok.inj h
  all_goals cases h

theorem stored_of_ok {q : FsQuota} (h : (s.answer x (.putQuota id q)).1 = .ok ()) :
    ∃ f, (s.answer x (.putQuota id q)).2.filesystems id = some f ∧ f.quota = q := by
  unfold Cluster.answer at h ⊢
  split at h
  · rename_i htake
    obtain ⟨f, -, htake⟩ := found htake
    cases htake
    exact ⟨{ f with quota := q }, if_pos rfl, rfl⟩
  all_goals cases h

theorem wp_quota {Q : Except Status FsQuota → Cluster T → Prop}
    (hok : ∀ f s', Lets hex who.2 s s' → s'.filesystems id = some f → Q (.ok f.quota) s')
    (herr : ∀ e s', Q (.error e) s') : (rules hex).wp who (quota id).run Q s := by
  refine wp_answered (wp_ask fun s' hlets => ⟨trivial, fun x => ?_⟩)
  cases ha : (s'.answer x (.getQuota id)).1 with
  | ok q =>
    obtain ⟨f, hf, rfl⟩ := granted_of_ok ha
    exact hok f _ (hlets.trans (.of_eq filesystems_getQuota)) (by rw [filesystems_getQuota, hf])
  | error e => exact herr _ _

/-- The byte limit is written with the rest of the quota as it was read. -/
theorem wp_setMaxBytes {n : Option Nat} {Q : Except Status Unit → Cluster T → Prop}
    (hvolume : who.2.volume hex = some id)
    (hspare : ∀ s' f, Lets hex who.2 s s' → s'.filesystems id = some f →
      ∀ m, who.2.spares m → atLeast m f.quota.maxBytes → atLeast m n)
    (hok : ∀ s', (∃ f, s'.filesystems id = some f ∧ f.quota.maxBytes = n) → Q (.ok ()) s')
    (herr : ∀ e s', Q (.error e) s') : (rules hex).wp who (setMaxBytes id n).run Q s := by
  refine wp_bindE (wp_quota (fun f s1 hlets hf => ?_) fun e s1 => herr e s1)
  by_cases hsame : f.quota.maxBytes = n
  · simp only [if_pos hsame]
    exact hok s1 ⟨f, hf, hsame⟩
  · simp only [if_neg hsame]
    refine wp_answered (wp_ask fun s2 hlets' => ⟨⟨hvolume, fun g hg => ⟨?_, ?_⟩⟩, fun x => ?_⟩)
    · obtain ⟨g', hg', hinodes, -⟩ := hlets' id f hf
      rw [hg] at hg'
      rw [Option.some.inj hg', hinodes]
    · exact hspare s2 g (hlets.trans hlets') hg
    · cases ha : (s2.answer x (.putQuota id { f.quota with maxBytes := n })).1 with
      | ok _ =>
        obtain ⟨g, hg, hquota⟩ := stored_of_ok ha
        exact hok _ ⟨g, hg, by rw [hquota]⟩
      | error e => exact herr _ _

/-- A program that makes no decisions about sizes. -/
theorem wp_answered_any {x : Client (Rep (T := T)) (Except ClientError α)}
    (hx : (rules hex).wp who x (fun _ _ => True) s) : (rules hex).wp who (answered x).run (fun _ _ => True) s := by
  refine wp_answered (wp_mono (fun a s' ha => ?_) hx)
  cases a <;> exact ha

theorem wp_remove_any {x : Client (Rep (T := T)) (Except ClientError Unit)}
    (hx : (rules hex).wp who x (fun _ _ => True) s) : (rules hex).wp who (remove x).run (fun _ _ => True) s := by
  refine wp_bind (wp_mono (fun a s' ha => ?_) hx)
  cases a with
  | ok _ => exact ha
  | error e =>
    dsimp only
    split <;> exact ha

theorem wp_ask_any (hapt : ∀ s', Apt hex who.2 s' r) : (rules hex).wp who (ask r) (fun _ _ => True) s :=
  wp_ask fun s' _ => ⟨hapt s', fun _ => trivial⟩

theorem wp_bind_any {β : Type} {x : Asks T α} {f : α → Asks T β}
    (hx : (rules hex).wp who x.run (fun _ _ => True) s)
    (hf : ∀ a s', (rules hex).wp who (f a).run (fun _ _ => True) s') :
    (rules hex).wp who (x >>= f).run (fun _ _ => True) s := by
  refine wp_bindE (wp_mono (fun a s' _ => ?_) hx)
  cases a with
  | ok a => exact hf a s'
  | error e => trivial

theorem wp_makeFs (id : String) (r : CreateVolumeRequest) :
    (rules hex).wp who (makeFs (T := T) id r).run (fun _ _ => True) s := by
  unfold makeFs
  split
  · exact wp_answered_any (wp_ask_any fun _ => trivial)
  · split
    · exact wp_answered_any (wp_ask_any fun _ => trivial)
    · trivial
  · split
    · exact wp_bind_any (wp_answered_any (wp_ask_any fun _ => trivial)) fun _ _ =>
        wp_bind_any (wp_answered_any (wp_ask_any fun _ => trivial)) fun _ _ =>
          wp_remove_any (wp_ask_any fun _ => trivial)
    · trivial

/-- What a call has reported, and for which volume. -/
def Reports (hex : String → String) (r : Reported) : Call T → Prop
  | .createVolume req => r.id = objectId hex req.name ∧
      requested req.capacityRange = .ok r.capacityBytes ∧
      (r.enforced ↔ req.enforce ∧ 0 < r.capacityBytes)
  | .expandVolume req => r.id = req.volumeId ∧
      ∃ want, requested req.capacityRange = .ok want ∧ want ≤ r.capacityBytes
  | _ => ¬ r.enforced

/-- What a call ends with: the limit that it reports is granted. -/
def Ends (hex : String → String) (who : Nat × Call T) (out : Except Status Reported)
    (s : Cluster T) : Prop :=
  ∀ r, out = .ok r → Reports hex r who.2 ∧ (r.enforced → Grants s r.id r.capacityBytes)

omit [Inhabited T] in
theorem Ends.error {e : Status} : Ends hex who (.error e) s := fun _ h => by cases h

variable {i : Nat}

theorem wp_createVolume (req : CreateVolumeRequest) :
    (rules hex).wp (i, .createVolume req) (createVolume (T := T) hex req).run
      (Ends hex (i, .createVolume req)) s := by
  unfold createVolume
  split
  · exact Ends.error
  cases hcapacity : requested req.capacityRange with
  | error e => exact Ends.error
  | ok capacity =>
    refine wp_bindE (wp_mono (fun a s1 _ => ?_) (wp_makeFs _ req))
    cases a with
    | error e => exact Ends.error
    | ok _ =>
      refine wp_bindE (wp_setMaxBytes rfl (fun s' f _ _ n hn _ => ?_) (fun s2 hset => ?_) fun e s2 => Ends.error)
      · obtain ⟨l, hl, henforce, hle⟩ := hn
        obtain rfl : capacity = l := Except.ok.inj (hcapacity.symm.trans hl)
        rw [if_pos henforce]
        exact ⟨capacity, rfl, hle⟩
      rintro r hr
      cases hr
      by_cases henforce : req.enforce ∧ 0 < capacity
      · simp only [if_pos henforce] at hset ⊢
        obtain ⟨f, hf, hbytes⟩ := hset
        exact ⟨⟨rfl, hcapacity, by simp [henforce]⟩, fun _ => ⟨f, hf, capacity, hbytes, Nat.le_refl _⟩⟩
      · simp only [if_neg henforce]
        exact ⟨⟨rfl, hcapacity, by simp [henforce]⟩, fun h => by cases h⟩

theorem wp_raise {req : ExpandVolumeRequest} {want : Nat} (hwant : requested req.capacityRange = .ok want) :
    (rules hex).wp (i, .expandVolume req) (raise (T := T) req.volumeId want).run
      (Ends hex (i, .expandVolume req)) s := by
  refine wp_bindE (wp_quota (fun f s1 _ hf => ?_) fun e s1 => Ends.error)
  cases hcur : f.quota.maxBytes with
  | none =>
    simp only [hcur]
    rintro r hr
    cases hr
    exact ⟨⟨rfl, want, hwant, Nat.le_refl _⟩, fun h => by cases h⟩
  | some cur =>
    by_cases hle : want ≤ cur
    · simp only [hcur, if_pos hle]
      rintro r hr
      cases hr
      exact ⟨⟨rfl, want, hwant, hle⟩, fun _ => ⟨f, hf, cur, hcur, Nat.le_refl _⟩⟩
    · simp only [hcur, if_neg hle]
      refine wp_bindE (wp_setMaxBytes rfl (fun s2 g hlets hg n _ hn => ?_) (fun s2 hset => ?_) fun e s2 => Ends.error)
      · -- nobody else is at the volume, so the limit is still the one that was judged
        obtain ⟨g', hg', -, hquota, -⟩ := hlets req.volumeId f hf
        rw [hg] at hg'
        rw [Option.some.inj hg', hquota fun h => h ⟨rfl, rfl⟩, hcur] at hn
        obtain ⟨m, hm, hnm⟩ := hn
        obtain rfl := Option.some.inj hm
        exact ⟨want, rfl, by omega⟩
      rintro r hr
      cases hr
      obtain ⟨g, hg, hbytes⟩ := hset
      exact ⟨⟨rfl, want, hwant, Nat.le_refl _⟩, fun _ => ⟨g, hg, want, hbytes, Nat.le_refl _⟩⟩

theorem wp_controllerExpandVolume (req : ExpandVolumeRequest) :
    (rules hex).wp (i, .expandVolume req) (controllerExpandVolume (T := T) req).run
      (Ends hex (i, .expandVolume req)) s := by
  unfold controllerExpandVolume
  split
  · exact Ends.error
  split
  · exact Ends.error
  cases hwant : requested req.capacityRange with
  | error e => exact Ends.error
  | ok want =>
    dsimp only
    split
    · exact Ends.error
    · exact wp_raise hwant

/-! ### Runs of calls that keep apart -/

/-- What a call may find of its volume: a create only others of the same request, an expand only calls
that are over. -/
def Finds (c : Call T) (t : Thread (Rep (T := T)) (Call T) (Except Status Reported)) : Prop :=
  match c with
  | .createVolume _ => t.call = c
  | .expandVolume _ => t.rest.result.isSome
  | _ => True

/-- Only volumes are created and expanded. A create is tried again only before the first expand, an
expand comes when the other calls on its volume are over, and no write of a quota is taken late. -/
def Orderly (hex : String → String) (p : World T) : Turn (Call T) Delivery → Prop
  | .start c => c.sizing ∧ ∀ t ∈ p.threads, ∀ id ∈ c.volume hex, t.call.volume hex = some id → Finds c t
  | .step i x => ∀ q ∈ p.asking i, p.state.prompt x q.2

instance [DecidableEq T] (c : Call T) (t : Thread (Rep (T := T)) (Call T) (Except Status Reported)) :
    Decidable (Finds c t) :=
  match c with
  | .createVolume _ => inferInstanceAs (Decidable (t.call = _))
  | .expandVolume _ => inferInstanceAs (Decidable (t.rest.result.isSome = true))
  | .deleteVolume _ | .createSnapshot .. | .deleteSnapshot _ | .write .. | .late _ => isTrue trivial

instance [DecidableEq T] (p : World T) (e : Turn (Call T) Delivery) : Decidable (Orderly hex p e) :=
  match e with
  | .start c => inferInstanceAs (Decidable (c.sizing = true ∧ ∀ t ∈ p.threads, ∀ id ∈ c.volume hex, _ → Finds c t))
  | .step i x => inferInstanceAs (Decidable (∀ q ∈ p.asking i, p.state.prompt x q.2 = true))

/-- A call that is under way is an expand and the other calls on its volume are over, or it is a create
and they are the same. -/
def Apart (hex : String → String) (p : World T) : Prop :=
  ∀ (i j : Nat) t u, p.threads[i]? = some t → p.threads[j]? = some u → i ≠ j → t.rest.result = none →
    ∀ id, t.call.volume hex = some id → u.call.volume hex = some id →
      t.call.isExpand = true ∧ u.rest.result ≠ none ∨ t.call.isExpand = false ∧ t.call = u.call

theorem Apart.start {p : World T} (h : Apart hex p) {c : Call T} (hP : Orderly hex p (.start c)) :
    Apart hex (step hex p (.start c)) := by
  intro i j t u ht hu hij hask id hid hid'
  rcases getElem?_snoc_iff.mp ht with ht | ⟨rfl, rfl⟩ <;>
    rcases getElem?_snoc_iff.mp hu with hu | ⟨rfl, rfl⟩
  · exact h i j t u ht hu hij hask id hid hid'
  · have hfinds := hP.2 t (mem_of_getElem? ht) id hid' hid
    cases c with
    | createVolume req =>
      have hsame : t.call = .createVolume req := hfinds
      exact .inr ⟨by rw [hsame]; rfl, hsame⟩
    | expandVolume req =>
      rw [Finds, hask] at hfinds
      cases hfinds
    | deleteVolume | createSnapshot | deleteSnapshot | write | late => cases hid'
  · have hfinds := hP.2 u (mem_of_getElem? hu) id hid hid'
    cases c with
    | createVolume req =>
      have hsame : u.call = .createVolume req := hfinds
      exact .inr ⟨rfl, hsame.symm⟩
    | expandVolume req => exact .inl ⟨rfl, Option.isSome_iff_ne_none.mp hfinds⟩
    | deleteVolume | createSnapshot | deleteSnapshot | write | late => cases hid
  · exact absurd rfl hij

theorem Apart.step {p : World T} (h : Apart hex p) {e : Turn (Call T) Delivery} (hP : Orderly hex p e) :
    Apart hex (Csi.step hex p e) := by
  cases e with
  | start c => exact h.start hP
  | step k x =>
    rcases ask_or_idle (fun _ x r s => Cluster.answer s x r) (program hex) p k x with ⟨c, r, next, hk⟩ | hsame
    · -- the call whose turn it is was under way before
      have hstep : Csi.step hex p (.step k x) = _ := step_ask hk x
      have hold : ∀ {j : Nat} {u}, (Csi.step hex p (.step k x)).threads[j]? = some u →
          ∃ u', p.threads[j]? = some u' ∧ u'.call = u.call ∧ (u.rest.result = none → u'.rest.result = none) ∧
            (u'.rest.result ≠ none → u.rest.result ≠ none) := by
        intro j u hu
        rw [hstep] at hu
        rcases (getElem?_set_iff (lt_of_getElem? hk)).mp hu with ⟨rfl, rfl⟩ | ⟨-, hu⟩
        · exact ⟨_, hk, rfl, fun _ => rfl, fun hne => absurd rfl hne⟩
        · exact ⟨u, hu, rfl, id, id⟩
      intro i j t u ht hu hij hask id hid hid'
      obtain ⟨t', ht', htc, hask', -⟩ := hold ht
      obtain ⟨u', hu', huc, -, hover⟩ := hold hu
      rw [← htc] at hid ⊢
      rw [← huc] at hid' ⊢
      exact (h i j t' u' ht' hu' hij (hask' hask) id hid hid').imp_left (And.imp_right hover)
    · have hstep : Csi.step hex p (.step k x) = p := hsame
      rw [hstep]
      exact h

/-- A run of calls that keep apart. -/
abbrev KeptApart (hex : String → String) (p : World T) (e : Turn (Call T) Delivery) : Prop :=
  Orderly hex p e ∧ Apart hex p

theorem fits : Fits (rules (T := T) hex) (program hex) (Ends hex) (KeptApart hex) where
  trans := Moves.trans
  start p c _ _ hP := by
    cases c with
    | createVolume req => exact wp_createVolume req
    | expandVolume req => exact wp_controllerExpandVolume req
    | late k =>
      refine wp_bindE (wp_answered (wp_ask fun s' _ => ⟨trivial, fun x => ?_⟩))
      cases (s'.answer x (.again k)).1 with
      | error e => exact Ends.error
      | ok _ =>
        rintro r hr
        cases hr
        exact ⟨by simp [Reports], fun h => by cases h⟩
    | deleteVolume | createSnapshot | deleteSnapshot | write => cases hP.1.1
  may p i c r next x hi hP := hP.1 (c, r) (asking_eq hi)
  others p i c r next x j c' r' next' _ hP hi hj hij hdoes := by
    refine hdoes.mono (fun id hid hexpand => ?_) fun _ h => h.elim
    rcases hP.2 j i _ _ hj hi hij.symm rfl id hexpand.2 hid with ⟨-, hover⟩ | ⟨hcreate, -⟩
    · exact hover rfl
    · rw [hexpand.1] at hcreate
      cases hcreate
  idle _ _ _ _ _ _ _ _ _ _ _ := trivial

omit [Inhabited T] in
theorem Reports.spares {r : Reported} (h : Reports hex r c) (henforced : r.enforced) :
    c.volume hex = some r.id ∧ c.spares r.capacityBytes := by
  cases c with
  | createVolume req =>
    obtain ⟨hid, hcapacity, henforce⟩ := h
    exact ⟨by rw [hid]; rfl, _, hcapacity, henforce.mp henforced, Nat.le_refl _⟩
  | expandVolume req => exact ⟨by rw [h.1]; rfl, trivial⟩
  | deleteVolume | createSnapshot | deleteSnapshot | write | late => exact absurd henforced h

omit [Inhabited T] in
/-- What a call has reported is spared by the calls under way. -/
theorem Ends.kept {p : World T} (hapart : Apart hex p) {j : Nat} {c' : Call T} {next : Rep r → _}
    {out : Except Status Reported} (hi : p.threads[i]? = some ⟨c, .ask r next⟩)
    (hj : p.returned j c' out) (hij : i ≠ j) (hdoes : Does hex c p.state s')
    (h : Ends hex (j, c') out p.state) : Ends hex (j, c') out s' := by
  intro r hr
  obtain ⟨hreports, hgrants⟩ := h r hr
  refine ⟨hreports, fun henforced => (hgrants henforced).moves hdoes fun hvolume => ?_⟩
  obtain ⟨hid, hspares⟩ := hreports.spares henforced
  rcases hapart i j _ _ hi hj hij rfl r.id hvolume hid with ⟨hexpand, -⟩ | ⟨-, hsame⟩
  · cases c with
    | createVolume req => cases hexpand
    | expandVolume | deleteVolume | createSnapshot | deleteSnapshot | write | late => trivial
  · obtain rfl : c = c' := hsame
    exact hspares

section Runs

variable {init : Cluster T} {turns : List (Turn (Call T) Delivery)}

theorem keptApart (h : Meets (step hex) ⟨init, []⟩ (Orderly hex) turns) :
    Meets (step hex) ⟨init, []⟩ (KeptApart hex) turns := fun before e after heq => by
  refine ⟨h before e after heq, ?_⟩
  rw [heq] at h
  exact h.first.invariant (fun i j t u ht => by simp at ht) fun p e hp hP => hp.step hP

end Runs

/-! ### Runs -/

def bytes (n : Int) : Option CapacityRange := some ⟨n, 0⟩

/-- Every request of a call that makes `n` of them, taken at once. -/
def whole (i n : Nat) : List (Turn (Call T) Delivery) := List.replicate n (.step i {})

/-- One filesystem with quotas for bytes and inodes. -/
def oneVolume (n : Nat) : Cluster Unit where
  filesystems id := if id = "pvc-1" then some ⟨"pvc-1", (), none, ⟨some n, some 9⟩⟩ else none

/-- A create is tried again after an answer was lost, and two expands follow; then an attempt of the
first request is taken late. -/
def twoExpands : List (Turn (Call Unit) Delivery) :=
  let create := .start (.createVolume { name := "pvc-1", capacityRange := bytes 50 })
  [create, .step 0 {}, .step 0 ⟨.lost, 0⟩, create] ++ whole 1 3 ++
    .start (.expandVolume ⟨"pvc-1", bytes 100⟩) :: whole 2 3 ++
    .start (.expandVolume ⟨"pvc-1", bytes 200⟩) :: whole 3 3 ++ [.start (.late 0), .step 4 {}]

/-- The byte limit of the volume after a run. -/
def limitAfter (n : Nat) (turns : List (Turn (Call Unit) Delivery)) : Option Nat :=
  ((run (fun _ => "") (oneVolume n) turns).state.filesystems "pvc-1").bind (·.quota.maxBytes)

/-- Two expands that look at the quota before either writes it: the later write is that of the smaller
one. -/
def crossedExpands : List (Turn (Call Unit) Delivery) :=
  [.start (.expandVolume ⟨"pvc-1", bytes 100⟩), .start (.expandVolume ⟨"pvc-1", bytes 200⟩),
    .step 0 {}, .step 0 {}] ++ whole 1 3 ++ [.step 0 {}]

/-- A create whose answer was lost is tried again once the volume has been expanded. -/
def lateCreate : List (Turn (Call Unit) Delivery) :=
  [.start (.createVolume { name := "pvc-1", capacityRange := bytes 50 }), .step 0 {},
    .step 0 ⟨.lost, 0⟩, .start (.expandVolume ⟨"pvc-1", bytes 100⟩)] ++ whole 1 3 ++
    .start (.createVolume { name := "pvc-1", capacityRange := bytes 50 }) :: whole 2 3

end AtlasNative.Csi
