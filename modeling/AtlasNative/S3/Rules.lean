import AtlasNative.S3.Does

/-!
# Calls on a bucket that run together

A call counts on little: inodes stay what they are, parts stay as they were uploaded, and nobody
touches the file that it is writing. Every call leaves the others that much.
-/

namespace AtlasNative.S3

open Program Files Relation Option

variable {D : Type} {md5 : Md5 D} {mode : Mode} {who : Who D} {nowNs : Int}
  {log : List (Asked D (Who D))} {f f' f'' : Files D (Who D)} {i j : Nat}

/-- Inodes stay what they are, and parts stay as they were uploaded. -/
structure Files.Grows (mode : Mode) (f f' : Files D (Who D)) : Prop where
  node : ∀ {c n}, f.nodes c = some n → ∃ n', f'.nodes c = some n' ∧ n.Later n'
  parts : ∀ {c n n' j id key number body}, f.nodes c = some n → n.kind = .file →
    n.maker = some (j, .uploadPart id key number body) → n.recorded.isSome = true →
    f'.nodes c = some n' → n.SameFile n'
  files : mode.quiet → ∀ {c n n'}, f.nodes c = some n → n.kind = .file → n.recorded.isSome = true →
    f'.nodes c = some n' → n.SameFile n'

/-- What call `i` counts on, between two of its requests. -/
structure Files.Onward (mode : Mode) (i : Nat) (f f' : Files D (Who D)) : Prop
    extends f.Grows mode f' where
  mine : ∀ {c n n' call}, f.nodes c = some n → n.kind = .file → n.maker = some (i, call) →
    n.moved = false → f'.nodes c = some n' → n.SameFile n' ∧ n'.moved = false
  noNew : ∀ {c n' call}, f'.nodes c = some n' → n'.kind = .file → n'.maker = some (i, call) →
    ∃ n, f.nodes c = some n

theorem Node.SameFile.trans {n n' n'' : Node D (Who D)} (h : n.SameFile n') (h' : n'.SameFile n'') : n.SameFile n'' :=
  ⟨h'.1.trans h.1, h'.2.1.trans h.2.1, h'.2.2.trans h.2.2⟩

theorem Files.Grows.refl (mode : Mode) (f : Files D (Who D)) : f.Grows mode f where
  node hn := ⟨_, hn, .refl _⟩
  parts hn _ _ _ hn' := mem_unique hn hn' ▸ ⟨rfl, rfl, rfl⟩
  files _ _ _ _ hn _ _ hn' := mem_unique hn hn' ▸ ⟨rfl, rfl, rfl⟩

theorem Files.Grows.trans (h : f.Grows mode f') (h' : f'.Grows mode f'') : f.Grows mode f'' where
  node hn := by
    obtain ⟨n', hn', hlater⟩ := h.node hn
    obtain ⟨n'', hn'', hlater'⟩ := h'.node hn'
    exact ⟨n'', hn'', hlater.trans hlater'⟩
  parts hn hk hmaker hrec hn'' := by
    obtain ⟨n', hn', hlater⟩ := h.node hn
    have hsame := h.parts hn hk hmaker hrec hn'
    refine hsame.trans (h'.parts hn' (hlater.kind.trans hk) (hlater.maker.trans hmaker) ?_ hn'')
    rwa [hsame.2.2]
  files hquiet _ _ _ hn hk hrec hn'' := by
    obtain ⟨n', hn', hlater⟩ := h.node hn
    have hsame := h.files hquiet hn hk hrec hn'
    refine hsame.trans (h'.files hquiet hn' (hlater.kind.trans hk) ?_ hn'')
    rwa [hsame.2.2]

theorem Files.Onward.refl (mode : Mode) (i : Nat) (f : Files D (Who D)) : f.Onward mode i f where
  toGrows := .refl mode f
  mine hn _ _ hm hn' := mem_unique hn hn' ▸ ⟨⟨rfl, rfl, rfl⟩, hm⟩
  noNew hn' _ _ := ⟨_, hn'⟩

theorem Files.Onward.trans (h : f.Onward mode i f') (h' : f'.Onward mode i f'') : f.Onward mode i f'' where
  toGrows := h.toGrows.trans h'.toGrows
  mine hn hk hmaker hm hn'' := by
    obtain ⟨n', hn', hlater⟩ := h.node hn
    obtain ⟨hsame, hm'⟩ := h.mine hn hk hmaker hm hn'
    obtain ⟨hsame', hm''⟩ := h'.mine hn' (hlater.kind.trans hk) (hlater.maker.trans hmaker) hm' hn''
    exact ⟨hsame.trans hsame', hm''⟩
  noNew {c n'' call} hn'' hk hmaker := by
    obtain ⟨n', hn'⟩ := h'.noNew hn'' hk hmaker
    obtain ⟨n2, hn2, hlater⟩ := h'.node hn'
    obtain rfl := mem_unique hn'' hn2
    exact h.noNew hn' (hlater.kind ▸ hk) (hlater.maker ▸ hmaker)

theorem Does.grows (h : Does md5 mode log who nowNs f f') (hwf : f.WF) : f.Grows mode f' := by
  -- a file with an attribute is changed in place or not at all
  have hsame : ∀ {c n n'}, f.nodes c = some n → n.kind = .file → n.recorded.isSome = true →
      f'.nodes c = some n' → n.SameFile n' ∨ Subject who n ∧ ¬ mode.quiet := by
    intro c n n' hn hk hrec hn'
    obtain ⟨n', hn'', hstep⟩ := h.node hwf hn
    obtain rfl := mem_unique hn' hn''
    cases hstep.file hk with
    | same hsame _ | published hsame _ _ _ _ _ => exact .inl hsame
    | written _ hnone _ _ _ | recorded _ hnone _ _ _ _ _ _ => rw [hnone] at hrec; cases hrec
    | subject hsub _ _ hloud => exact .inr ⟨hsub, hloud⟩
  refine ⟨fun hn => ?_, fun hn hk hmaker hrec hn' => ?_, fun hquiet _ _ _ hn hk hrec hn' => ?_⟩
  · obtain ⟨n', hn', hstep⟩ := h.node hwf hn
    exact ⟨n', hn', hstep.toLater⟩
  · exact (hsame hn hk hrec hn').resolve_right fun hsub => hsub.1.not_part hmaker
  · exact (hsame hn hk hrec hn').resolve_right fun hsub => hsub.2 hquiet

/-- What a call does to the files leaves the others what they count on. -/
theorem Does.onward (h : Does md5 mode log who nowNs f f') (hwf : f.WF) (hj : who.1 ≠ j) : f.Onward mode j f' where
  toGrows := h.grows hwf
  mine {c n n' call} hn hk hmaker hm hn' := by
    obtain ⟨n', hn'', hstep⟩ := h.node hwf hn
    obtain rfl := mem_unique hn' hn''
    have hnot : n.maker ≠ some who := by
      rw [hmaker]
      rintro heq
      exact hj (congrArg Prod.fst (some.inj heq)).symm
    cases hstep.file hk with
    | same hsame hmoved => exact ⟨hsame, hmoved.trans hm⟩
    | published _ hmine _ _ _ _ | written hmine _ _ _ _
    | recorded hmine _ _ _ _ _ _ _ => exact absurd hmine hnot
    | subject hsub _ _ _ => exact absurd hsub.1 (by rw [hm]; nofun)
  noNew hn' _ hmaker := by
    rcases h.fresh hn' with hold | hnew
    · exact hold
    · exact absurd (congrArg Prod.fst (mem_unique hnew.maker hmaker)) hj

section

variable (h : ReflTransGen (Does md5 mode log who nowNs) f f') (hinv : Inv md5 f)
include h hinv

theorem inv_of_does : Inv md5 f' := by
  induction h with
  | refl => exact hinv
  | tail _ hstep ih => exact hstep.inv ih

theorem onward_of_does (hj : who.1 ≠ j) : f.Onward mode j f' := by
  induction h with
  | refl => exact .refl mode j f
  | tail hsteps hstep ih => exact ih.trans (hstep.onward (inv_of_does hsteps hinv).wf hj)

end

/-! ### What is said about a run -/

section

variable [DecidableEq D]

/-- The inodes that the call was told, in a listing of the directory at `path`, to have the name. -/
def Asked.listed (who : Who D) (path : List Text) (name : Text) : Asked D (Who D) → List Nat
  | ⟨who', .readdir d, .ok entries, f⟩ =>
    if who' = who ∧ (f.nodes d).map (·.path) = some path then
      (entries.filter (·.name = name)).map (·.ino)
    else []
  | _ => []

/-- The attributes that the call was told, by a look-up, that the file has. -/
def Asked.found (who : Who D) (ino : Nat) : Asked D (Who D) → List Attr
  | ⟨who', .lookup _ _, .ok a, _⟩ => if who' = who ∧ a.ino = ino ∧ a.kind = .file then [a] else []
  | _ => []

/-- A name that a completion looks up. -/
def completes : Call D → Request D → Option (Nat × Text)
  | .completeUpload .., .lookup d name => some (d, name)
  | _, _ => none

/-- A completion that looks up what it has seen in a listing finds the file that it was told has that
name. -/
def SameParts (who : Who D) (r : Request D) (w : World D (Who D)) : Prop :=
  ∀ q ∈ completes who.2 r, ∀ nd ∈ w.files.nodes q.1, ∀ e ∈ w.log, ∀ ino ∈ e.listed who nd.path q.2,
    ∀ a ∈ (w.files.lookup q.1 q.2).toOption, a.ino = ino

/-- The file that a `set_headers` asks about before it stamps it. -/
def stamps : Call D → Request D → Option Nat
  | .setHeaders .., .getattr ino => some ino
  | _, _ => none

/-- A `set_headers` that asks for the attributes of the file finds the mtime that `head` saw. -/
def SameMtime (who : Who D) (r : Request D) (w : World D (Who D)) : Prop :=
  ∀ ino ∈ stamps who.2 r, ∀ e ∈ w.log, ∀ a ∈ e.found who ino,
    ∀ b ∈ (w.files.getattr ino).toOption, b.mtimeNs = a.mtimeNs

/-- The file whose content a request changes. -/
def rewrites : Request D → Option Nat
  | .write ino _ _ | .truncate ino _ => some ino
  | _ => none

/-- A change of the content of a file gives it an mtime that it has never had. -/
def FreshMtime (x : Env) (r : Request D) (w : World D (Who D)) : Prop :=
  ∀ ino ∈ rewrites r, ∀ n ∈ w.files.nodes ino, Fresh n x.nowNs

/-- The directory that a request removes. -/
def removedDir : Request D → Option (Nat × Text)
  | .rmdir parent name => some (parent, name)
  | _ => none

/-- A directory that is removed is no marker at that moment. -/
def KeepsMarks (r : Request D) (w : World D (Who D)) : Prop :=
  ∀ q ∈ removedDir r, ∀ d ∈ w.files.nodes q.1, ∀ ino ∈ d.entries.lookup q.2,
    ∀ n ∈ w.files.nodes ino, n.recorded = none

instance (who : Who D) (r : Request D) (w : World D (Who D)) : Decidable (SameParts who r w) :=
  inferInstanceAs (Decidable (∀ _ ∈ completes who.2 r, _))

instance (who : Who D) (r : Request D) (w : World D (Who D)) : Decidable (SameMtime who r w) :=
  inferInstanceAs (Decidable (∀ _ ∈ stamps who.2 r, _))

instance {W : Type} (n : Node D W) (nowNs : Int) : Decidable (Fresh n nowNs) :=
  inferInstanceAs (Decidable (∀ p ∈ n.history, _))

instance (x : Env) (r : Request D) (w : World D (Who D)) : Decidable (FreshMtime x r w) :=
  inferInstanceAs (Decidable (∀ _ ∈ rewrites r, _))

instance (r : Request D) (w : World D (Who D)) : Decidable (KeepsMarks r w) :=
  inferInstanceAs (Decidable (∀ _ ∈ removedDir r, _))

/-- No file of call `i` is there. -/
def NoFile (i : Nat) (f : Files D (Who D)) : Prop :=
  ∀ c n call, f.nodes c = some n → n.kind = .file → n.maker ≠ some (i, call)

structure World.Grows (mode : Mode) (w w' : World D (Who D)) : Prop
    extends w.files.Grows mode w'.files where
  log : ∀ {e}, e ∈ w.log → e ∈ w'.log

structure World.Onward (mode : Mode) (i : Nat) (w w' : World D (Who D)) : Prop
    extends w.files.Onward mode i w'.files where
  log : ∀ {e}, e ∈ w.log → e ∈ w'.log

/-- One request of a call. -/
structure Guar (md5 : Md5 D) (mode : Mode) (who : Who D) (r : Request D) (w w' : World D (Who D)) :
    Prop where
  does : ∃ nowNs, ReflTransGen (Does md5 mode w.log who nowNs) w.files w'.files
  log : ∃ reply, w'.log = w.log ++ [⟨who, r, reply, w.files⟩]

/-- Where a call may make a request. -/
structure May (mode : Mode) (who : Who D) (x : Env) (r : Request D) (w : World D (Who D)) : Prop where
  parts : mode.calm → SameParts who r w
  mtime : mode.steady → SameMtime who r w
  fresh : mode.fresh → FreshMtime x r w
  marks : mode.kept → KeepsMarks r w

def bucketRules (md5 : Md5 D) (mode : Mode) :
    Rules (Reply (D := D)) (Who D) Env (World D (Who D)) where
  answer := answer
  inv w := Inv md5 w.files
  rely who := World.Onward mode who.1
  guar := Guar md5 mode
  may := May mode
  idle who w := NoFile who.1 w.files

omit [DecidableEq D] in
theorem World.Onward.refl (mode : Mode) (i : Nat) (w : World D (Who D)) : w.Onward mode i w := ⟨.refl mode i _, id⟩

omit [DecidableEq D] in
theorem World.Onward.trans {w w' w'' : World D (Who D)} (h : w.Onward mode i w')
    (h' : w'.Onward mode i w'') : w.Onward mode i w'' :=
  ⟨h.toOnward.trans h'.toOnward, fun he => h'.log (h.log he)⟩

variable {r : Request D} {w w' : World D (Who D)}

omit [DecidableEq D] in
theorem World.Onward.grows (h : w.Onward mode i w') : w.Grows mode w' := ⟨h.toGrows, h.log⟩

omit [DecidableEq D] in
theorem Guar.onward (h : Guar md5 mode who r w w') (hinv : Inv md5 w.files) (hj : who.1 ≠ j) : w.Onward mode j w' := by
  obtain ⟨⟨nowNs, hdoes⟩, reply, hlog⟩ := h
  refine ⟨onward_of_does hdoes hinv hj, fun he => ?_⟩
  rw [hlog]
  exact List.mem_append_left _ he

omit [DecidableEq D] in
theorem NoFile.onward (hno : NoFile j w.files) (honward : w.Onward mode j w') : NoFile j w'.files := by
  intro c n call hn hk hmaker
  obtain ⟨m, hm⟩ := honward.noNew hn hk hmaker
  obtain ⟨n', hn', hlater⟩ := honward.node hm
  obtain rfl := mem_unique hn hn'
  exact hno c m call hm (hlater.kind ▸ hk) (hlater.maker ▸ hmaker)

theorem bucketRules_fair (md5 : Md5 D) (mode : Mode) : Fair (bucketRules md5 mode) where
  answer_eq := rfl
  still {who x r w} hinv hfiles _ := by
    refine ⟨?_, ⟨⟨0, ?_⟩, _, rfl⟩, ?_, fun he => List.mem_append_left _ he⟩
    · show Inv md5 (answer who x r w).2.files
      rw [hfiles]
      exact hinv
    · rw [hfiles]
    · rw [hfiles]
      exact .refl ..

end

end AtlasNative.S3
