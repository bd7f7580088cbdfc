import Mathlib

/-!
# Programs that keep a relation

A program with state and errors keeps a relation when every run of it, however it ends, leads from
its first state to a related one. Relations that hold of a state and itself and that compose are
kept by the whole of a program as soon as its steps keep them. The rules are tagged for `grind`,
which follows the program text.
-/

namespace Program

variable {ε σ α β : Type}

/-- Every run of `x` ends in a state related to the one it started from. -/
def Keeps (R : σ → σ → Prop) (x : EStateM ε σ α) : Prop :=
  ∀ s, match x s with
    | .ok _ t => R s t
    | .error _ t => R s t

/-- Reflexive and transitive: what no step and several steps have in common with one. -/
class Steps (R : σ → σ → Prop) : Prop where
  refl : ∀ s, R s s
  trans : ∀ {s t u}, R s t → R t u → R s u

variable {R : σ → σ → Prop}

variable {x : EStateM ε σ α} {s t : σ}

theorem Keeps.of_ok (h : Keeps R x) {a : α} (hx : x s = .ok a t) : R s t := by
  have := h s
  rwa [hx] at this

theorem Keeps.of_error (h : Keeps R x) {e : ε} (hx : x s = .error e t) : R s t := by
  have := h s
  rwa [hx] at this

theorem Keeps.mono {R' : σ → σ → Prop} (h : Keeps R x) (himp : ∀ s t, R s t → R' s t) : Keeps R' x := by
  intro s
  cases hx : x s with
  | ok a t => exact himp s t (h.of_ok hx)
  | error e t => exact himp s t (h.of_error hx)

@[grind ←]
theorem keeps_modify {f : σ → σ} (h : ∀ s, R s (f s)) : Keeps R (modify f : EStateM ε σ Unit) := h

variable [Steps R]

@[grind ←]
theorem keeps_pure (a : α) : Keeps R (pure a : EStateM ε σ α) := fun s => Steps.refl s

@[grind ←]
theorem keeps_throw (e : ε) : Keeps R (throw e : EStateM ε σ α) := fun s => Steps.refl s

@[grind ←]
theorem keeps_get : Keeps R (get : EStateM ε σ σ) := fun s => Steps.refl s

variable {f : α → EStateM ε σ β}

theorem bind_ok {a : α} (h : x s = .ok a t) : (x >>= f) s = f a t := by
  show EStateM.bind x f s = _
  rw [EStateM.bind, h]

theorem bind_error {e : ε} (h : x s = .error e t) : (x >>= f) s = .error e t := by
  show EStateM.bind x f s = _
  rw [EStateM.bind, h]

theorem exists_of_bind_ok {u : σ} {b : β} (h : (x >>= f) s = .ok b u) : ∃ a t, x s = .ok a t ∧ f a t = .ok b u := by
  cases hx : x s with
  | ok a t =>
    rw [bind_ok hx] at h
    exact ⟨a, t, rfl, h⟩
  | error e t =>
    rw [bind_error hx] at h
    cases h

@[grind ←]
theorem keeps_bind (hx : Keeps R x) (hf : ∀ a, Keeps R (f a)) : Keeps R (x >>= f) := by
  intro s
  cases h : x s with
  | error e t =>
    rw [bind_error h]
    exact hx.of_error h
  | ok a t =>
    rw [bind_ok h]
    have hst := hx.of_ok h
    cases h' : f a t with
    | ok b u => exact Steps.trans hst ((hf a).of_ok h')
    | error e u => exact Steps.trans hst ((hf a).of_error h')

@[grind ←]
theorem keeps_forM {l : List α} {f : α → EStateM ε σ PUnit} (hf : ∀ a, Keeps R (f a)) : Keeps R (l.forM f) := by
  induction l with
  | nil => exact keeps_pure _
  | cons a l ih => exact keeps_bind (hf a) fun _ => ih

/-! ### Programs with one step that does more -/

/-- `R`, with at most one `M` on the way. -/
def Around (R M : σ → σ → Prop) (s t : σ) : Prop := R s t ∨ ∃ u v, R s u ∧ M u v ∧ R v t

variable {M : σ → σ → Prop}

omit [Steps R] in
theorem Keeps.around (hx : Keeps R x) : Keeps (Around R M) x := by
  intro s
  cases h : x s with
  | ok a t => exact .inl (hx.of_ok h)
  | error e t => exact .inl (hx.of_error h)

theorem keeps_around_bind (hx : Keeps R x) (hf : ∀ a, Keeps (Around R M) (f a)) : Keeps (Around R M) (x >>= f) := by
  have hlater : ∀ {s t u}, R s t → Around R M t u → Around R M s u := by
    rintro s t u hst (h | ⟨v, w, htv, hvw, hwu⟩)
    · exact .inl (Steps.trans hst h)
    · exact .inr ⟨v, w, Steps.trans hst htv, hvw, hwu⟩
  intro s
  cases h : x s with
  | error e t =>
    rw [bind_error h]
    exact .inl (hx.of_error h)
  | ok a t =>
    rw [bind_ok h]
    cases h' : f a t with
    | ok b u => exact hlater (hx.of_ok h) ((hf a).of_ok h')
    | error e u => exact hlater (hx.of_ok h) ((hf a).of_error h')

theorem keeps_around_step (hx : Keeps M x) (hf : ∀ a, Keeps R (f a)) : Keeps (Around R M) (x >>= f) := by
  intro s
  cases h : x s with
  | error e t =>
    rw [bind_error h]
    exact .inr ⟨s, t, Steps.refl s, hx.of_error h, Steps.refl t⟩
  | ok a t =>
    rw [bind_ok h]
    cases h' : f a t with
    | ok b u => exact .inr ⟨s, t, Steps.refl s, hx.of_ok h, (hf a).of_ok h'⟩
    | error e u => exact .inr ⟨s, t, Steps.refl s, hx.of_ok h, (hf a).of_error h'⟩

theorem Keeps.of_around (hx : Keeps (Around R R) x) : Keeps R x := by
  refine hx.mono ?_
  rintro s t (h | ⟨u, v, hsu, huv, hvt⟩)
  · exact h
  · exact Steps.trans hsu (Steps.trans huv hvt)

/-! ### Programs that depend on the state they start in -/

/-- The run of `x` from `s` ends in a state related to `s`. -/
def KeepsAt (R : σ → σ → Prop) (x : EStateM ε σ α) (s : σ) : Prop :=
  match x s with
  | .ok _ t => R s t
  | .error _ t => R s t

omit [Steps R] in
theorem Keeps.keepsAt (h : Keeps R x) (s : σ) : KeepsAt R x s := h s

omit [Steps R] in
theorem KeepsAt.mono {R' : σ → σ → Prop} (h : KeepsAt R x s) (himp : ∀ t, R s t → R' s t) : KeepsAt R' x s := by
  unfold KeepsAt at h ⊢
  cases hx : x s with
  | ok a t | error e t => rw [hx] at h; exact himp t h

omit [Steps R] in
theorem run_get (f : σ → EStateM ε σ α) (s : σ) : (get >>= f) s = f s s := rfl

omit [Steps R] in
theorem keepsAt_get {f : σ → EStateM ε σ α} (h : KeepsAt R (f s) s) : KeepsAt R (get >>= f) s := h

theorem keepsAt_bind (hx : KeepsAt R x s) (hf : ∀ a t, x s = .ok a t → KeepsAt R (f a) t) : KeepsAt R (x >>= f) s := by
  unfold KeepsAt at hx ⊢
  cases h : x s with
  | error e t =>
    rw [h] at hx
    rw [bind_error h]
    exact hx
  | ok a t =>
    rw [h] at hx
    have hfa := hf a t h
    unfold KeepsAt at hfa
    rw [bind_ok h]
    cases h' : f a t with
    | ok | error => rw [h'] at hfa; exact Steps.trans hx hfa

/-! ### What holds of the states a program ends in -/

variable {P : σ → Prop}

omit [Steps R]

/-- Every run of `x` that succeeds ends in a state with `P`. -/
def Ends (P : σ → Prop) (x : EStateM ε σ α) : Prop := ∀ s a t, x s = .ok a t → P t

theorem ends_get {f : σ → EStateM ε σ α} (h : ∀ s a t, f s s = .ok a t → P t) : Ends P (get >>= f) := h

end Program
