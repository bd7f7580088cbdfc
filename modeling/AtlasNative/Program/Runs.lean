import Mathlib

/-!
# Runs of a system

A system takes events one after the other. A condition on the events of a run says of each event
what has to hold in the state it meets; an invariant may rely on the condition at every step.
-/

namespace Program

variable {σ ε : Type} {step : σ → ε → σ} {init : σ} {P : σ → ε → Prop} {events : List ε}

/-- Every event of the run meets a state in which `P` holds of it. -/
def Meets (step : σ → ε → σ) (init : σ) (P : σ → ε → Prop) (events : List ε) : Prop :=
  ∀ before e after, events = before ++ e :: after → P (before.foldl step init) e

theorem Meets.first {before after : List ε} (h : Meets step init P (before ++ after)) :
    Meets step init P before := fun b e a heq =>
  h b e (a ++ after) (by rw [heq, List.append_assoc, List.cons_append])

theorem Meets.dropLast {e : ε} (h : Meets step init P (events ++ [e])) : Meets step init P events := h.first

theorem Meets.last {e : ε} (h : Meets step init P (events ++ [e])) : P (events.foldl step init) e := h events e [] rfl

theorem Meets.rest {before after : List ε} (h : Meets step init P (before ++ after)) :
    Meets step (before.foldl step init) P after := by
  intro b e a heq
  rw [← List.foldl_append]
  exact h (before ++ b) e a (by rw [heq, List.append_assoc])

/-- What holds at first and is kept by every event that meets the condition holds after a run. -/
theorem Meets.invariant (h : Meets step init P events) {I : σ → Prop} (hinit : I init)
    (hstep : ∀ s e, I s → P s e → I (step s e)) : I (events.foldl step init) := by
  induction events using List.reverseRecOn with
  | nil => exact hinit
  | append_singleton events e ih =>
    rw [List.foldl_append]
    exact hstep _ e (ih h.dropLast) h.last

theorem meets_nil : Meets step init P [] := fun before e after heq => by
  simp at heq

theorem meets_cons {e : ε} (h : P init e) (hs : Meets step (step init e) P events) :
    Meets step init P (e :: events) := by
  intro before e' after heq
  cases before with
  | nil =>
    obtain ⟨rfl, -⟩ := List.cons.inj heq
    exact h
  | cons e1 before =>
    obtain ⟨rfl, htail⟩ := List.cons.inj heq
    exact hs before e' after htail

theorem eq_take_of_split {before after : List ε} {e : ε} (h : events = before ++ e :: after) :
    before = events.take before.length ∧ before.length < events.length ∧ events[before.length]? = some e := by
  subst h
  simp

/-- A condition that can be decided, looked at event by event. -/
theorem meets_of_take (h : ∀ i < events.length, ∀ e ∈ events[i]?,
    P ((events.take i).foldl step init) e) : Meets step init P events := by
  intro before e after heq
  obtain ⟨htake, hlt, hget⟩ := eq_take_of_split heq
  rw [htake]
  exact h _ hlt e hget

/-! ### Lists that grow, or change in one place -/

variable {l : List ε} {k : Nat} {x e : ε}

theorem lt_of_getElem? (h : l[k]? = some e) : k < l.length := (List.getElem?_eq_some_iff.mp h).1

theorem getElem?_snoc_iff : (l ++ [x])[k]? = some e ↔ l[k]? = some e ∨ k = l.length ∧ e = x := by
  rcases Nat.lt_trichotomy k l.length with hk | rfl | hk
  · rw [List.getElem?_append_left hk]
    simp [Nat.ne_of_lt hk]
  · simp [eq_comm]
  · rw [List.getElem?_eq_none (by simp; omega), List.getElem?_eq_none (Nat.le_of_lt hk)]
    simp [Nat.ne_of_gt hk]

theorem getElem?_set_iff {i : Nat} (hlt : i < l.length) :
    (l.set i x)[k]? = some e ↔ k = i ∧ e = x ∨ k ≠ i ∧ l[k]? = some e := by
  by_cases hk : k = i
  · subst hk
    rw [List.getElem?_set_self hlt]
    simp [eq_comm]
  · rw [List.getElem?_set_ne (Ne.symm hk)]
    simp [hk]

end Program
