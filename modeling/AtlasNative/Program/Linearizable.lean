import Mathlib

/-!
# Linearizability

A history of calls on an object is linearizable if there is one order of the calls in which the
object, taking them one after the other, gives the replies of the history, and in which a call that
was over before another began comes first. Calls that are not over may be in the order or not.

An order grows along a run: a call is added at the end when it takes effect, between its invocation
and its response.
-/

namespace Program

open List

/-- What happens at the interface of an object. -/
inductive Act (Op R : Type) where
  | invoke (id : Nat) (op : Op)
  | respond (id : Nat) (op : Op) (reply : R)
deriving DecidableEq

structure Object (S Op R : Type) where
  init : S
  apply : S → Op → S × R

namespace Object

variable {S Op R : Type}

/-- The state after the calls of `order`, one after the other. -/
def after (o : Object S Op R) (order : List (Nat × Op)) : S :=
  order.foldl (fun s call => (o.apply s call.2).1) o.init

@[simp] theorem after_snoc (o : Object S Op R) (order : List (Nat × Op)) (call : Nat × Op) :
    o.after (order ++ [call]) = (o.apply (o.after order) call.2).1 := by
  rw [after, foldl_append]
  rfl

structure Orders (o : Object S Op R) (history : List (Act Op R)) (order : List (Nat × Op)) :
    Prop where
  once : (order.map Prod.fst).Nodup
  invoked : ∀ id op, (id, op) ∈ order → .invoke id op ∈ history
  complete : ∀ id op reply, .respond id op reply ∈ history → (id, op) ∈ order
  /-- A call that was over when another began comes before it. -/
  realTime : ∀ before rest id op reply id' op', history = before ++ .invoke id' op' :: rest →
    .respond id op reply ∈ before → (id', op') ∈ order →
    ∃ earlier later, order = earlier ++ (id, op) :: later ∧ (id', op') ∈ later
  legal : ∀ earlier later id op reply, order = earlier ++ (id, op) :: later →
    .respond id op reply ∈ history → reply = (o.apply (o.after earlier) op).2

def Linearizable (o : Object S Op R) (history : List (Act Op R)) : Prop :=
  ∃ order, o.Orders history order

variable {o : Object S Op R} {history : List (Act Op R)} {order : List (Nat × Op)}

theorem Orders.nil (o : Object S Op R) : o.Orders [] [] := ⟨nodup_nil, nofun, nofun, by simp, by simp⟩

theorem snoc_eq_split {α : Type} {l before rest : List α} {x y : α} (h : l ++ [x] = before ++ y :: rest) :
    before = l ∧ y = x ∧ rest = [] ∨ ∃ rest', rest = rest' ++ [x] ∧ l = before ++ y :: rest' := by
  rcases eq_nil_or_concat rest with rfl | ⟨rest', z, rfl⟩
  · obtain ⟨rfl, hlast⟩ := append_inj' h rfl
    exact .inl ⟨rfl, (singleton_inj.mp hlast).symm, rfl⟩
  · have hinit : l ++ [x] = (before ++ y :: rest') ++ [z] := by simpa using h
    obtain ⟨hl, hz⟩ := append_inj' hinit rfl
    rw [singleton_inj.mp hz]
    exact .inr ⟨rest', by simp, hl⟩

theorem Orders.invoke (h : o.Orders history order) {id : Nat} (op : Op)
    (hfresh : id ∉ order.map Prod.fst) : o.Orders (history ++ [.invoke id op]) order := by
  refine ⟨h.once, fun i p hi => mem_append_left _ (h.invoked i p hi), fun i p r hr => ?_,
    fun before rest i p r i' p' heq hr hin => ?_, fun earlier later i p r heq hr => ?_⟩
  · refine h.complete i p r ((mem_append.mp hr).resolve_right fun hr => ?_)
    cases mem_singleton.mp hr
  · rcases snoc_eq_split heq with ⟨rfl, hcall, rfl⟩ | ⟨rest', rfl, hold⟩
    · cases hcall
      exact absurd (mem_map_of_mem hin) hfresh
    · exact h.realTime before rest' i p r i' p' hold hr hin
  · refine h.legal earlier later i p r heq ((mem_append.mp hr).resolve_right fun hr => ?_)
    cases mem_singleton.mp hr

theorem Orders.effect (h : o.Orders history order) {id : Nat} {op : Op}
    (hinvoked : .invoke id op ∈ history) (hfresh : id ∉ order.map Prod.fst) :
    o.Orders history (order ++ [(id, op)]) := by
  refine ⟨?_, fun i p hi => ?_, fun i p r hr => mem_append_left _ (h.complete i p r hr),
    fun before rest i p r i' p' heq hr hin => ?_, fun earlier later i p r heq hr => ?_⟩
  · rw [map_append, map_singleton]
    refine List.Nodup.append h.once (nodup_singleton id) fun i hi hi' => ?_
    rw [mem_singleton.mp hi'] at hi
    exact hfresh hi
  · rcases mem_append.mp hi with hi | hi
    · exact h.invoked i p hi
    · cases mem_singleton.mp hi
      exact hinvoked
  · rcases mem_append.mp hin with hin | hin
    · obtain ⟨earlier, later, horder, hlater⟩ := h.realTime before rest i p r i' p' heq hr hin
      exact ⟨earlier, later ++ [(id, op)], by rw [horder]; simp, mem_append_left _ hlater⟩
    · have hold := h.complete i p r (heq ▸ mem_append_left _ hr)
      obtain ⟨earlier, later, horder⟩ := append_of_mem hold
      exact ⟨earlier, later ++ [(id, op)], by rw [horder]; simp, mem_append_right _ hin⟩
  · rcases snoc_eq_split heq with ⟨rfl, hcall, rfl⟩ | ⟨later', rfl, hold⟩
    · cases hcall
      exact absurd (mem_map_of_mem (h.complete _ _ r hr)) hfresh
    · exact h.legal earlier later' i p r hold hr

theorem Orders.respond (h : o.Orders history order) {id : Nat} {op : Op} {reply : R}
    {earlier later : List (Nat × Op)} (horder : order = earlier ++ (id, op) :: later)
    (hreply : reply = (o.apply (o.after earlier) op).2) :
    o.Orders (history ++ [.respond id op reply]) order := by
  refine ⟨h.once, fun i p hi => mem_append_left _ (h.invoked i p hi), fun i p r hr => ?_,
    fun before rest i p r i' p' heq hr hin => ?_, fun earlier' later' i p r heq hr => ?_⟩
  · rcases mem_append.mp hr with hr | hr
    · exact h.complete i p r hr
    · cases mem_singleton.mp hr
      rw [horder]
      simp
  · rcases snoc_eq_split heq with ⟨-, hcall, -⟩ | ⟨rest', rfl, hold⟩
    · cases hcall
    · exact h.realTime before rest' i p r i' p' hold hr hin
  · rcases mem_append.mp hr with hr | hr
    · exact h.legal earlier' later' i p r heq hr
    · cases mem_singleton.mp hr
      -- a call is in the order once, so both splits are the same
      have hlen : earlier'.length = earlier.length := by
        have hlt : earlier'.length < (order.map Prod.fst).length := by simp [heq]
        refine (getElem?_inj hlt h.once).mp ?_
        rw [getElem?_map, getElem?_map]
        nth_rewrite 1 [heq]
        rw [horder]
        simp
      obtain ⟨rfl, -⟩ := append_inj (heq.symm.trans horder) hlen
      exact hreply

end Object

end Program
