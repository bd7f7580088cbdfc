import Mathlib

/-!
# Texts in lexicographic order, cut at a delimiter

Texts that continue one text stand together in the order. A text is cut just after the first delimiter
that follows a given beginning; texts in order then have their cuts in order, and texts with the same
cut stand together.
-/

namespace Program

open List Option

variable {α : Type}

section Order

variable [LinearOrder α]

theorem not_lt_of_isPrefix {a b : List α} (h : a <+: b) : ¬ b < a := h.le

theorem isPrefix_of_between {a b c : List α} (hac : a <+: c) (hab : ¬ b < a) (hbc : ¬ c < b) : a <+: b := by
  induction a generalizing b c with
  | nil => exact nil_prefix
  | cons x a ih =>
    obtain ⟨t, rfl⟩ := hac
    cases b with
    | nil => exact absurd (nil_lt_cons ..) hab
    | cons y b =>
      rw [cons_append, cons_lt_cons_iff, not_or, not_and] at hbc
      rw [cons_lt_cons_iff, not_or, not_and] at hab
      obtain rfl : x = y := le_antisymm (not_lt.mp hab.1) (not_lt.mp hbc.1)
      exact cons_prefix_cons.mpr ⟨rfl, ih (prefix_append a t) (hab.2 rfl) (hbc.2 rfl)⟩

/-- What continues a smaller text is smaller, unless the smaller one is continued by the other. -/
theorem lt_of_not_isPrefix {a b m n : List α} (h : a < b) (hab : ¬ a <+: b) (hm : a <+: m) (hn : b <+: n) : m < n := by
  by_contra hle
  refine hab (isPrefix_of_between hm (lt_asymm h) fun hmb => ?_)
  exact not_lt_of_isPrefix hn (lt_of_le_of_lt (not_lt.mp hle) hmb)

end Order

/-! ### The first delimiter -/

section Find

variable [DecidableEq α]

/-- Where `d` first stands in a text. -/
def find (d : List α) : List α → Option Nat
  | [] => if d = [] then some 0 else none
  | c :: t => if d.isPrefixOf (c :: t) then some 0 else (find d t).map (· + 1)

theorem find_eq_some {d t : List α} {pos : Nat} (h : find d t = some pos) :
    d <+: t.drop pos ∧ ∀ i < pos, ¬ d <+: t.drop i := by
  induction t generalizing pos with
  | nil =>
    simp only [find] at h
    split at h
    · rename_i hd
      cases h
      exact ⟨by simp [hd], fun i hi => absurd hi (Nat.not_lt_zero i)⟩
    · cases h
  | cons c t ih =>
    simp only [find] at h
    split at h
    · rename_i hd
      cases h
      exact ⟨List.isPrefixOf_iff_prefix.mp hd, fun i hi => absurd hi (Nat.not_lt_zero i)⟩
    · rename_i hd
      obtain ⟨p, hp, rfl⟩ := map_eq_some_iff.mp h
      obtain ⟨hat, hbefore⟩ := ih hp
      refine ⟨hat, fun i hi => ?_⟩
      cases i with
      | zero => exact fun h0 => hd (List.isPrefixOf_iff_prefix.mpr h0)
      | succ i => exact hbefore i (Nat.lt_of_succ_lt_succ hi)

theorem find_eq_none {d t : List α} (h : find d t = none) (i : Nat) : ¬ d <+: t.drop i := by
  induction t generalizing i with
  | nil =>
    simp only [find] at h
    split at h
    · cases h
    · rename_i hd
      simpa using hd
  | cons c t ih =>
    simp only [find] at h
    split at h
    · cases h
    · rename_i hd
      cases i with
      | zero => exact fun h0 => hd (List.isPrefixOf_iff_prefix.mpr h0)
      | succ i => exact ih (map_eq_none_iff.mp h) i

theorem find_eq_some_iff {d t : List α} {pos : Nat} :
    find d t = some pos ↔ d <+: t.drop pos ∧ ∀ i < pos, ¬ d <+: t.drop i := by
  refine ⟨find_eq_some, fun ⟨hat, hbefore⟩ => ?_⟩
  cases h : find d t with
  | none => exact absurd hat (find_eq_none h pos)
  | some p =>
    obtain ⟨hp, hlt⟩ := find_eq_some h
    obtain hlt' | rfl | hgt := lt_trichotomy p pos
    · exact absurd hp (hbefore p hlt')
    · rfl
    · exact absurd hat (hlt pos hgt)

/-! ### Cuts -/

/-- `key` up to the first `d` that follows its first `n` characters. -/
def cut (d : List α) (n : Nat) (key : List α) : Option (List α) :=
  (find d (key.drop n)).map fun pos => key.take (n + pos + d.length)

end Find

/-- `c` is `key` cut just after the first `d` that follows `p`. -/
def CutAt (d p key c : List α) : Prop :=
  ∃ x, c = p ++ x ++ d ∧ c <+: key ∧ ∀ y, p ++ y ++ d <+: key → x.length ≤ y.length

theorem CutAt.isPrefix {d p key c : List α} (h : CutAt d p key c) : c <+: key := by
  obtain ⟨x, -, hc, -⟩ := h
  exact hc

/-- A key that goes on from the cut of another has the same cut. -/
theorem CutAt.of_isPrefix {d p key key' c : List α} (h : CutAt d p key c) (hc : c <+: key') : CutAt d p key' c := by
  obtain ⟨x, rfl, hkey, hfirst⟩ := h
  refine ⟨x, rfl, hc, fun y hy => ?_⟩
  by_contra hlt
  have hlen : (p ++ y ++ d).length ≤ (p ++ x ++ d).length := by simp; omega
  exact hlt (hfirst y ((prefix_of_prefix_length_le hy hc hlen).trans hkey))

theorem cut_eq_some_iff [DecidableEq α] {d p key c : List α} (hp : p <+: key) :
    cut d p.length key = some c ↔ CutAt d p key c := by
  obtain ⟨t, rfl⟩ := hp
  -- `d` after `p` and `y` is `d` at the position where `y` ends
  have hat : ∀ {y : List α}, p ++ y ++ d <+: p ++ t ↔ y <+: t ∧ d <+: t.drop y.length := by
    intro y
    rw [append_assoc, prefix_append_right_inj]
    constructor
    · rintro ⟨u, rfl⟩
      simp [append_assoc]
    · rintro ⟨⟨u, rfl⟩, h⟩
      simpa using h
  have htake : ∀ {y : List α}, p ++ y ++ d <+: p ++ t →
      (p ++ t).take (p.length + y.length + d.length) = p ++ y ++ d := fun h => by
    simpa [Nat.add_assoc] using (prefix_iff_eq_take.mp h).symm
  simp only [cut, drop_left, map_eq_some_iff, find_eq_some_iff]
  constructor
  · rintro ⟨pos, ⟨hd, hbefore⟩, rfl⟩
    have hpos : pos ≤ t.length := by
      by_contra hlt
      rw [drop_eq_nil_of_le (by omega), prefix_nil] at hd
      exact hbefore 0 (by omega) (hd ▸ nil_prefix)
    have hlen : (t.take pos).length = pos := by simpa using hpos
    have hcut : p ++ t.take pos ++ d <+: p ++ t := hat.mpr ⟨List.take_prefix .., by rwa [hlen]⟩
    rw [show p.length + pos + d.length = p.length + (t.take pos).length + d.length by rw [hlen], htake hcut]
    refine ⟨t.take pos, rfl, hcut, fun y hy => ?_⟩
    rw [hlen]
    by_contra hlt
    exact hbefore y.length (by omega) (hat.mp hy).2
  · rintro ⟨x, rfl, hx, hfirst⟩
    refine ⟨x.length, ⟨(hat.mp hx).2, fun i hi hd => ?_⟩, htake hx⟩
    have hlen : (t.take i).length = i := by
      have := (hat.mp hx).1.length_le
      simp
      omega
    have := hfirst (t.take i) (hat.mpr ⟨List.take_prefix .., by rwa [hlen]⟩)
    omega

theorem cut_eq_none_iff [DecidableEq α] {d key : List α} {n : Nat} : cut d n key = none ↔ ¬ d <:+: key.drop n := by
  rw [cut, map_eq_none_iff]
  constructor
  · rintro hnone ⟨x, y, hxy⟩
    refine find_eq_none hnone x.length ?_
    rw [← hxy]
    simp
  · intro hd
    cases h : find d (key.drop n) with
    | none => rfl
    | some pos =>
      exact absurd ((find_eq_some h).1.isInfix.trans (drop_suffix ..).isInfix) hd

/-! ### The order of the cuts -/

/-- A way to cut the keys that begin with `p`, or to leave them whole. -/
structure Cuts (p : List α) (cut : List α → Option (List α)) : Prop where
  isPrefix : ∀ {k c}, p <+: k → cut k = some c → c <+: k
  stays : ∀ {k k' c}, p <+: k → p <+: k' → cut k = some c → c <+: k' → cut k' = some c

theorem cuts_none (p : List α) : Cuts p fun _ => none := ⟨nofun, nofun⟩

theorem cuts_cut [DecidableEq α] (d p : List α) : Cuts p (cut d p.length) where
  isPrefix hp h := ((cut_eq_some_iff hp).mp h).isPrefix
  stays hp hp' h hc := (cut_eq_some_iff hp').mpr (((cut_eq_some_iff hp).mp h).of_isPrefix hc)

/-- What stands for a key: its cut, or the key. -/
def label (cut : List α → Option (List α)) (k : List α) : List α := (cut k).getD k

namespace Cuts

variable {p : List α} {cut : List α → Option (List α)} (h : Cuts p cut) {k k' : List α}
include h

theorem label_isPrefix (hp : p <+: k) : label cut k <+: k := by
  unfold label
  cases hc : cut k with
  | none => exact prefix_rfl
  | some c => exact h.isPrefix hp hc

/-- Keys in order have their labels in order; two have the same only by the same cut. -/
theorem label_lt [LinearOrder α] (hp : p <+: k) (hp' : p <+: k') (hlt : k < k') :
    label cut k < label cut k' ∨ ∃ c, cut k = some c ∧ cut k' = some c := by
  have hle : ¬ k < label cut k := not_lt_of_isPrefix (h.label_isPrefix hp)
  cases hc : cut k' with
  | none =>
    left
    rw [show label cut k' = k' by simp [label, hc]]
    exact lt_of_le_of_lt (not_lt.mp hle) hlt
  | some c =>
    rw [show label cut k' = c by simp [label, hc]]
    by_cases hck : c <+: k
    · exact .inr ⟨c, h.stays hp' hp hc hck, rfl⟩
    · left
      refine lt_of_le_of_lt (not_lt.mp hle) ?_
      by_contra hnot
      exact hck (isPrefix_of_between (h.isPrefix hp' hc) hnot (lt_asymm hlt))

/-- Below a key that is whole, every label goes on from it. -/
theorem isPrefix_label (hp : p <+: k) (hkk' : k <+: k') (hwhole : cut k = none) : k <+: label cut k' := by
  unfold label
  cases hc : cut k' with
  | none => exact hkk'
  | some c =>
    have hp' := hp.trans hkk'
    obtain hck | hkc := prefix_or_prefix_of_prefix (h.isPrefix hp' hc) hkk'
    · rw [h.stays hp' hp hc hck] at hwhole
      cases hwhole
    · exact hkc

end Cuts

end Program
