import Mathlib

/-!
# Histories of a replicated log with changing configurations

A consensus group elects one leader per term; a leader extends the log it was elected with and
followers copy prefixes of it. `History` records what a run did, term by term: who was elected and
with which log (`start`), how far that leader's log has grown (`elog`), which log each voter held
when it voted, what each node acknowledged, and which prefixes a leader counted as committed.

A configuration is part of the log: the last one a log carries decides which sets of nodes are
quorums. `Quorums` says what the argument needs of configurations: quorums of one configuration
meet, and so do quorums of two configurations of which one may directly follow the other.

Nothing here depends on how nodes exchange messages or keep their logs; `Coherent` lists the facts
a protocol has to maintain.
-/

namespace Consensus

open List

/-- Configurations of a group of nodes `ν`: which sets are quorums, and which configuration may
directly follow which. -/
class Quorums (ν : outParam Type) (κ : Type) where
  IsQuorum : κ → Set ν → Prop
  Next : κ → κ → Prop
  meets_self : ∀ {c Q R}, IsQuorum c Q → IsQuorum c R → (Q ∩ R).Nonempty
  meets_next : ∀ {c d Q R}, Next c d → IsQuorum c Q → IsQuorum d R → (Q ∩ R).Nonempty

/-- A log entry carries the term of the leader that created it and possibly a configuration. -/
class LogEntry (ε : Type) (κ : outParam Type) where
  term : ε → Nat
  config : ε → Option κ

open Quorums LogEntry

section Config

variable {ε κ : Type} [LogEntry ε κ]

/-- The configuration in force after `l`, starting from `c`. -/
def cfg (c : κ) (l : List ε) : κ := l.foldl (fun c e => (config e).getD c) c

/-- No entry of `l` carries a configuration. -/
def Plain (l : List ε) : Prop := ∀ e ∈ l, config e = none

theorem cfg_append (c : κ) (l m : List ε) : cfg c (l ++ m) = cfg (cfg c l) m := by
  simp [cfg, foldl_append]

theorem cfg_concat (c : κ) (l : List ε) (e : ε) : cfg c (l ++ [e]) = (config e).getD (cfg c l) := by
  simp [cfg, foldl_append]

theorem cfg_plain (c : κ) {l : List ε} (h : Plain l) : cfg c l = c := by
  induction l with
  | nil => rfl
  | cons e l ih =>
    have he := h e (by simp)
    have hl : Plain l := fun x hx => h x (by simp [hx])
    have := ih hl
    simp only [cfg, foldl_cons, he, Option.getD_none] at this ⊢
    exact this

theorem cfg_append_plain (c : κ) (l : List ε) {m : List ε} (h : Plain m) : cfg c (l ++ m) = cfg c l := by
  rw [cfg_append, cfg_plain _ h]

/-- The last configuration of a log, if it has one. -/
def lastConfig (l : List ε) : Option κ := l.reverse.findSome? config

theorem lastConfig_append (l m : List ε) : lastConfig (l ++ m) = (lastConfig m).or (lastConfig l) := by
  simp [lastConfig, findSome?_append]

theorem lastConfig_concat (l : List ε) (e : ε) : lastConfig (l ++ [e]) = (config e).or (lastConfig l) := by
  rw [lastConfig_append]
  cases h : config e <;> simp [lastConfig, h]

/-- Two parts that cover a log decide its last configuration. -/
theorem lastConfig_cover (l : List ε) {i j : Nat} (hij : i ≤ j) :
    (lastConfig (l.drop i)).or (lastConfig (l.take j)) = lastConfig l := by
  have hdrop : l.drop i = (l.take j).drop i ++ l.drop j := by
    have := take_append_drop (j - i) (l.drop i)
    rwa [drop_drop, Nat.add_sub_cancel' hij, ← drop_take, eq_comm] at this
  have htake : lastConfig (l.take j) = (lastConfig ((l.take j).drop i)).or (lastConfig ((l.take j).take i)) := by
    rw [← lastConfig_append, take_append_drop]
  conv_rhs => rw [← take_append_drop j l, lastConfig_append]
  rw [hdrop, lastConfig_append, htake]
  cases lastConfig (l.drop j) <;> cases lastConfig ((l.take j).drop i) <;> rfl

theorem cfg_eq_lastConfig (c : κ) (l : List ε) : cfg c l = (lastConfig l).getD c := by
  induction l using reverseRecOn with
  | nil => rfl
  | append_singleton l e ih =>
    rw [cfg_concat, lastConfig_concat, ih]
    cases config e <;> rfl

theorem plain_or_split (l : List ε) : Plain l ∨ ∃ a e c b, l = a ++ e :: b ∧ config e = some c ∧ Plain b := by
  induction l with
  | nil => exact .inl (fun e he => by simp at he)
  | cons x l ih =>
    rcases ih with hl | ⟨a, e, c, b, rfl, he, hb⟩
    · cases hx : config x with
      | none =>
        left
        intro e he
        rcases mem_cons.mp he with rfl | he
        · exact hx
        · exact hl e he
      | some c => exact .inr ⟨[], x, c, l, rfl, hx, hl⟩
    · exact .inr ⟨x :: a, e, c, b, rfl, he, hb⟩

/-- The term of the last entry, 0 for the empty log. -/
def lastTerm (l : List ε) : Nat := (l.getLast?.map term).getD 0

@[simp] theorem lastTerm_nil : lastTerm ([] : List ε) = 0 := rfl

@[simp] theorem lastTerm_concat (l : List ε) (e : ε) : lastTerm (l ++ [e]) = term e := by
  simp [lastTerm]

theorem lastTerm_mem {l : List ε} (h : l ≠ []) : ∃ e ∈ l, term e = lastTerm l := by
  rcases eq_nil_or_concat l with rfl | ⟨p, e, rfl⟩
  · exact absurd rfl h
  · exact ⟨e, by simp, by simp⟩

/-- `l` is at least as up to date as `m`: the comparison a voter makes. -/
def UpToDate (l m : List ε) : Prop :=
  lastTerm m < lastTerm l ∨ (lastTerm l = lastTerm m ∧ m.length ≤ l.length)

end Config

/-- What a run of the group has done so far. -/
structure History (ν ε : Type) where
  /-- The leader of a term, once elected. -/
  elected : Nat → Option ν
  /-- The log the leader of a term was elected with. -/
  start : Nat → List ε
  /-- The longest log the leader of a term has had in that term. -/
  elog : Nat → List ε
  /-- The log a node campaigned with in a term. -/
  cand : Nat → ν → List ε
  /-- `vote x t c l`: in term `t`, `x` voted for `c` while its log was `l`. -/
  vote : ν → Nat → ν → List ε → Prop
  /-- `ack x t m`: `x` durably held the first `m` entries of the log of term `t`'s leader. -/
  ack : ν → Nat → Nat → Prop
  /-- `commit t n k`: the leader of `t`, its log `k` long, counted a quorum for index `n`. -/
  commit : Nat → Nat → Nat → Prop

namespace History

variable {ν ε κ : Type} [LogEntry ε κ] [Quorums ν κ] (H : History ν ε) (c₀ : κ)

/-- Some leader was elected in `t`. -/
def Led (t : Nat) : Prop := ∃ x, H.elected t = some x

/-- Every entry of the log was created by the leader of its term, on top of what precedes it. -/
def LogOk (l : List ε) : Prop :=
  ∀ p e, p ++ [e] <+: l →
    H.Led (term e) ∧ p ++ [e] <+: H.elog (term e) ∧ (H.start (term e)).length ≤ p.length

/-- `n` entries of term `t`'s log were not in the log some leader started with, one after `t` and
before `u`, or of `u` but other than `y`. -/
def Overridden (t n u : Nat) (y : ν) : Prop :=
  ∃ s w, t < s ∧ H.elected s = some w ∧ (s < u ∨ s = u ∧ w ≠ y) ∧
    ¬ (H.elog t).take n <+: H.start s

/-- A quorum of `c` voted for `x` in term `t`. -/
def Wins (t : Nat) (x : ν) (c : κ) : Prop :=
  ∃ V : Set ν, IsQuorum c V ∧ ∀ y ∈ V, ∃ l, H.vote y t x l

/-- The facts a protocol maintains about its history. -/
structure Coherent : Prop where
  start_prefix : ∀ t, H.Led t → H.start t <+: H.elog t
  start_terms : ∀ t, H.Led t → ∀ e ∈ H.start t, term e < t
  elog_terms : ∀ t, H.Led t → ∀ e ∈ (H.elog t).drop (H.start t).length, term e = t
  start_ok : ∀ t, H.Led t → H.LogOk (H.start t)
  start_cand : ∀ t x, H.elected t = some x → H.start t = H.cand t x
  elected_wins : ∀ t x, H.elected t = some x → H.Wins t x (cfg c₀ (H.start t))
  vote_ok : ∀ x t y l, H.vote x t y l → H.LogOk l ∧ UpToDate (H.cand t y) l
  vote_unique : ∀ x t y z l m, H.vote x t y l → H.vote x t z m → y = z
  vote_self : ∀ x t y l, H.vote x t y l → ∃ m, H.vote y t y m
  ack_led : ∀ x t m, H.ack x t m → H.Led t
  ack_len : ∀ x t m, H.ack x t m → m ≤ (H.elog t).length
  ack_vote : ∀ x t m u y l, H.ack x t m → H.vote x u y l → t < u →
    ∀ n ≤ m, (H.elog t).take n <+: l ∨ H.Overridden t n u y
  commit_led : ∀ t n k, H.commit t n k → H.Led t
  commit_pos : ∀ t n k, H.commit t n k → (H.start t).length < n ∧ n ≤ k ∧ k ≤ (H.elog t).length
  commit_quorum : ∀ t n k, H.commit t n k →
    ∃ Q : Set ν, IsQuorum (cfg c₀ ((H.elog t).take k)) Q ∧ ∀ x ∈ Q, ∃ m, n ≤ m ∧ H.ack x t m
  config_guard : ∀ t, H.Led t → ∀ p e c, p ++ [e] <+: H.elog t → (H.start t).length ≤ p.length →
    config e = some c → Next (cfg c₀ p) c ∧
      ∃ n k, H.commit t n k ∧ k ≤ p.length ∧ Plain (p.drop n)

end History

end Consensus
