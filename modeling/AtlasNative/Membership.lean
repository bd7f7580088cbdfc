import AtlasNative.Catalog.Basic
import AtlasNative.Consensus.History

/-!
# Voter configurations

`Joint` is the intermediate configuration of a membership change: every decision needs a majority
of the old and of the new voter set. Quorums of a stable configuration meet, and so do quorums of
two configurations of which one directly follows the other in a change; this is what makes
`Membership` an instance of the consensus library's `Quorums`.
-/

namespace AtlasNative

open Std.ExtTreeSet

inductive Membership where
  | stable (voters : BTreeSet NodeId)
  | joint (old new : BTreeSet NodeId)
deriving DecidableEq

def majority (voters acks : BTreeSet NodeId) : Bool :=
  !voters.isEmpty && voters.size / 2 < (voters ∩ acks).size

namespace Membership

/-- Every node whose vote or acknowledgement counts toward some quorum. -/
def voters : Membership → BTreeSet NodeId
  | stable voters => voters
  | joint old new => old ∪ new

def hasQuorum (m : Membership) (acks : BTreeSet NodeId) : Bool :=
  match m with
  | stable voters => majority voters acks
  | joint old new => majority old acks && majority new acks

/-- The configurations a command may install: no voter set is empty. -/
def Valid : Membership → Prop
  | stable voters => voters ≠ ∅
  | joint old new => old ≠ ∅ ∧ new ≠ ∅

/-- `d` directly follows `c` in a membership change. -/
inductive Follows : Membership → Membership → Prop
  | enter (old new : BTreeSet NodeId) (h : new ≠ ∅) : Follows (stable old) (joint old new)
  | leave (old new : BTreeSet NodeId) : Follows (joint old new) (stable new)

end Membership

/-- Two majorities of one voter set have a member in common. -/
theorem majority_meets {v a b : BTreeSet NodeId} (ha : majority v a) (hb : majority v b) : ∃ x ∈ v, x ∈ a ∧ x ∈ b := by
  simp only [majority, Bool.and_eq_true, decide_eq_true_eq] at ha hb
  by_contra hno
  have hempty : (v ∩ a) ∩ (v ∩ b) = ∅ := by
    rw [eq_empty_iff_forall_not_mem]
    intro x hx
    simp only [mem_inter_iff] at hx
    exact hno ⟨x, hx.1.1, hx.1.2, hx.2.2⟩
  have hsum : (v ∩ a).size + (v ∩ b).size = ((v ∩ a) ∪ (v ∩ b)).size + ((v ∩ a) ∩ (v ∩ b)).size :=
    size_add_size_eq_size_union_add_size_inter
  have hun : ((v ∩ a) ∪ (v ∩ b)).size ≤ v.size := by
    have heq : (v ∩ a) ∪ (v ∩ b) = v ∩ (a ∪ b) := by
      apply ext_mem
      intro x
      simp only [mem_inter_iff, mem_union_iff]
      tauto
    rw [heq]
    exact size_inter_le_size_left
  rw [hempty, size_empty] at hsum
  omega

namespace Membership

/-- The quorums of a configuration, as sets of nodes. -/
def IsQuorum (m : Membership) (Q : Set NodeId) : Prop :=
  ∃ acks : BTreeSet NodeId, m.hasQuorum acks ∧ ∀ x ∈ acks, x ∈ Q

theorem isQuorum_of_hasQuorum {m : Membership} {acks : BTreeSet NodeId} (h : m.hasQuorum acks) :
    m.IsQuorum {x | x ∈ acks} := ⟨acks, h, fun _ hx => hx⟩

theorem majority_of_hasQuorum_joint {old new acks : BTreeSet NodeId}
    (h : (joint old new).hasQuorum acks) : majority old acks ∧ majority new acks := by
  simpa [hasQuorum] using h

/-- Two quorums that each contain a majority of one voter set meet. -/
theorem meets_of_majority {v a b : BTreeSet NodeId} {Q R : Set NodeId} (ha : majority v a)
    (hb : majority v b) (hQ : ∀ x ∈ a, x ∈ Q) (hR : ∀ x ∈ b, x ∈ R) : (Q ∩ R).Nonempty := by
  obtain ⟨x, -, hxa, hxb⟩ := majority_meets ha hb
  exact ⟨x, hQ x hxa, hR x hxb⟩

theorem meets_self {m : Membership} {Q R : Set NodeId} (hQ : m.IsQuorum Q) (hR : m.IsQuorum R) : (Q ∩ R).Nonempty := by
  obtain ⟨a, ha, haQ⟩ := hQ
  obtain ⟨b, hb, hbR⟩ := hR
  cases m with
  | stable v => exact meets_of_majority ha hb haQ hbR
  | joint old new =>
    exact meets_of_majority (majority_of_hasQuorum_joint ha).1 (majority_of_hasQuorum_joint hb).1 haQ hbR

theorem meets_follows {c d : Membership} {Q R : Set NodeId} (h : Follows c d)
    (hQ : c.IsQuorum Q) (hR : d.IsQuorum R) : (Q ∩ R).Nonempty := by
  obtain ⟨a, ha, haQ⟩ := hQ
  obtain ⟨b, hb, hbR⟩ := hR
  cases h with
  | enter old new hne =>
    exact meets_of_majority ha (majority_of_hasQuorum_joint hb).1 haQ hbR
  | leave old new =>
    exact meets_of_majority (majority_of_hasQuorum_joint ha).2 hb haQ hbR

instance : Consensus.Quorums NodeId Membership where
  IsQuorum := IsQuorum
  Next := Follows
  meets_self := meets_self
  meets_next := meets_follows

end Membership

end AtlasNative
