import Mathlib

/-!
# Where the replicas of an extent go

Nodes are taken in the order of their free space, at first only one from each rack and then from
any. A node that is taken blocks its host and its rack at once, so a host that lies in two racks can
cost a rack: unless that rack has a candidate whose host nobody of another rack comes to first.
-/

namespace AtlasNative.Placement

open List

structure FailureDomain where
  zone : String
  rack : String
  host : String

structure Node where
  id : String
  failureDomain : FailureDomain
  freeBytes : Nat
  healthy : Bool

structure PlacementPolicy where
  replicas : Nat := 3
  requireDistinctHosts : Bool := true
  preferDistinctRacks : Bool := true

abbrev Node.host (n : Node) : String := n.failureDomain.host

abbrev Node.rack (n : Node) : String := n.failureDomain.rack

/-- More free space first, then by id. -/
def Node.before (a b : Node) : Bool :=
  decide (b.freeBytes < a.freeBytes) || a.freeBytes == b.freeBytes && decide (a.id ≤ b.id)

/-- What the passes over the candidates have chosen. -/
structure Chosen where
  out : List Node := []
  hosts : Finset String := ∅
  racks : Finset String := ∅

variable (policy : PlacementPolicy)

/-- The first pass takes one node from each rack. -/
def firstPass (s : Chosen) (n : Node) : Chosen :=
  if s.out.length = policy.replicas then s
  else if policy.requireDistinctHosts ∧ n.host ∈ s.hosts then s
  else if n.rack ∈ s.racks then s
  else ⟨s.out ++ [n], insert n.host s.hosts, insert n.rack s.racks⟩

/-- The second pass fills the remaining replicas. -/
def secondPass (s : Chosen) (n : Node) : Chosen :=
  if s.out.length = policy.replicas then s
  else if n.id ∈ s.out.map (·.id) then s
  else if policy.requireDistinctHosts ∧ n.host ∈ s.hosts then s
  else { s with out := s.out ++ [n], hosts := insert n.host s.hosts }

def candidates (nodes : List Node) (bytes : Nat) : List Node :=
  (nodes.filter fun n => n.healthy && decide (bytes ≤ n.freeBytes)).insertionSort (·.before ·)

def selectReplicas (nodes : List Node) (bytes : Nat) : List String :=
  let nodes := candidates nodes bytes
  let s := if policy.preferDistinctRacks then nodes.foldl (firstPass policy) {} else {}
  (nodes.foldl (secondPass policy) s).out.map (·.id)

/-- A set of nodes that may hold the replicas. -/
structure Admissible (nodes : List Node) (bytes : Nat) (c : List Node) : Prop where
  fits : ∀ n ∈ c, n ∈ nodes ∧ n.healthy = true ∧ bytes ≤ n.freeBytes
  ids : (c.map (·.id)).Nodup
  hosts : policy.requireDistinctHosts = true → (c.map (·.host)).Nodup

/-- The racks that a set of nodes covers. -/
def racks (c : List Node) : Finset String := (c.map (·.rack)).toFinset

/-- Where hosts matter, no candidate ahead of `p` is on its host in another rack. -/
def Rooted (cs : List Node) (p : Node) : Prop :=
  policy.requireDistinctHosts = true → ∀ a ∈ cs.takeWhile (·.id ≠ p.id), a.host = p.host → a.rack = p.rack

instance (cs : List Node) (p : Node) : Decidable (Rooted policy cs p) :=
  inferInstanceAs (Decidable (_ → _))

/-- The racks with a candidate that none of another rack can block. -/
def rooted (cs : List Node) : Finset String := racks (cs.filter fun p => Rooted policy cs p)

/-- The most nodes that an admissible set can have. -/
def most (cs : List Node) : Nat :=
  if policy.requireDistinctHosts then min policy.replicas (cs.map (·.host)).toFinset.card
  else policy.replicas

/-- Every rack has a rooted candidate, or as many racks have one as nodes can be chosen. -/
def Spread (cs : List Node) : Prop :=
  racks cs ⊆ rooted policy cs ∨ most policy cs ≤ (rooted policy cs).card

instance (cs : List Node) : Decidable (Spread policy cs) := inferInstanceAs (Decidable (_ ∨ _))

/-! ### One pass -/

/-- What holds of the nodes chosen so far. -/
structure Chosen.Ok (nodes : List Node) (s : Chosen) : Prop where
  hosts : ∀ x, x ∈ s.hosts ↔ x ∈ s.out.map (·.host)
  sub : s.out ⊆ nodes
  ids : (s.out.map (·.id)).Nodup
  apart : policy.requireDistinctHosts = true → (s.out.map (·.host)).Nodup
  few : s.out.length ≤ policy.replicas

variable {policy} {nodes c : List Node} {s : Chosen} {n : Node}

theorem Chosen.Ok.empty : Ok policy nodes {} := ⟨by simp, nil_subset _, nodup_nil, fun _ => nodup_nil, Nat.zero_le _⟩

theorem nodup_push (f : Node → String) (h : (c.map f).Nodup) (hn : f n ∉ c.map f) : ((c ++ [n]).map f).Nodup := by
  rw [← concat_eq_append, map_concat]
  exact h.concat hn

theorem Chosen.Ok.push (h : s.Ok policy nodes) (hn : n ∈ nodes)
    (hroom : s.out.length ≠ policy.replicas) (hid : n.id ∉ s.out.map (·.id))
    (hhost : ¬ (policy.requireDistinctHosts ∧ n.host ∈ s.hosts)) (r : Finset String) :
    Ok policy nodes ⟨s.out ++ [n], insert n.host s.hosts, r⟩ where
  hosts x := by simp [h.hosts, or_comm]
  sub := append_subset.mpr ⟨h.sub, by simpa using hn⟩
  ids := nodup_push _ h.ids hid
  apart hreq := nodup_push _ (h.apart hreq) fun hin => hhost ⟨hreq, (h.hosts _).mpr hin⟩
  few := by
    have hfew := h.few
    rw [length_append, length_singleton]
    omega

/-- A pass adds to what was chosen until it is full or has the key of every node it asks for. -/
theorem pass (step : Chosen → Node → Chosen) (key : Node → String) (P : List Node → Chosen → Prop)
    (Q : Node → Prop) (hstep : ∀ l s n, l ++ [n] <+: nodes → s.Ok policy nodes → P l s →
      step s n = s ∧ P (l ++ [n]) s ∧ (s.out.length = policy.replicas ∨ (Q n → key n ∈ s.out.map key)) ∨
        s.out.length ≠ policy.replicas ∧ n.id ∉ s.out.map (·.id) ∧ ¬ (policy.requireDistinctHosts ∧ n.host ∈ s.hosts) ∧
          ∃ r, step s n = ⟨s.out ++ [n], insert n.host s.hosts, r⟩ ∧ P (l ++ [n]) (step s n))
    {l : List Node} (hl : l <+: nodes) (h : s.Ok policy nodes) (hP : P [] s) :
    let s' := l.foldl step s
    s'.Ok policy nodes ∧ P l s' ∧ s.out <+: s'.out ∧
      (s'.out.length < policy.replicas → ∀ n ∈ l, Q n → key n ∈ s'.out.map key) := by
  induction l using List.reverseRecOn with
  | nil => exact ⟨h, hP, List.prefix_refl _, fun _ => nofun⟩
  | append_singleton l n ih =>
    have hn : n ∈ nodes := hl.subset (by simp)
    obtain ⟨h1, hP1, hpre, hall⟩ := ih ((prefix_append _ _).trans hl)
    simp only [foldl_append, foldl_cons, foldl_nil, forall_mem_append, forall_mem_singleton]
    rcases hstep l _ n hl h1 hP1 with ⟨heq, hP', hn'⟩ | ⟨hroom, hid, hhost, r, heq, hP'⟩
    · rw [heq]
      exact ⟨h1, hP', hpre, fun hlt => ⟨hall hlt, hn'.resolve_left hlt.ne⟩⟩
    · refine ⟨heq ▸ h1.push hn hroom hid hhost r, hP', ?_⟩
      rw [heq]
      refine ⟨hpre.trans (prefix_append _ _), fun hlt => ⟨fun m hm hQ => ?_, by simp⟩⟩
      rw [length_append] at hlt
      exact map_subset _ (subset_append_left _ _) (hall (by omega) m hm hQ)

theorem mem_ahead {l : List Node} (hids : (nodes.map (·.id)).Nodup) (hl : l ++ [n] <+: nodes) {a : Node}
    (ha : a ∈ l) : a ∈ nodes.takeWhile (·.id ≠ n.id) := by
  obtain ⟨post, rfl⟩ := hl
  have hne : ∀ a ∈ l, decide (a.id ≠ n.id) = true := by
    intro a ha
    have hnodup : ((l ++ [n]).map (·.id)).Nodup := hids.sublist ((sublist_append_left _ _).map _)
    rw [map_append, nodup_append] at hnodup
    exact decide_eq_true (hnodup.2.2 _ (mem_map_of_mem ha) _ (by simp))
  rw [append_assoc, takeWhile_append_of_pos hne]
  exact mem_append_left _ ha

/-- What holds of the first pass once it has come through `l`. -/
structure FirstPass (l : List Node) (s : Chosen) : Prop where
  ahead : s.out ⊆ l
  racks : ∀ x, x ∈ s.racks ↔ x ∈ s.out.map (·.rack)
  spread : (s.out.map (·.rack)).Nodup

/-- The first pass takes nodes of distinct racks and stops only when it is full or has a node of every
rack with a rooted one. -/
theorem firstPass_spread (policy : PlacementPolicy) (hids : (nodes.map (·.id)).Nodup) :
    let s := nodes.foldl (firstPass policy) {}
    s.Ok policy nodes ∧ (s.out.map (·.rack)).Nodup ∧
      (s.out.length < policy.replicas → ∀ n ∈ nodes, Rooted policy nodes n → n.rack ∈ s.out.map (·.rack)) := by
  refine (pass (firstPass policy) Node.rack FirstPass (Rooted policy nodes) ?_ (prefix_refl nodes)
    .empty ⟨nil_subset _, by simp, nodup_nil⟩).imp_right fun ⟨hf, _, hall⟩ => ⟨hf.spread, hall⟩
  intro l s n hl h hf
  have hn : n ∈ nodes := hl.subset (by simp)
  have hsame : FirstPass (l ++ [n]) s := { hf with ahead := subset_append_of_subset_left _ hf.ahead }
  unfold firstPass
  split
  · exact .inl ⟨rfl, hsame, .inl ‹_›⟩
  split
  · rename_i hhost
    refine .inl ⟨rfl, hsame, .inr fun hrooted => ?_⟩
    obtain ⟨m, hm, heq⟩ := mem_map.mp ((h.hosts _).mp hhost.2)
    rw [← hrooted hhost.1 m (mem_ahead hids hl (hf.ahead hm)) heq]
    exact mem_map_of_mem hm
  split
  · exact .inl ⟨rfl, hsame, .inr fun _ => (hf.racks _).mp ‹_›⟩
  · rename_i hroom hhost hrack
    rw [hf.racks] at hrack
    -- a node of a new rack is new, and so is its id
    have hid : n.id ∉ s.out.map (·.id) := fun hin => by
      obtain ⟨m, hm, heq⟩ := mem_map.mp hin
      exact hrack (inj_on_of_nodup_map hids (h.sub hm) hn heq ▸ mem_map_of_mem hm)
    refine .inr ⟨hroom, hid, hhost, _, rfl, ?_, fun x => ?_, nodup_push _ hf.spread hrack⟩
    · exact append_subset.mpr ⟨hsame.ahead, subset_append_right _ _⟩
    · simp [hf.racks, or_comm]

/-- What must differ between the nodes of an admissible set. -/
def key (policy : PlacementPolicy) (n : Node) : String :=
  if policy.requireDistinctHosts then n.host else n.id

/-- The second pass adds to the first one's choice until it is full or nothing is left. -/
theorem secondPass_fills (hids : (nodes.map (·.id)).Nodup) (h : s.Ok policy nodes) :
    let s' := nodes.foldl (secondPass policy) s
    s'.Ok policy nodes ∧ s.out <+: s'.out ∧
      (s'.out.length < policy.replicas → ∀ n ∈ nodes, key policy n ∈ s'.out.map (key policy)) := by
  refine (pass (secondPass policy) (key policy) (fun _ _ => True) (fun _ => True) ?_
    (prefix_refl nodes) h trivial).imp_right
      fun ⟨_, hpre, hall⟩ => ⟨hpre, fun hroom n hn => hall hroom n hn trivial⟩
  intro l s n hl h _
  have hn : n ∈ nodes := hl.subset (by simp)
  unfold secondPass
  split
  · exact .inl ⟨rfl, trivial, .inl ‹_›⟩
  split
  · rename_i hin
    obtain ⟨m, hm, heq⟩ := mem_map.mp hin
    exact .inl ⟨rfl, trivial, .inr fun _ => inj_on_of_nodup_map hids (h.sub hm) hn heq ▸ mem_map_of_mem hm⟩
  split
  · rename_i hhost
    rw [h.hosts] at hhost
    exact .inl ⟨rfl, trivial, .inr fun _ => by simpa [key, hhost.1] using hhost.2⟩
  · exact .inr ⟨‹_›, ‹_›, ‹_›, _, rfl, trivial⟩

variable {bytes : Nat}

theorem mem_candidates : n ∈ candidates nodes bytes ↔ n ∈ nodes ∧ n.healthy = true ∧ bytes ≤ n.freeBytes := by
  simp [candidates, (perm_insertionSort _ _).mem_iff]

theorem racks_subset {c c' : List Node} (h : c ⊆ c') : racks c ⊆ racks c' := fun _ hr =>
  mem_toFinset.mpr (map_subset _ h (mem_toFinset.mp hr))

theorem card_racks_le (c : List Node) : (racks c).card ≤ c.length :=
  (toFinset_card_le _).trans_eq (length_map ..)

theorem Chosen.Ok.length_le (h : s.Ok policy nodes) : s.out.length ≤ most policy nodes := by
  unfold most
  split
  · next hreq =>
    refine le_min h.few ?_
    rw [← length_map (f := Node.host), ← toFinset_card_of_nodup (h.apart hreq)]
    refine Finset.card_le_card fun x hx => mem_toFinset.mpr ?_
    exact map_subset _ h.sub (mem_toFinset.mp hx)
  · exact h.few

def node (id rack host : String) (freeBytes : Nat) : Node := ⟨id, ⟨"z", rack, host⟩, freeBytes, true⟩

end AtlasNative.Placement
