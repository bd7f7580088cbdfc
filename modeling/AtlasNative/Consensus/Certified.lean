import AtlasNative.Consensus.Update

/-!
# What nodes may rely on

A log is certified when a commit covers it; certified logs are prefixes of one another and of every
later leader's log. `AckOk x T l` is what a node with log `l` owes its acknowledgements: it still
holds what it acknowledged, unless a leader it may have followed since did not have it.
-/

namespace Consensus

open Quorums LogEntry List

variable {i : Nat}

section Prefix

variable {α : Type}

theorem getElem?_longer {l m : List α} (h : l <+: m) (hi : i < l.length) : m[i]? = l[i]? := by
  obtain ⟨r, rfl⟩ := h
  exact getElem?_append_left hi

theorem take_succ_of_getElem? {l : List α} {a : α} (h : l[i]? = some a) : l.take (i + 1) = l.take i ++ [a] := by
  rw [take_add_one, h]
  rfl

end Prefix

namespace History

variable {ν ε κ : Type} [LogEntry ε κ] {H H' : History ν ε} {c₀ : κ}

/-- A commit of a term up to `T` covers `l`. -/
def Certified (H : History ν ε) (T : Nat) (l : List ε) : Prop :=
  l = [] ∨ ∃ t n k, H.commit t n k ∧ t ≤ T ∧ l <+: (H.elog t).take n

variable {l m : List ε}

/-- Log matching: logs that carry the same term at one position agree up to it. -/
theorem LogOk.take_eq (hl : H.LogOk l) (hm : H.LogOk m) {a b : ε} (ha : l[i]? = some a)
    (hb : m[i]? = some b) (hab : term a = term b) : l.take (i + 1) = m.take (i + 1) := by
  have hpl : l.take i ++ [a] <+: l := take_succ_of_getElem? ha ▸ take_prefix _ _
  have hpm : m.take i ++ [b] <+: m := take_succ_of_getElem? hb ▸ take_prefix _ _
  have h1 := (hl _ _ hpl).2.1
  have h2 := (hm _ _ hpm).2.1
  rw [← hab] at h2
  obtain ⟨hil, -⟩ := List.getElem?_eq_some_iff.mp ha
  obtain ⟨him, -⟩ := List.getElem?_eq_some_iff.mp hb
  rw [take_succ_of_getElem? ha, take_succ_of_getElem? hb]
  have hlen : (l.take i ++ [a]).length = (m.take i ++ [b]).length := by
    simp
    omega
  exact (prefix_of_prefix_length_le h1 h2 hlen.le).eq_of_length hlen

variable {T T' : Nat} {x : ν}

namespace Certified

theorem nil (T : Nat) : H.Certified T ([] : List ε) := .inl rfl

theorem mono (h : H.Certified T l) (hT : T ≤ T') : H.Certified T' l :=
  h.imp id fun ⟨t, n, k, hc, ht, hl⟩ => ⟨t, n, k, hc, ht.trans hT, hl⟩

theorem shorter (h : H.Certified T m) (hl : l <+: m) : H.Certified T l := by
  rcases h with rfl | ⟨t, n, k, hc, ht, hm⟩
  · exact .inl (prefix_nil.mp hl)
  · exact .inr ⟨t, n, k, hc, ht, hl.trans hm⟩

variable [Quorums ν κ]

section

variable (hH : H.Coherent c₀) (h : H.Certified T l)
include hH h

theorem ext (hext : Ext x H H') : H'.Certified T l := by
  rcases h with rfl | ⟨t, n, k, hc, ht, hl⟩
  · exact nil T
  · refine .inr ⟨t, n, k, hext.commit t n k hc, ht, ?_⟩
    have hpos := hH.commit_pos t n k hc
    rwa [hext.take_elog (hH.commit_led t n k hc) (by omega)]

theorem logOk : H.LogOk l := by
  rcases h with rfl | ⟨t, n, k, hc, -, hl⟩
  · exact LogOk.nil
  · exact (hH.elog_ok (hH.commit_led t n k hc)).mono (hl.trans (List.take_prefix _ _))

theorem term_le : ∀ e ∈ l, term e ≤ T := by
  intro e he
  rcases h with rfl | ⟨t, n, k, hc, ht, hl⟩
  · simp at he
  · have := hH.elog_term_le (hH.commit_led t n k hc) e (mem_of_mem_take (hl.subset he))
    omega

/-- A certified log is in the log of every leader from its commit's term on. -/
theorem le_elog {u : Nat} (hT : T ≤ u) (hu : H.Led u) : l <+: H.elog u := by
  rcases h with rfl | ⟨t, n, k, hc, ht, hl⟩
  · exact nil_prefix
  · rcases lt_or_ge t u with htu | htu
    · exact hl.trans ((hH.carried u hu t n k hc htu).trans (hH.start_prefix u hu))
    · obtain rfl : t = u := by omega
      exact hl.trans (List.take_prefix _ _)

omit hH h in
theorem comparable (hH : H.Coherent c₀) (hl : H.Certified T l) (hm : H.Certified T' m) : l <+: m ∨ m <+: l := by
  rcases hl with rfl | ⟨t, n, k, hc, -, hl⟩
  · exact .inl nil_prefix
  rcases hm with rfl | ⟨t', n', k', hc', -, hm⟩
  · exact .inr nil_prefix
  -- both are in the log of the later of the two terms
  have hl' : H.Certified t l := .inr ⟨t, n, k, hc, le_rfl, hl⟩
  have hm' : H.Certified t' m := .inr ⟨t', n', k', hc', le_rfl, hm⟩
  rcases le_total t t' with h | h
  · have hled := hH.commit_led t' n' k' hc'
    exact prefix_or_prefix_of_prefix (hl'.le_elog hH h hled) (hm'.le_elog hH le_rfl hled)
  · have hled := hH.commit_led t n k hc
    exact prefix_or_prefix_of_prefix (hl'.le_elog hH le_rfl hled) (hm'.le_elog hH h hled)

omit hH h in
theorem eq_of_length (hH : H.Coherent c₀) (hl : H.Certified T l) (hm : H.Certified T' m)
    (hlen : l.length = m.length) : l = m := by
  rcases comparable hH hl hm with h | h
  · exact h.eq_of_length hlen
  · exact (h.eq_of_length hlen.symm).symm

/-- A certified log that ends in term `T` is covered by a commit of `T`. -/
theorem commit_of_lastTerm (hne : l ≠ []) (hlast : lastTerm l = T) :
    ∃ n k, H.commit T n k ∧ l <+: (H.elog T).take n := by
  rcases h with rfl | ⟨t, n, k, hc, ht, hl⟩
  · exact absurd rfl hne
  · obtain ⟨e, he, hte⟩ := lastTerm_mem hne
    have := hH.elog_term_le (hH.commit_led t n k hc) e (mem_of_mem_take (hl.subset he))
    obtain rfl : t = T := by omega
    exact ⟨n, k, hc, hl⟩

end

end Certified

/-! ### Acknowledgements -/

/-- `x`'s acknowledgements, held against its log `l` in term `T`. -/
def AckOk (H : History ν ε) (x : ν) (T : Nat) (l : List ε) : Prop :=
  ∀ t m, H.ack x t m → ∀ n ≤ m, (H.elog t).take n <+: l ∨
    ∃ s w, t < s ∧ s ≤ T ∧ H.elected s = some w ∧ ¬ (H.elog t).take n <+: H.start s

/-- What a success response says: `x` acknowledged `k` entries of term `T`'s log, or they are
committed anyway. -/
def RespOk (H : History ν ε) (x : ν) (T k : Nat) : Prop :=
  H.Led T ∧ k ≤ (H.elog T).length ∧ ((∃ m, k ≤ m ∧ H.ack x T m) ∨ H.Certified T ((H.elog T).take k))

namespace AckOk

variable {x : ν} {T : Nat} {l l' : List ε}

theorem longer (h : H.AckOk x T l) (hl : l <+: l') : H.AckOk x T l' :=
  fun t m ha n hn => (h t m ha n hn).imp (·.trans hl) id

theorem later (h : H.AckOk x T l) (hT : T ≤ T') : H.AckOk x T' l := fun t m ha n hn => (h t m ha n hn).imp id
    fun ⟨s, w, hts, hsT, hw, hno⟩ => ⟨s, w, hts, hsT.trans hT, hw, hno⟩

/-- A vote in the current term for a node that has not been elected in it. -/
theorem vote (h : H.AckOk x T l) {y : ν} (hy : H.elected T ≠ some y) :
    ∀ t m n, H.ack x t m → t < T → n ≤ m → (H.elog t).take n <+: l ∨ H.Overridden t n T y := by
  intro t m n ha _ hn
  refine (h t m ha n hn).imp id ?_
  rintro ⟨s, w, hts, hsT, hw, hno⟩
  refine ⟨s, w, hts, hw, ?_, hno⟩
  rcases lt_or_ge s T with hlt | hge
  · exact .inl hlt
  · obtain rfl : s = T := by omega
    refine .inr ⟨rfl, ?_⟩
    rintro rfl
    exact hy hw

theorem campaign (h : H.AckOk x T l) (y : ν) : ∀ t m n, H.ack x t m → t < T + 1 → n ≤ m →
      (H.elog t).take n <+: l ∨ H.Overridden t n (T + 1) y := by
  intro t m n ha _ hn
  refine (h t m ha n hn).imp id ?_
  rintro ⟨s, w, hts, hsT, hw, hno⟩
  exact ⟨s, w, hts, hw, .inl (by omega), hno⟩

variable [Quorums ν κ]

section

variable (hH : H.Coherent c₀) (h : H.AckOk x T l)
include hH h

theorem ext {y : ν} (hext : Ext y H H') (hsame : ∀ t m, H'.ack x t m → H.ack x t m) : H'.AckOk x T l := by
  intro t m ha n hn
  have ha := hsame t m ha
  have hled := hH.ack_led x t m ha
  have hlen := hH.ack_len x t m ha
  rw [hext.take_elog hled (by omega)]
  refine (h t m ha n hn).imp id ?_
  rintro ⟨s, w, hts, hsT, hw, hno⟩
  refine ⟨s, w, hts, hsT, hext.elected s w hw, ?_⟩
  rwa [hext.start s ⟨w, hw⟩]

/-- Following the leader of `T`: the new log is a prefix of the leader's that keeps what the old one
had in common with it. -/
theorem follow (hT : H.Led T) (hown : ∀ t m, H.ack x t m → t ≤ T)
    (hkeep : ∀ q, q <+: l → q <+: H.elog T → q <+: l') : H.AckOk x T l' := by
  intro t m ha n hn
  rcases h t m ha n hn with hp | hp
  · rcases lt_or_ge t T with htT | htT
    · by_cases hst : (H.elog t).take n <+: H.start T
      · exact .inl (hkeep _ hp (hst.trans (hH.start_prefix T hT)))
      · obtain ⟨w, hw⟩ := hT
        exact .inr ⟨T, w, htT, le_rfl, hw, hst⟩
    · obtain rfl : t = T := by
        have := hown t m ha
        omega
      exact .inl (hkeep _ hp (List.take_prefix _ _))
  · exact .inr hp

/-- Taking over a certified log that the old one does not properly extend. -/
theorem of_certified (hc : H.Certified T l') (hlen : l' <+: l → l.length ≤ l'.length) : H.AckOk x T l' := by
  intro t m ha n hn
  rcases h t m ha n hn with hp | hp
  · -- a log that holds both the acknowledged prefix and the certified one settles it
    have hboth : ∀ {r}, (H.elog t).take n <+: r → l' <+: r → (H.elog t).take n <+: l' := by
      intro r h1 h2
      rcases prefix_or_prefix_of_prefix h1 h2 with h | h
      · exact h
      · have hle := hlen (h.trans hp)
        have := hp.length_le
        have := h.length_le
        exact (h.eq_of_length (by omega)) ▸ prefix_rfl
    have hled := hH.ack_led x t m ha
    have hpre : (H.elog t).take n <+: H.elog t := take_prefix _ _
    rcases hc with rfl | ⟨t', n', k', hc', ht', hl'⟩
    · exact .inl (hboth hp nil_prefix)
    have hcert : H.Certified t' l' := .inr ⟨t', n', k', hc', le_rfl, hl'⟩
    have hled' := hH.commit_led t' n' k' hc'
    rcases lt_or_ge t t' with hlt | hge
    · by_cases hst : (H.elog t).take n <+: H.start t'
      · exact .inl (hboth (hst.trans (hH.start_prefix t' hled')) (hcert.le_elog hH le_rfl hled'))
      · obtain ⟨w, hw⟩ := hled'
        exact .inr ⟨t', w, hlt, ht', hw, hst⟩
    · exact .inl (hboth hpre (hcert.le_elog hH hge hled))
  · exact .inr hp

end

end AckOk

theorem RespOk.zero (h : H.Led T) : H.RespOk x T 0 := ⟨h, Nat.zero_le _, .inr (Certified.nil T)⟩

theorem RespOk.ext [Quorums ν κ] {y : ν} {k : Nat} (hH : H.Coherent c₀) (h : H.RespOk x T k)
    (hext : Ext y H H') : H'.RespOk x T k := by
  obtain ⟨hled, hk, h⟩ := h
  refine ⟨hext.led hled, hk.trans (hext.elog_length hled), ?_⟩
  rcases h with ⟨m, hm, ha⟩ | hc
  · exact .inl ⟨m, hm, hext.ack x T m ha⟩
  · right
    rw [hext.take_elog hled hk]
    exact hc.ext hH hext

end History

end Consensus
