import AtlasNative.Consensus.History

/-!
# Leader completeness under changing configurations

In a coherent history every committed prefix is in the log every later leader starts with, and no
term has two leaders. Both follow from one statement about a node that wins a term with the votes
of a quorum of some configuration `c`: it holds every prefix committed in earlier terms, provided
`c` is the configuration of its own log or of a committed prefix.

The induction is on the term. A missing prefix of smallest term and length is compared with the
longest committed prefix the winner does have: both logs carry at most one configuration beyond
that prefix, and if both carry one it is the same entry. So the quorum that voted and the quorum
that acknowledged meet, and the common node's vote contradicts its acknowledgement.
-/

namespace Consensus

open Quorums LogEntry List Option

namespace History

variable {ν ε κ : Type} [LogEntry ε κ] {H : History ν ε} {c₀ : κ}

/-! ### Prefixes and coherent logs -/

variable {l : List ε}

theorem LogOk.mono {m : List ε} (h : H.LogOk m) (hl : l <+: m) : H.LogOk l := fun p e hp => h p e (hp.trans hl)

theorem LogOk.nil : H.LogOk ([] : List ε) := by
  intro p e hp
  have := hp.length_le
  simp at this

/-- A log whose last term is `t` is a prefix of the log of `t`'s leader, beyond its start. -/
theorem LogOk.prefix_elog (hl : H.LogOk l) (hne : l ≠ []) :
    H.Led (lastTerm l) ∧ l <+: H.elog (lastTerm l) ∧ (H.start (lastTerm l)).length < l.length := by
  rcases eq_nil_or_concat l with rfl | ⟨p, e, rfl⟩
  · exact absurd rfl hne
  · simp only [concat_eq_append] at *
    rw [lastTerm_concat]
    obtain ⟨h1, h2, h3⟩ := hl p e prefix_rfl
    refine ⟨h1, h2, ?_⟩
    simp only [length_append, length_singleton]
    omega

variable [Quorums ν κ]

variable {t : Nat}

section

variable (hH : H.Coherent c₀)
include hH

theorem Coherent.elog_ok (ht : H.Led t) : H.LogOk (H.elog t) := by
  intro p e hp
  by_cases hlen : (H.start t).length ≤ p.length
  · -- the entry lies beyond the start, so the leader of `t` created it
    have he : e ∈ (H.elog t).drop (H.start t).length := by
      obtain ⟨r, hr⟩ := hp
      rw [← hr, append_assoc, drop_append_of_le_length hlen]
      simp
    rw [hH.elog_terms t ht e he]
    exact ⟨ht, hp, hlen⟩
  · refine hH.start_ok t ht p e ?_
    refine prefix_of_prefix_length_le hp (hH.start_prefix t ht) ?_
    simp only [length_append, length_singleton]
    omega

theorem Coherent.elog_term_le (ht : H.Led t) : ∀ a ∈ H.elog t, term a ≤ t := by
  intro a ha
  obtain ⟨r, hr⟩ := hH.start_prefix t ht
  rw [← hr] at ha
  rcases mem_append.mp ha with hs | hs
  · exact (hH.start_terms t ht a hs).le
  · refine (hH.elog_terms t ht a ?_).le
    rw [← hr]
    simpa using hs

variable {p : List ε} {e : ε}

/-- Terms do not decrease along a coherent log. -/
theorem LogOk.term_le (hl : H.LogOk l) (hp : p ++ [e] <+: l) : ∀ a ∈ p, term a ≤ term e := by
  intro a ha
  obtain ⟨hled, hpe, -⟩ := hl p e hp
  exact hH.elog_term_le hled a (hpe.subset (by simp [ha]))

theorem LogOk.term_le_lastTerm (hl : H.LogOk l) : ∀ a ∈ l, term a ≤ lastTerm l := by
  intro a ha
  rcases eq_nil_or_concat l with rfl | ⟨p, e, rfl⟩
  · simp at ha
  · simp only [concat_eq_append] at *
    rw [lastTerm_concat]
    rcases mem_append.mp ha with h | h
    · exact hl.term_le hH prefix_rfl a h
    · simp at h
      rw [h]

variable {n k : Nat}

/-- What is committed in `t` ends with an entry of term `t`. -/
theorem Coherent.lastTerm_commit (hc : H.commit t n k) :
    lastTerm ((H.elog t).take n) = t ∧ ((H.elog t).take n).length = n := by
  obtain ⟨h1, h2, h3⟩ := hH.commit_pos t n k hc
  have hlen : ((H.elog t).take n).length = n := by simp; omega
  refine ⟨?_, hlen⟩
  have hlast : (H.elog t).take n = (H.elog t).take (n - 1) ++ [(H.elog t).get ⟨n - 1, by omega⟩] := by
    have := take_concat_get' (H.elog t) (n - 1) (by omega)
    rw [show n - 1 + 1 = n by omega] at this
    exact this.symm
  rw [hlast, lastTerm_concat]
  refine hH.elog_terms t (hH.commit_led t n k hc) _ ?_
  rw [mem_drop_iff_getElem]
  refine ⟨n - 1 - (H.start t).length, by omega, ?_⟩
  simp only [get_eq_getElem]
  congr 1
  omega

end

/-! ### Committed prefixes and later leaders -/

/-- Every prefix committed before `u` is in the log the leader of `u` started with. -/
def CarriedTo (H : History ν ε) (u : Nat) : Prop :=
  H.Led u → ∀ t n k, H.commit t n k → t < u → (H.elog t).take n <+: H.start u

variable {u : Nat}

section

variable (hH : H.Coherent c₀) (hcar : ∀ s < u, H.CarriedTo s) (hc : H.commit t n k)
include hH hcar hc

/-- A log that extends a committed prefix's acknowledger's log contains the prefix. -/
theorem upToDate_contains {s : List ε} (hl : H.LogOk l) (hs : H.LogOk s) (hsu : ∀ e ∈ s, term e < u)
    (hpl : (H.elog t).take n <+: l) (hup : UpToDate s l) : (H.elog t).take n <+: s := by
  obtain ⟨hlast, hlen⟩ := hH.lastTerm_commit hc
  have hpos := (hH.commit_pos t n k hc).1
  have hlne : l ≠ [] := by
    rintro rfl
    have := hpl.length_le
    simp [hlen] at this
    omega
  -- the voter's last term is at least `t`
  have htl : t ≤ lastTerm l := by
    have hne : (H.elog t).take n ≠ [] := by
      intro h0
      rw [h0] at hlen
      simp at hlen
      omega
    obtain ⟨e, he, het⟩ := lastTerm_mem hne
    have := hl.term_le_lastTerm hH e (hpl.subset he)
    omega
  have hsne : s ≠ [] := by
    rintro rfl
    rcases hup with h | ⟨-, hle⟩
    · simp at h
    · simp at hle
      exact hlne hle
  obtain ⟨hled, hpre, hlt⟩ := hs.prefix_elog hsne
  have hsu' : lastTerm s < u := by
    obtain ⟨e, he, het⟩ := lastTerm_mem hsne
    exact het ▸ hsu e he
  have hge : t ≤ lastTerm s := by
    rcases hup with h | ⟨h, -⟩ <;> omega
  rcases lt_or_ge t (lastTerm s) with hts | hts
  · -- a leader between carried the prefix into `s`
    have h := hcar _ hsu' hled t n k hc hts
    refine h.trans (prefix_of_prefix_length_le (hH.start_prefix _ hled) hpre hlt.le)
  · -- same term: both are prefixes of one leader's log and `s` is at least as long
    have hst : lastTerm s = t := by omega
    rw [hst] at hpre
    rcases hup with h | ⟨h, hle⟩
    · omega
    · refine prefix_of_prefix_length_le (List.take_prefix _ _) hpre ?_
      have := hpl.length_le
      omega

/-- A voter that acknowledged a prefix carries it into the log it votes for. -/
theorem Coherent.vote_carries {m : Nat} (htu : t < u) {x y : ν}
    (hother : ∀ w, H.elected u = some w → w ≠ y → H.CarriedTo u) (hack : H.ack x t m) (hnm : n ≤ m)
    (hv : H.vote x u y l) (hs : H.LogOk (H.cand u y)) (hsu : ∀ e ∈ H.cand u y, term e < u) :
    (H.elog t).take n <+: H.cand u y := by
  obtain ⟨hl, hup⟩ := hH.vote_ok x u y l hv
  rcases hH.ack_vote x t m u y l hack hv htu n hnm with h | ⟨s, w, hts, hw, hsu', hno⟩
  · exact upToDate_contains hH hcar hc hl hs hsu h hup
  · refine absurd ?_ hno
    rcases hsu' with hlt | ⟨rfl, hwy⟩
    · exact hcar s hlt ⟨w, hw⟩ t n k hc hts
    · exact hother w hw hwy ⟨w, hw⟩ t n k hc hts

end

/-! ### Configurations beyond a committed prefix -/

variable {q : List ε}

omit [Quorums ν κ] in
theorem not_config_of_shorter {p' : List ε} {e' : ε} (hq : q <+: p) (hp : p ++ [e] <+: l)
    (hp' : p' ++ [e'] <+: l) (hlt : p.length < p'.length) (hplain : Plain (p'.drop q.length)) :
    config e = none := by
  have hpp : p ++ [e] <+: p' := prefix_of_prefix_length_le hp ((prefix_append _ _).trans hp') (by simp; omega)
  obtain ⟨r, rfl⟩ := hpp
  refine hplain e ?_
  have := hq.length_le
  rw [append_assoc, drop_append_of_le_length this]
  simp

omit [Quorums ν κ] in
theorem first_config_eq {p' : List ε} {e' : ε} {c c' : κ} (hq : q <+: p) (hq' : q <+: p')
    (hp : p ++ [e] <+: l) (hp' : p' ++ [e'] <+: l) (hplain : Plain (p.drop q.length))
    (hplain' : Plain (p'.drop q.length)) (he : config e = some c) (he' : config e' = some c') :
    c = c' := by
  rcases lt_trichotomy p.length p'.length with hlt | heq | hlt
  · rw [not_config_of_shorter hq hp hp' hlt hplain'] at he
    simp at he
  · have hpp := prefix_of_prefix_length_le hp hp' (by simp [heq])
    obtain ⟨-, hee⟩ := append_inj (hpp.eq_of_length (by simp [heq])) heq
    rw [singleton_inj] at hee
    rw [← hee, he] at he'
    exact some.inj he'
  · rw [not_config_of_shorter hq' hp' hp hlt hplain] at he'
    simp at he'

/-- A configuration entry of a coherent log follows a commit of its own term. -/
theorem Coherent.guard (hH : H.Coherent c₀) {c : κ} (hl : H.LogOk l) (hp : p ++ [e] <+: l) (he : config e = some c) :
    Next (cfg c₀ p) c ∧ ∃ n k, H.commit (term e) n k ∧ k ≤ p.length ∧ Plain (p.drop n) ∧
      (H.elog (term e)).take n = p.take n := by
  obtain ⟨hled, hpe, hlen⟩ := hl p e hp
  obtain ⟨hnext, n, k, hc, hk, hpl⟩ := hH.config_guard _ hled p e c hpe hlen he
  refine ⟨hnext, n, k, hc, hk, hpl, ?_⟩
  have hn := (hH.commit_pos _ _ _ hc).2.1
  obtain ⟨r, hr⟩ := hpe
  rw [← hr, append_assoc, take_append_of_le_length (by omega)]

/-- Every configuration entry of `l` is guarded by a commit within its first `g` entries. -/
def GuardedBy (H : History ν ε) (g : Nat) (l : List ε) : Prop :=
  ∀ p e n k, p ++ [e] <+: l → H.commit (term e) n k → k ≤ p.length →
    (H.elog (term e)).take n = p.take n → n ≤ g

/-- Beyond the prefix that guards it a coherent log has at most one configuration. -/
theorem Coherent.cfg_beyond (hH : H.Coherent c₀) (hl : H.LogOk l) (hq : q <+: l) (hg : H.GuardedBy q.length l) :
    cfg c₀ l = cfg c₀ q ∨ ∃ p e c, q <+: p ∧ p ++ [e] <+: l ∧ config e = some c ∧
      Plain (p.drop q.length) ∧ Next (cfg c₀ q) c ∧ cfg c₀ l = c := by
  obtain ⟨r, rfl⟩ := hq
  rcases plain_or_split r with h | ⟨a, e, c, b, rfl, he, hb⟩
  · exact .inl (cfg_append_plain _ _ h)
  · have hp : (q ++ a) ++ [e] <+: q ++ (a ++ e :: b) := ⟨b, by simp⟩
    obtain ⟨hnext, n, k, hc, hk, hpl, htake⟩ := hH.guard hl hp he
    have hn := hg _ _ _ _ hp hc hk htake
    have ha : Plain a := by
      intro x hx
      refine hpl x ?_
      rw [drop_append_of_le_length hn]
      exact mem_append_right _ hx
    rw [cfg_append_plain _ _ ha] at hnext
    refine .inr ⟨q ++ a, e, c, prefix_append _ _, hp, he, by simpa using ha, hnext, ?_⟩
    rw [show q ++ (a ++ e :: b) = ((q ++ a) ++ [e]) ++ b by simp, cfg_append_plain _ _ hb, cfg_concat, he, getD_some]

/-- `q` is empty or a committed prefix of a term before `u`. -/
def Base (H : History ν ε) (u : Nat) (q : List ε) : Prop :=
  q = [] ∨ ∃ t n k, H.commit t n k ∧ t < u ∧ q = (H.elog t).take n

section

variable (hH : H.Coherent c₀) (hcar : ∀ s < u, H.CarriedTo s) (hb : H.Base u q) (hl : H.LogOk l)
include hH hcar hb hl

/-- The first configuration beyond a committed prefix was created in the prefix's last term. -/
theorem Coherent.term_beyond {c : κ} (hu : ∀ a ∈ l, term a < u) (hg : H.GuardedBy q.length l)
    (hqp : q <+: p) (hp : p ++ [e] <+: l) (he : config e = some c) :
    q ≠ [] ∧ term e = lastTerm q := by
  obtain ⟨-, n, k, hc, hk, -, htake⟩ := hH.guard hl hp he
  have hn := hg _ _ _ _ hp hc hk htake
  have hpos := hH.commit_pos _ _ _ hc
  rcases hb with rfl | ⟨t, m, j, hcm, htu, rfl⟩
  · simp at hn
    omega
  obtain ⟨hlast, hlen⟩ := hH.lastTerm_commit hcm
  have hne : (H.elog t).take m ≠ [] := by
    intro h0
    rw [h0] at hn
    simp at hn
    omega
  refine ⟨hne, ?_⟩
  obtain ⟨a, ha, hat⟩ := lastTerm_mem hne
  have hge : t ≤ term e := by
    rw [← hlast, ← hat]
    exact hl.term_le hH hp a (hqp.subset ha)
  rw [hlast]
  by_contra hne'
  -- a later leader starts with the whole prefix, so its own commits lie beyond it
  have heu : term e < u := hu e (hp.subset (by simp))
  have := (hcar (term e) heu (hH.commit_led _ _ _ hc) t m j hcm (by omega)).length_le
  omega

/-- Quorums of two logs guarded by one committed prefix meet. -/
theorem Coherent.quorums_meet {m : List ε} (hm : H.LogOk m) (hlu : ∀ a ∈ l, term a < u)
    (hmu : ∀ a ∈ m, term a < u) (hql : q <+: l) (hqm : q <+: m) (hgl : H.GuardedBy q.length l)
    (hgm : H.GuardedBy q.length m) {Q R : Set ν} (hQ : IsQuorum (cfg c₀ l) Q)
    (hR : IsQuorum (cfg c₀ m) R) : (Q ∩ R).Nonempty := by
  rcases hH.cfg_beyond hl hql hgl with h | ⟨p, e, c, hqp, hp, he, hplain, hnext, hc⟩
  · rw [h] at hQ
    rcases hH.cfg_beyond hm hqm hgm with h' | ⟨_, _, _, _, _, _, _, hnext, rfl⟩
    · exact meets_self hQ (h' ▸ hR)
    · exact meets_next hnext hQ hR
  · rcases hH.cfg_beyond hm hqm hgm with h' | ⟨p', e', c', hqp', hp', he', hplain', hnext', hc'⟩
    · rw [Set.inter_comm]
      exact meets_next hnext (h' ▸ hR) (hc ▸ hQ)
    · -- both carry one: it is the first configuration after `q` in one leader's log
      obtain ⟨-, hte⟩ := hH.term_beyond hcar hb hl hlu hgl hqp hp he
      obtain ⟨-, hte'⟩ := hH.term_beyond hcar hb hm hmu hgm hqp' hp' he'
      have h1 := (hl p e hp).2.1
      have h2 := (hm p' e' hp').2.1
      have hcc : c = c' := first_config_eq hqp hqp' (hte ▸ h1) (hte' ▸ h2) hplain hplain' he he'
      exact meets_self hQ (by rw [hc, hcc, ← hc']; exact hR)

end

/-! ### Winning a term -/

/-- The committed prefixes of terms before `u` that are prefixes of `l` have a longest one. -/
theorem exists_base (u : Nat) (l : List ε) : ∃ q, H.Base u q ∧ q <+: l ∧
      ∀ t n k, H.commit t n k → t < u → (H.elog t).take n <+: l → ((H.elog t).take n).length ≤ q.length := by
  let good : Set Nat := {g | ∃ q, H.Base u q ∧ q <+: l ∧ q.length = g}
  have hne : good.Nonempty := ⟨0, [], .inl rfl, nil_prefix, rfl⟩
  have hbdd : BddAbove good := ⟨l.length, by rintro _ ⟨q, -, hq, rfl⟩; exact hq.length_le⟩
  obtain ⟨q, hb, hq, hlen⟩ := Nat.sSup_mem hne hbdd
  refine ⟨q, hb, hq, fun t n k hc ht hp => ?_⟩
  rw [hlen]
  exact le_csSup hbdd ⟨_, .inr ⟨t, n, k, hc, ht, rfl⟩, hp, rfl⟩

theorem exists_least_commit (P : Nat → Nat → Nat → Prop) (hc : H.commit t n k) (hP : P t n k) :
    ∃ t n k, H.commit t n k ∧ P t n k ∧ ∀ t' n' k', H.commit t' n' k' → P t' n' k' → t < t' ∨ (t = t' ∧ k ≤ k') := by
  let r : Nat × Nat → Nat × Nat → Prop := Prod.Lex (· < ·) (· < ·)
  have hwf : WellFounded r := WellFounded.prod_lex Nat.lt_wfRel.wf Nat.lt_wfRel.wf
  let bad : Set (Nat × Nat) := {a | ∃ n, H.commit a.1 n a.2 ∧ P a.1 n a.2}
  obtain ⟨⟨t1, k1⟩, ⟨n1, hc1, hP1⟩, hmin⟩ := hwf.has_min bad ⟨(t, k), n, hc, hP⟩
  refine ⟨t1, n1, k1, hc1, hP1, fun t' n' k' hc' hP' => ?_⟩
  have := hmin (t', k') ⟨n', hc', hP'⟩
  simp only [r, Prod.lex_def, not_or, not_and] at this
  omega

section

variable (hH : H.Coherent c₀)
include hH

/-- A node elected by a quorum of its own log's configuration holds every earlier commit. -/
theorem Coherent.winner_contains (hcar : ∀ s < u, H.CarriedTo s) {y : ν}
    (hother : ∀ w, H.elected u = some w → w ≠ y → H.CarriedTo u) (hs : H.LogOk (H.cand u y))
    (hsu : ∀ e ∈ H.cand u y, term e < u) (hw : H.Wins u y (cfg c₀ (H.cand u y)))
    (hc : H.commit t n k) (htu : t < u) : (H.elog t).take n <+: H.cand u y := by
  by_contra hbad
  -- the least commit the winner misses, and the longest one it has
  obtain ⟨t, n, k, hc, ⟨htu, hbad⟩, hmin⟩ := exists_least_commit
    (fun t n _ => t < u ∧ ¬ (H.elog t).take n <+: H.cand u y) hc ⟨htu, hbad⟩
  obtain ⟨q, hb, hqs, hmax⟩ := H.exists_base u (H.cand u y)
  have hled := hH.commit_led t n k hc
  have hpos := hH.commit_pos t n k hc
  have hlenk : ((H.elog t).take k).length = k := by simp; omega
  have hyok : H.LogOk ((H.elog t).take k) := (hH.elog_ok hled).mono (List.take_prefix _ _)
  have hterm : ∀ a ∈ (H.elog t).take k, term a ≤ t := fun a ha => hH.elog_term_le hled a (mem_of_mem_take ha)
  have hqk : q <+: (H.elog t).take k := by
    rcases hb with rfl | ⟨t', n', k', hc', htu', rfl⟩
    · exact nil_prefix
    · have hpos' := hH.commit_pos t' n' k' hc'
      have hled' := hH.commit_led t' n' k' hc'
      rcases lt_trichotomy t' t with hlt | rfl | hlt
      · have hst := hcar t htu hled t' n' k' hc' hlt
        refine hst.trans (prefix_of_prefix_length_le (hH.start_prefix t hled) (List.take_prefix _ _) ?_)
        rw [hlenk]
        omega
      · rcases lt_or_ge n' n with h | h
        · exact take_prefix_take_left (by omega)
        · exact absurd ((take_prefix_take_left h).trans hqs) hbad
      · -- the prefix would have come along with the later commit
        have hst := hcar t' htu' hled' t n k hc hlt
        refine absurd (List.IsPrefix.trans ?_ hqs) hbad
        refine hst.trans (prefix_of_prefix_length_le (hH.start_prefix t' hled') (List.take_prefix _ _) ?_)
        rw [length_take]
        omega
  have hgs : H.GuardedBy q.length (H.cand u y) := by
    intro p e m j hp hcm hj htake
    have hpre : p.take m <+: H.cand u y := (List.take_prefix _ _).trans ((prefix_append _ _).trans hp)
    have := hmax _ m j hcm (hsu e (hp.subset (by simp))) (htake ▸ hpre)
    rwa [(hH.lastTerm_commit hcm).2] at this
  have hgk : H.GuardedBy q.length ((H.elog t).take k) := by
    intro p e m j hp hcm hj htake
    have hte : term e ≤ t := hterm e (hp.subset (by simp))
    have hpk := hp.length_le
    rw [hlenk, length_append, length_singleton] at hpk
    by_contra hlt
    -- the guarding commit is smaller, so the winner has it
    have hgood : (H.elog (term e)).take m <+: H.cand u y := by
      by_contra hno
      rcases hmin _ m j hcm ⟨by omega, hno⟩ with h | ⟨-, h⟩ <;> omega
    have := hmax _ m j hcm (by omega) hgood
    rw [(hH.lastTerm_commit hcm).2] at this
    exact hlt this
  obtain ⟨V, hV, hvote⟩ := hw
  obtain ⟨Q, hQ, hack⟩ := hH.commit_quorum t n k hc
  obtain ⟨x, hxV, hxQ⟩ := hH.quorums_meet hcar hb hs hyok hsu
    (fun a ha => (hterm a ha).trans_lt htu) hqs hqk hgs hgk hV hQ
  obtain ⟨l, hv⟩ := hvote x hxV
  obtain ⟨m, hnm, hm⟩ := hack x hxQ
  exact hbad (hH.vote_carries hcar hc htu hother hm hnm hv hs hsu)

/-- Leader completeness: a committed prefix is in the log every later leader starts with. -/
theorem Coherent.carried (u : Nat) : H.CarriedTo u := by
  induction u using Nat.strongRecOn with
  | ind u ih =>
    rintro ⟨x, hx⟩ t n k hc htu
    have hst := hH.start_cand u x hx
    have hled : H.Led u := ⟨x, hx⟩
    rw [hst]
    have hother : ∀ w, H.elected u = some w → w ≠ x → H.CarriedTo u := by
      intro w hw hne
      rw [hx, some.injEq] at hw
      exact absurd hw.symm hne
    exact hH.winner_contains ih hother (hst ▸ hH.start_ok u hled) (hst ▸ hH.start_terms u hled)
      (hst ▸ hH.elected_wins u x hx) hc htu

/-- A node elected by a quorum of its own log's configuration is the only leader of the term. -/
theorem Coherent.winner_unique {y z : ν} (hs : H.LogOk (H.cand u y))
    (hsu : ∀ e ∈ H.cand u y, term e < u) (hw : H.Wins u y (cfg c₀ (H.cand u y)))
    (hz : H.elected u = some z) : y = z := by
  have hcar : ∀ s < u, H.CarriedTo s := fun s _ => hH.carried s
  have hled : H.Led u := ⟨z, hz⟩
  have hst := hH.start_cand u z hz
  have hzs : H.LogOk (H.cand u z) := hst ▸ hH.start_ok u hled
  have hzu : ∀ e ∈ H.cand u z, term e < u := hst ▸ hH.start_terms u hled
  obtain ⟨W, hW, hvoteW⟩ := hst ▸ hH.elected_wins u z hz
  obtain ⟨q, hb, hqs, hmax⟩ := H.exists_base u (H.cand u y)
  have hqz : q <+: H.cand u z := by
    rcases hb with rfl | ⟨t, n, k, hc, htu, rfl⟩
    · exact nil_prefix
    · exact hst ▸ hH.carried u hled t n k hc htu
  -- both logs hold every earlier commit, so `q` guards both
  have hguard : ∀ l : List ε, (∀ e ∈ l, term e < u) → H.GuardedBy q.length l := by
    intro l hlu p e n k hp hc hk htake
    have htu := hlu e (hp.subset (by simp))
    have := hmax _ n k hc htu (hH.winner_contains hcar (fun _ _ _ => hH.carried u) hs hsu hw hc htu)
    rwa [(hH.lastTerm_commit hc).2] at this
  obtain ⟨V, hV, hvoteV⟩ := hw
  obtain ⟨x, hxV, hxW⟩ := hH.quorums_meet hcar hb hs hzs hsu hzu hqs hqz (hguard _ hsu) (hguard _ hzu) hV hW
  obtain ⟨l, hl⟩ := hvoteV x hxV
  obtain ⟨m, hm⟩ := hvoteW x hxW
  exact hH.vote_unique x u y z l m hl hm

/-- A node elected by a quorum of a committed prefix's configuration holds that prefix. -/
theorem Coherent.winner_contains_base {y : ν} (hs : H.LogOk (H.cand u y))
    (hsu : ∀ e ∈ H.cand u y, term e < u) (hw : H.Wins u y (cfg c₀ q)) (hc : H.commit t n k)
    (htu : t < u) (hq : q <+: (H.elog t).take n) : q <+: H.cand u y := by
  have hcar : ∀ s < u, H.CarriedTo s := fun s _ => hH.carried s
  -- the least commit that covers `q` was counted under `q`'s configuration or the next one
  obtain ⟨t, n, k, hc, ⟨htu, hq⟩, hmin⟩ := exists_least_commit
    (fun t n _ => t < u ∧ q <+: (H.elog t).take n) hc ⟨htu, hq⟩
  have hled := hH.commit_led t n k hc
  have hpos := hH.commit_pos t n k hc
  have hlenk : ((H.elog t).take k).length = k := by simp; omega
  have hqk : q <+: (H.elog t).take k := hq.trans (take_prefix_take_left hpos.2.1)
  have hgk : H.GuardedBy q.length ((H.elog t).take k) := by
    intro p e m j hp hcm hj htake
    have hte : term e ≤ t := hH.elog_term_le hled e (mem_of_mem_take (hp.subset (by simp)))
    have hpk := hp.length_le
    rw [hlenk, length_append, length_singleton] at hpk
    by_contra hlt
    have hcov : q <+: (H.elog (term e)).take m := by
      rw [htake]
      refine prefix_of_prefix_length_le hqk ((List.take_prefix _ _).trans ((prefix_append _ _).trans hp)) ?_
      have := (hH.commit_pos _ _ _ hcm).2.1
      simp only [length_take]
      omega
    rcases hmin _ m j hcm ⟨by omega, hcov⟩ with h | ⟨-, h⟩ <;> omega
  obtain ⟨V, hV, hvote⟩ := hw
  obtain ⟨Q, hQ, hack⟩ := hH.commit_quorum t n k hc
  obtain ⟨x, hxV, hxQ⟩ : (V ∩ Q).Nonempty := by
    have hok := (hH.elog_ok hled).mono (List.take_prefix k _)
    rcases hH.cfg_beyond hok hqk hgk with h | ⟨_, _, _, _, _, _, _, hnext, rfl⟩
    · exact meets_self hV (h ▸ hQ)
    · exact meets_next hnext hV hQ
  obtain ⟨l, hv⟩ := hvote x hxV
  obtain ⟨m, hnm, hm⟩ := hack x hxQ
  exact hq.trans (hH.vote_carries hcar hc htu (fun _ _ _ => hH.carried u) hm hnm hv hs hsu)

end

end History

end Consensus
