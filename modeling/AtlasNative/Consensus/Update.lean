import AtlasNative.Consensus.Completeness

/-!
# How a history grows

A protocol step records a fact: a campaign, a vote, an election, a new entry, an acknowledgement, a
commit. For each there is an operation on histories and the condition under which it keeps the
history coherent. `Ext x H H'` says that `H'` records more than `H` and that what it adds is about
node `x`; it is what other nodes have to know about a step of `x`.
-/

namespace Consensus

open Quorums LogEntry List Function Option

namespace History

variable {ν ε κ : Type} [LogEntry ε κ]

/-- `H'` extends `H` by facts about `x`. -/
structure Ext (x : ν) (H H' : History ν ε) : Prop where
  elected : ∀ t y, H.elected t = some y → H'.elected t = some y
  elected_new : ∀ t y, H'.elected t = some y → H.elected t = some y ∨ y = x
  start : ∀ t, H.Led t → H'.start t = H.start t
  elog : ∀ t, H.Led t → H.elog t <+: H'.elog t
  elog_other : ∀ t y, H.elected t = some y → y ≠ x → H'.elog t = H.elog t
  cand : ∀ t y l, H.vote y t y l → H'.cand t y = H.cand t y
  vote : ∀ y t z l, H.vote y t z l → H'.vote y t z l
  vote_new : ∀ y t z l, H'.vote y t z l → H.vote y t z l ∨ y = x
  ack : ∀ y t m, H.ack y t m → H'.ack y t m
  ack_new : ∀ y t m, H'.ack y t m → H.ack y t m ∨ y = x
  commit : ∀ t n k, H.commit t n k → H'.commit t n k
  commit_new : ∀ t n k, H'.commit t n k → H.commit t n k ∨ H'.elected t = some x

variable {t n : Nat} {l : List ε} {y : ν}

namespace Ext

variable {x : ν} {H H' H'' : History ν ε}

theorem refl (x : ν) (H : History ν ε) : Ext x H H where
  elected _ _ h := h
  elected_new _ _ h := .inl h
  start _ _ := rfl
  elog _ _ := prefix_rfl
  elog_other _ _ _ _ := rfl
  cand _ _ _ _ := rfl
  vote _ _ _ _ h := h
  vote_new _ _ _ _ h := .inl h
  ack _ _ _ h := h
  ack_new _ _ _ h := .inl h
  commit _ _ _ h := h
  commit_new _ _ _ h := .inl h

section

variable (h : Ext x H H')
include h

theorem led (ht : H.Led t) : H'.Led t := by
  obtain ⟨y, hy⟩ := ht
  exact ⟨y, h.elected t y hy⟩

theorem trans (h' : Ext x H' H'') : Ext x H H'' where
  elected t y hy := h'.elected t y (h.elected t y hy)
  elected_new t y hy := by
    rcases h'.elected_new t y hy with hy | rfl
    · exact h.elected_new t y hy
    · exact .inr rfl
  start t ht := (h'.start t (h.led ht)).trans (h.start t ht)
  elog t ht := (h.elog t ht).trans (h'.elog t (h.led ht))
  elog_other t y hy hne := (h'.elog_other t y (h.elected t y hy) hne).trans (h.elog_other t y hy hne)
  cand t y l hv := (h'.cand t y l (h.vote _ _ _ _ hv)).trans (h.cand t y l hv)
  vote y t z l hv := h'.vote y t z l (h.vote y t z l hv)
  vote_new y t z l hv := by
    rcases h'.vote_new y t z l hv with hv | rfl
    · exact h.vote_new y t z l hv
    · exact .inr rfl
  ack y t m ha := h'.ack y t m (h.ack y t m ha)
  ack_new y t m ha := by
    rcases h'.ack_new y t m ha with ha | rfl
    · exact h.ack_new y t m ha
    · exact .inr rfl
  commit t n k hc := h'.commit t n k (h.commit t n k hc)
  commit_new t n k hc := by
    rcases h'.commit_new t n k hc with hc | hx
    · rcases h.commit_new t n k hc with hc | hx
      · exact .inl hc
      · exact .inr (h'.elected t x hx)
    · exact .inr hx

theorem logOk (hl : H.LogOk l) : H'.LogOk l := by
  intro p e hp
  obtain ⟨hled, hpre, hlen⟩ := hl p e hp
  exact ⟨h.led hled, hpre.trans (h.elog _ hled), by rw [h.start _ hled]; exact hlen⟩

theorem take_elog (ht : H.Led t) (hn : n ≤ (H.elog t).length) : (H'.elog t).take n = (H.elog t).take n := by
  obtain ⟨r, hr⟩ := h.elog t ht
  rw [← hr, take_append_of_le_length hn]

theorem elog_length (ht : H.Led t) : (H.elog t).length ≤ (H'.elog t).length := (h.elog t ht).length_le

theorem overridden {u : Nat} (ht : H.Led t) (hn : n ≤ (H.elog t).length) (ho : H.Overridden t n u y) :
    H'.Overridden t n u y := by
  obtain ⟨s, w, hts, hw, hsu, hno⟩ := ho
  refine ⟨s, w, hts, h.elected s w hw, hsu, ?_⟩
  rwa [h.take_elog ht hn, h.start s ⟨w, hw⟩]

end

omit [LogEntry ε κ] in
theorem wins [Quorums ν κ] (h : Ext x H H') {c : κ} (hw : H.Wins t y c) : H'.Wins t y c := by
  obtain ⟨V, hV, hv⟩ := hw
  refine ⟨V, hV, fun z hz => ?_⟩
  obtain ⟨l, hl⟩ := hv z hz
  exact ⟨l, h.vote _ _ _ _ hl⟩

end Ext

/-- `H'` records nothing more than `H` about `x`. -/
structure Untouched (x : ν) (H H' : History ν ε) : Prop where
  vote : ∀ t y l, H'.vote x t y l → H.vote x t y l
  ack : ∀ t m, H'.ack x t m → H.ack x t m
  elected : ∀ t, H'.elected t = some x → H.elected t = some x
  elog : ∀ t, H.elected t = some x → H'.elog t = H.elog t
  commit : ∀ t n k, H.elected t = some x → H'.commit t n k → H.commit t n k

variable {x : ν}

omit [LogEntry ε κ] in
theorem Ext.untouched {H H' : History ν ε} (h : Ext y H H') (hne : x ≠ y) : Untouched x H H' where
  vote t z l hv := (h.vote_new x t z l hv).resolve_right hne
  ack t m ha := (h.ack_new x t m ha).resolve_right hne
  elected t ht := (h.elected_new t x ht).resolve_right hne
  elog t ht := h.elog_other t x ht hne
  commit t n k ht hc := (h.commit_new t n k hc).resolve_right fun hy =>
    hne (mem_unique (h.elected t x ht) hy)

/-! ### The operations -/

variable (H : History ν ε)

def addVote (x : ν) (t : Nat) (y : ν) (l : List ε) : History ν ε :=
  { H with vote := fun x' t' y' l' => H.vote x' t' y' l' ∨ x' = x ∧ t' = t ∧ y' = y ∧ l' = l }

/-- `x` acknowledges, for each `(t, m)` of `A`, the first `m` entries of `t`'s log. -/
def addAcks (x : ν) (A : Set (Nat × Nat)) : History ν ε :=
  { H with ack := fun x' t m => H.ack x' t m ∨ x' = x ∧ (t, m) ∈ A }

def addCommit (t n k : Nat) : History ν ε :=
  { H with commit := fun t' n' k' => H.commit t' n' k' ∨ t' = t ∧ n' = n ∧ k' = k }

open scoped Classical in
/-- `x` campaigns in `t` with log `l` and votes for itself. -/
noncomputable def campaign (x : ν) (t : Nat) (l : List ε) : History ν ε :=
  { H with cand := fun t' y => if t' = t ∧ y = x then l else H.cand t' y }.addVote x t x l

/-- `x` is elected in `t` with the log it campaigned with. -/
def elect (x : ν) (t : Nat) : History ν ε :=
  { H with
    elected := Function.update H.elected t (some x)
    start := Function.update H.start t (H.cand t x)
    elog := Function.update H.elog t (H.cand t x) }

/-- The leader of `t` appends `e`. -/
def extend (t : Nat) (e : ε) : History ν ε :=
  { H with elog := Function.update H.elog t (H.elog t ++ [e]) }

variable {H}

theorem ext_addVote (x : ν) (t : Nat) (y : ν) (l : List ε) : Ext x H (H.addVote x t y l) := { Ext.refl x H with
    vote := fun _ _ _ _ h => .inl h
    vote_new := fun _ _ _ _ h => h.imp id (·.1) }

theorem ext_addAcks (x : ν) (A : Set (Nat × Nat)) : Ext x H (H.addAcks x A) := { Ext.refl x H with
    ack := fun _ _ _ h => .inl h
    ack_new := fun _ _ _ h => h.imp id (·.1) }

theorem ext_addCommit (hx : H.elected t = some x) (n k : Nat) : Ext x H (H.addCommit t n k) := { Ext.refl x H with
    commit := fun _ _ _ h => .inl h
    commit_new := fun _ _ _ h => h.imp id fun h => by rw [h.1]; exact hx }

theorem ext_campaign (hno : ∀ y l, ¬ H.vote x t y l) (l : List ε) : Ext x H (H.campaign x t l) := { Ext.refl x H with
    cand := fun t' y m hv => by
      simp only [campaign, addVote]
      refine if_neg ?_
      rintro ⟨rfl, rfl⟩
      exact hno y m hv
    vote := fun _ _ _ _ h => .inl h
    vote_new := fun _ _ _ _ h => h.imp id (·.1) }

theorem ext_elect (hno : H.elected t = none) : Ext x H (H.elect x t) := by
  have hne : ∀ {t'}, H.Led t' → t' ≠ t := by
    rintro t' ⟨y, hy⟩ rfl
    rw [hno] at hy
    simp at hy
  exact { Ext.refl x H with
      elected := fun t' y hy => by
        simp only [elect]
        rw [update_of_ne (hne ⟨y, hy⟩)]
        exact hy
      elected_new := fun t' y hy => by
        simp only [elect] at hy
        by_cases h : t' = t
        · subst h
          rw [update_self] at hy
          exact .inr (some.inj hy).symm
        · rw [update_of_ne h] at hy
          exact .inl hy
      start := fun t' ht => update_of_ne (hne ht) _ _
      elog := fun t' ht => by
        simp only [elect]
        rw [update_of_ne (hne ht)]
      elog_other := fun t' y hy _ => update_of_ne (hne ⟨y, hy⟩) _ _
      commit_new := fun _ _ _ h => .inl h }

theorem ext_extend (hx : H.elected t = some x) (e : ε) : Ext x H (H.extend t e) := { Ext.refl x H with
    elog := fun t' _ => by
      simp only [extend]
      by_cases h : t' = t
      · subst h
        rw [update_self]
        exact prefix_append _ _
      · rw [update_of_ne h]
    elog_other := fun t' y hy hne => by
      refine update_of_ne ?_ _ _
      rintro rfl
      rw [hx] at hy
      exact hne (some.inj hy).symm }

/-! ### Coherence is kept -/

variable [Quorums ν κ] {c₀ : κ}

section

variable (hH : H.Coherent c₀)
include hH

theorem Coherent.addVote (hl : H.LogOk l) (hup : UpToDate (H.cand t y) l)
    (huniq : ∀ z m, H.vote x t z m → z = y) (hself : x = y ∨ ∃ m, H.vote y t y m)
    (hack : ∀ t' m n, H.ack x t' m → t' < t → n ≤ m →
      (H.elog t').take n <+: l ∨ H.Overridden t' n t y) : (H.addVote x t y l).Coherent c₀ :=
  { hH with
    elected_wins := fun t' z hz => (ext_addVote x t y l).wins (hH.elected_wins t' z hz)
    vote_ok := by
      rintro x' t' y' l' (hv | ⟨rfl, rfl, rfl, rfl⟩)
      · exact hH.vote_ok x' t' y' l' hv
      · exact ⟨hl, hup⟩
    vote_unique := by
      rintro x' t' y' z' l' m' (hv | ⟨rfl, rfl, rfl, rfl⟩) (hw | ⟨hx, ht, rfl, rfl⟩)
      · exact hH.vote_unique x' t' y' z' l' m' hv hw
      · subst hx ht
        exact huniq y' l' hv
      · exact (huniq z' m' hw).symm
      · rfl
    vote_self := by
      rintro x' t' y' l' (hv | ⟨rfl, rfl, rfl, rfl⟩)
      · obtain ⟨m, hm⟩ := hH.vote_self x' t' y' l' hv
        exact ⟨m, .inl hm⟩
      · rcases hself with rfl | ⟨m, hm⟩
        · exact ⟨l', .inr ⟨rfl, rfl, rfl, rfl⟩⟩
        · exact ⟨m, .inl hm⟩
    ack_vote := by
      rintro x' t' m u y' l' ha (hv | ⟨rfl, rfl, rfl, rfl⟩) htu n hn
      · exact hH.ack_vote x' t' m u y' l' ha hv htu n hn
      · exact hack t' m n ha htu hn }

theorem Coherent.campaign (hl : H.LogOk l) (hno : ∀ y m, ¬ H.vote x t y m)
    (hel : H.elected t ≠ some x) (hack : ∀ t' m n, H.ack x t' m → t' < t → n ≤ m →
      (H.elog t').take n <+: l ∨ H.Overridden t' n t x) : (H.campaign x t l).Coherent c₀ := by
  have hcand : ∀ z t' y m, H.vote z t' y m → (H.campaign x t l).cand t' y = H.cand t' y := by
    intro z t' y m hv
    obtain ⟨m', hm'⟩ := hH.vote_self z t' y m hv
    exact (ext_campaign hno l).cand t' y m' hm'
  have hset : Coherent { H with cand := (H.campaign x t l).cand } c₀ := { hH with
      start_cand := fun t' y hy => by
        rw [hH.start_cand t' y hy]
        simp only [History.campaign, History.addVote]
        rw [if_neg]
        rintro ⟨rfl, rfl⟩
        exact hel hy
      vote_ok := fun x' t' y' l' hv => by
        rw [hcand x' t' y' l' hv]
        exact hH.vote_ok x' t' y' l' hv }
  refine hset.addVote hl ?_ (fun z m hv => absurd hv (hno z m)) (.inl rfl) hack
  simp [History.campaign, History.addVote, UpToDate]

theorem Coherent.addAcks {A : Set (Nat × Nat)} (hA : ∀ t m, (t, m) ∈ A → H.Led t ∧ m ≤ (H.elog t).length ∧
      ∀ u y l, H.vote x u y l → t < u → (H.elog t).take m <+: l) : (H.addAcks x A).Coherent c₀ :=
  { hH with
    ack_led := by
      rintro x' t m (ha | ⟨rfl, ha⟩)
      · exact hH.ack_led x' t m ha
      · exact (hA t m ha).1
    ack_len := by
      rintro x' t m (ha | ⟨rfl, ha⟩)
      · exact hH.ack_len x' t m ha
      · exact (hA t m ha).2.1
    ack_vote := by
      rintro x' t m u y l (ha | ⟨rfl, ha⟩) hv htu n hn
      · exact hH.ack_vote x' t m u y l ha hv htu n hn
      · exact .inl ((take_prefix_take_left hn).trans ((hA t m ha).2.2 u y l hv htu))
    commit_quorum := fun t n k hc => by
      obtain ⟨Q, hQ, hq⟩ := hH.commit_quorum t n k hc
      refine ⟨Q, hQ, fun y hy => ?_⟩
      obtain ⟨m, hn, ha⟩ := hq y hy
      exact ⟨m, hn, .inl ha⟩ }

theorem Coherent.addCommit {k : Nat} (ht : H.Led t) (hpos : (H.start t).length < n ∧ n ≤ k ∧ k ≤ (H.elog t).length)
    (hq : ∃ Q : Set ν, IsQuorum (cfg c₀ ((H.elog t).take k)) Q ∧ ∀ x ∈ Q, ∃ m, n ≤ m ∧ H.ack x t m) :
    (H.addCommit t n k).Coherent c₀ :=
  { hH with
    commit_led := by
      rintro t' n' k' (hc | ⟨rfl, rfl, rfl⟩)
      · exact hH.commit_led t' n' k' hc
      · exact ht
    commit_pos := by
      rintro t' n' k' (hc | ⟨rfl, rfl, rfl⟩)
      · exact hH.commit_pos t' n' k' hc
      · exact hpos
    commit_quorum := by
      rintro t' n' k' (hc | ⟨rfl, rfl, rfl⟩)
      · exact hH.commit_quorum t' n' k' hc
      · exact hq
    config_guard := fun t' ht' p e c hp hlen he => by
      obtain ⟨hnext, n', k', hc, h⟩ := hH.config_guard t' ht' p e c hp hlen he
      exact ⟨hnext, n', k', .inl hc, h⟩ }

theorem Coherent.elect (hno : H.elected t = none) (hs : H.LogOk (H.cand t x))
    (hterms : ∀ e ∈ H.cand t x, term e < t) (hw : H.Wins t x (cfg c₀ (H.cand t x))) :
    (H.elect x t).Coherent c₀ := by
  have hext : Ext x H (H.elect x t) := ext_elect hno
  have hstart : (H.elect x t).start t = H.cand t x := update_self ..
  have helog : (H.elect x t).elog t = H.cand t x := update_self ..
  have hled : ∀ {s}, (H.elect x t).Led s → s = t ∨ H.Led s := by
    rintro s ⟨y, hy⟩
    by_cases h : s = t
    · exact .inl h
    · simp only [History.elect] at hy
      rw [update_of_ne h] at hy
      exact .inr ⟨y, hy⟩
  have hne : ∀ {s}, H.Led s → s ≠ t := by
    rintro s ⟨y, hy⟩ rfl
    rw [hno] at hy
    simp at hy
  have hold : ∀ {s}, H.Led s → (H.elect x t).elog s = H.elog s := fun h => update_of_ne (hne h) _ _
  constructor
  case start_prefix =>
    intro s hs'
    rcases hled hs' with rfl | h
    · rw [hstart, helog]
    · rw [hext.start s h, hold h]
      exact hH.start_prefix s h
  case start_terms =>
    intro s hs'
    rcases hled hs' with rfl | h
    · rwa [hstart]
    · rw [hext.start s h]
      exact hH.start_terms s h
  case elog_terms =>
    intro s hs'
    rcases hled hs' with rfl | h
    · simp [hstart, helog]
    · rw [hext.start s h, hold h]
      exact hH.elog_terms s h
  case start_ok =>
    intro s hs'
    rcases hled hs' with rfl | h
    · rw [hstart]
      exact hext.logOk hs
    · rw [hext.start s h]
      exact hext.logOk (hH.start_ok s h)
  case start_cand =>
    intro s y hy
    rcases hled ⟨y, hy⟩ with rfl | h
    · rcases hext.elected_new s y hy with h | rfl
      · exact absurd rfl (hne ⟨y, h⟩)
      · exact hstart
    · rcases hext.elected_new s y hy with h' | rfl
      · rw [hext.start s h]
        exact hH.start_cand s y h'
      · obtain ⟨z, hz⟩ := h
        have := hext.elected s z hz
        rw [hy, some.injEq] at this
        rw [hext.start s ⟨z, hz⟩, hH.start_cand s z hz, this]
        rfl
  case elected_wins =>
    intro s y hy
    rcases hext.elected_new s y hy with h | rfl
    · rw [hext.start s ⟨y, h⟩]
      exact hext.wins (hH.elected_wins s y h)
    · rcases hled ⟨y, hy⟩ with rfl | ⟨z, hz⟩
      · rw [hstart]
        exact hext.wins hw
      · have hzy : z = y := by
          have := hext.elected s z hz
          rw [hy, some.injEq] at this
          exact this.symm
        rw [hext.start s ⟨z, hz⟩]
        exact hext.wins (hH.elected_wins s y (hzy ▸ hz))
  case vote_ok =>
    exact fun y s z l hv => ⟨hext.logOk (hH.vote_ok y s z l hv).1, (hH.vote_ok y s z l hv).2⟩
  case vote_unique => exact hH.vote_unique
  case vote_self => exact hH.vote_self
  case ack_led => exact fun y s m ha => hext.led (hH.ack_led y s m ha)
  case ack_len =>
    intro y s m ha
    exact (hH.ack_len y s m ha).trans (hext.elog_length (hH.ack_led y s m ha))
  case ack_vote =>
    intro y s m u z l ha hv hsu n hn
    have hled := hH.ack_led y s m ha
    have hlen := hH.ack_len y s m ha
    rw [hext.take_elog hled (by omega)]
    exact (hH.ack_vote y s m u z l ha hv hsu n hn).imp id (hext.overridden hled (by omega))
  case commit_led => exact fun s n k hc => hext.led (hH.commit_led s n k hc)
  case commit_pos =>
    intro s n k hc
    have hled := hH.commit_led s n k hc
    rw [hext.start s hled, hold hled]
    exact hH.commit_pos s n k hc
  case commit_quorum =>
    intro s n k hc
    rw [hold (hH.commit_led s n k hc)]
    exact hH.commit_quorum s n k hc
  case config_guard =>
    intro s hs' p e c hp hlen he
    rcases hled hs' with rfl | h
    · -- the new leader has created no entry yet
      rw [helog] at hp
      rw [hstart] at hlen
      have := hp.length_le
      simp at this
      omega
    · rw [hold h] at hp
      rw [hext.start s h] at hlen
      exact hH.config_guard s h p e c hp hlen he

theorem Coherent.extend {e : ε} (hx : H.elected t = some x) (he : term e = t)
    (hcfg : ∀ c, config e = some c → Next (cfg c₀ (H.elog t)) c ∧
      ∃ n k, H.commit t n k ∧ Plain ((H.elog t).drop n)) : (H.extend t e).Coherent c₀ := by
  have hext : Ext x H (H.extend t e) := ext_extend hx e
  have helog : (H.extend t e).elog t = H.elog t ++ [e] := update_self ..
  have hold : ∀ {s}, s ≠ t → (H.extend t e).elog s = H.elog s := fun h => update_of_ne h _ _
  constructor
  case start_prefix => exact fun s hs => (hH.start_prefix s hs).trans (hext.elog s hs)
  case start_terms => exact hH.start_terms
  case elog_terms =>
    intro s hs a ha
    by_cases h : s = t
    · subst h
      have hle := (hH.start_prefix s hs).length_le
      rw [helog, show (H.extend s e).start s = H.start s from rfl, drop_append_of_le_length hle] at ha
      rcases mem_append.mp ha with ha | ha
      · exact hH.elog_terms s hs a ha
      · rw [mem_singleton.mp ha]
        exact he
    · rw [hold h] at ha
      exact hH.elog_terms s hs a ha
  case start_ok => exact fun s hs => hext.logOk (hH.start_ok s hs)
  case start_cand => exact hH.start_cand
  case elected_wins => exact hH.elected_wins
  case vote_ok =>
    exact fun y s z l hv => ⟨hext.logOk (hH.vote_ok y s z l hv).1, (hH.vote_ok y s z l hv).2⟩
  case vote_unique => exact hH.vote_unique
  case vote_self => exact hH.vote_self
  case ack_led => exact hH.ack_led
  case ack_len =>
    intro y s m ha
    exact (hH.ack_len y s m ha).trans (hext.elog_length (hH.ack_led y s m ha))
  case ack_vote =>
    intro y s m u z l ha hv hsu n hn
    have hled := hH.ack_led y s m ha
    have hlen := hH.ack_len y s m ha
    rw [hext.take_elog hled (by omega)]
    exact (hH.ack_vote y s m u z l ha hv hsu n hn).imp id (hext.overridden hled (by omega))
  case commit_led => exact hH.commit_led
  case commit_pos =>
    intro s n k hc
    obtain ⟨h1, h2, h3⟩ := hH.commit_pos s n k hc
    exact ⟨h1, h2, h3.trans (hext.elog_length (hH.commit_led s n k hc))⟩
  case commit_quorum =>
    intro s n k hc
    rw [hext.take_elog (hH.commit_led s n k hc) (hH.commit_pos s n k hc).2.2]
    exact hH.commit_quorum s n k hc
  case config_guard =>
    intro s hs p a c hp hlen ha
    by_cases h : s = t
    · subst h
      rw [helog] at hp
      rcases lt_or_ge p.length (H.elog s).length with hlt | hge
      · refine hH.config_guard s hs p a c ?_ hlen ha
        exact prefix_of_prefix_length_le hp (prefix_append _ _) (by simp; omega)
      · -- the new entry: everything before it was there when the guard was checked
        have heq := hp.eq_of_length (by have := hp.length_le; simp at this ⊢; omega)
        obtain rfl := append_inj_left' heq rfl
        have hae : a = e := by simpa using heq
        obtain ⟨hnext, n, k, hc, hplain⟩ := hcfg c (hae ▸ ha)
        exact ⟨hnext, n, k, hc, (hH.commit_pos s n k hc).2.2, hplain⟩
    · rw [hold h] at hp
      exact hH.config_guard s hs p a c hp hlen ha

end

end History

end Consensus
