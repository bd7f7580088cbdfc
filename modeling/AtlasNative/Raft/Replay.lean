import AtlasNative.Raft.Local
import AtlasNative.Consensus.Certified

/-!
# Catalogs as replayed logs

A catalog stands for the log it has applied. What the nodes keep of it besides its contents, its
position, the term of the last entry and the voters, can be read off that log.
-/

namespace AtlasNative

open Consensus List MemCatalog LogEntry

/-- `c` is what applying the entries of `l` to an empty catalog gives. -/
inductive Replay : MemCatalog → List Entry → Prop
  | nil : Replay {} []
  | concat {c c' : MemCatalog} {l : List Entry} {e : Entry} {out : Outcome} (h : Replay c l)
      (hidx : e.index = l.length + 1)
      (happ : c.applyCommitted e.term e.index e.command = (out, c'))
      (hout : (∃ gc, out = .ok gc) ∨ ∃ err, out = .err err) : Replay c' (l ++ [e])

namespace Replay

variable {c c' : MemCatalog} {l : List Entry}

theorem appliedIndex (h : Replay c l) : c.appliedIndex = l.length := by
  induction h with
  | nil => rfl
  | concat _ hidx happ hout ih =>
    have := (applyCommitted_stamp (by omega) happ hout).1
    simp
    omega

theorem currentTerm (h : Replay c l) : c.currentTerm = lastTerm l := by
  cases h with
  | nil => rfl
  | concat h hidx happ hout =>
    have := h.appliedIndex
    rw [lastTerm_concat]
    exact (applyCommitted_stamp (by omega) happ hout).2.1

/-- A log decides the catalog. -/
theorem unique (h : Replay c l) (h' : Replay c' l) : c = c' := by
  induction h generalizing c' with
  | nil =>
    generalize hl : ([] : List Entry) = l at h'
    cases h' with
    | nil => rfl
    | concat => simp at hl
  | concat _ hidx happ hout ih =>
    rename_i l e _ _
    generalize hl : l ++ [e] = l' at h'
    cases h' with
    | nil => simp at hl
    | concat h' _ happ' =>
      obtain ⟨rfl, he⟩ := append_inj' hl rfl
      obtain rfl := singleton_inj.mp he
      obtain rfl := ih h'
      rw [happ] at happ'
      exact (Prod.mk.inj happ').2

/-- The voters are those of the last configuration applied. -/
theorem membership (h : Replay c l)
    (hvalid : ∀ e ∈ l, ∀ m, config e = some m → m.Valid) : c.membership = lastConfig l := by
  induction h with
  | nil => rfl
  | concat h hidx happ hout ih =>
    rename_i c0 c1 l e out
    have hstamp := applyCommitted_stamp (by have := h.appliedIndex; omega) happ hout
    rw [lastConfig_concat]
    cases hcmd : e.command with
    | changeMembership m addrs =>
      have hcfg : config e = some m := by simp [config, hcmd]
      rw [hcfg]
      exact hstamp.2.2.1 m addrs hcmd (hvalid e (by simp) m hcfg)
    | _ =>
      have hcfg : config e = none := by simp [config, hcmd]
      rw [hcfg, hstamp.2.2.2 (by simp [hcmd]), ih fun e' he' => hvalid e' (by simp [he'])]
      rfl

end Replay

/-! ### Logs of a history -/

/-- Every leader's log is numbered from 1. -/
def Numbered (H : History NodeId Entry) : Prop := ∀ t, H.Led t → Contiguous 0 (H.elog t)

theorem Numbered.log {H : History NodeId Entry} (h : Numbered H) {l : List Entry} (hl : H.LogOk l) :
    Contiguous 0 l := by
  intro i e he
  have hp : l.take i ++ [e] <+: l := take_succ_of_getElem? he ▸ take_prefix _ _
  obtain ⟨hled, hpre, -⟩ := hl _ _ hp
  obtain ⟨hlt, -⟩ := List.getElem?_eq_some_iff.mp he
  refine h _ hled i e ?_
  have hlen : (l.take i).length = i := by simp; omega
  obtain ⟨r, hr⟩ := hpre
  rw [← hr, append_assoc, getElem?_append_right (by omega), hlen]
  simp

/-- The configurations of a log follow one another from the first voters on. -/
theorem config_valid {H : History NodeId Entry} {m0 : Membership} (hH : H.Coherent m0)
    (hm0 : m0.Valid) {l : List Entry} (hl : H.LogOk l) :
    (∀ e ∈ l, ∀ m, config e = some m → m.Valid) ∧ (cfg m0 l).Valid := by
  induction l using reverseRecOn with
  | nil => exact ⟨by simp, hm0⟩
  | append_singleton l e ih =>
    obtain ⟨ih, ihcfg⟩ := ih (hl.mono (prefix_append _ _))
    have hnew : ∀ m, config e = some m → m.Valid := by
      intro m hm
      obtain ⟨hnext, -⟩ := hH.guard hl prefix_rfl hm
      cases hc : cfg m0 l with
      | stable old =>
        rw [hc] at hnext ihcfg
        cases hnext with
        | enter _ new hne => exact ⟨ihcfg, hne⟩
      | joint old new =>
        rw [hc] at hnext ihcfg
        cases hnext with
        | leave => exact ihcfg.2
    refine ⟨?_, ?_⟩
    · intro a ha m hm
      rcases mem_append.mp ha with ha | ha
      · exact ih a ha m hm
      · obtain rfl := mem_singleton.mp ha
        exact hnew m hm
    · rw [cfg_concat]
      cases hm : config e with
      | none => exact ihcfg
      | some m => exact hnew m hm

end AtlasNative
