import AtlasNative.Catalog.Frame

/-!
# The position and voters of a catalog

Every command but a membership change leaves the voters alone, and none touches the log position:
that is set by `Catalog.apply` once the command is through. So a catalog's position and voters are
those of the last entry applied to it and of the last membership change among them.
-/

namespace AtlasNative

open Program CatM

variable {T D C : Type} [Backend T D C]

/-- Same log position, same voters. -/
def SameStamp (w w' : World T C) : Prop :=
  w'.cat.appliedIndex = w.cat.appliedIndex ∧ w'.cat.membership = w.cat.membership

instance : Frame.Wide (SameStamp (T := T) (C := C)) where
  refl _ := ⟨rfl, rfl⟩
  trans h h' := ⟨h'.1.trans h.1, h'.2.trans h.2⟩
  tables h := by
    simp only [Prod.mk.injEq] at h
    exact ⟨h.2.2.1, h.2.2.2.2.1⟩
  refs _ _ := ⟨rfl, rfl⟩
  space _ _ := ⟨rfl, rfl⟩

/-- Every command but a membership change. -/
theorem CatM.runCommand_stamp (term : Nat) {cmd : MetaCommand} (h : ∀ m addrs, cmd ≠ .changeMembership m addrs) :
    Keeps SameStamp (runCommand term cmd : CatM T C Unit) := runCommand_wide term h

theorem CatM.changeMembership_run {m : Membership} (hm : m.Valid) (addrs : BTreeMap String String)
    (w : World T C) : changeMembership m addrs w = .ok () { w with
      cat := { w.cat with raftAddrs := w.cat.raftAddrs ∪ addrs, membership := some m } } := by
  cases m with
  | stable v =>
    have hv : v.isEmpty = false := by simpa [Membership.Valid] using hm
    simp only [changeMembership, Membership.voters, hv]
    rfl
  | joint old new =>
    obtain ⟨ho, hn⟩ := hm
    have ho' : old.isEmpty = false := by simpa using ho
    have hn' : new.isEmpty = false := by simpa using hn
    have hu : (old ∪ new).isEmpty = false := by simp [ho']
    simp only [changeMembership, Membership.voters, hu, ho', hn']
    rfl

theorem CatM.changeMembership_error {m : Membership} {addrs : BTreeMap String String}
    {w w' : World T C} {e : Fault} (h : changeMembership m addrs w = .error e w') : w' = w := by
  unfold changeMembership at h
  split at h
  · cases h
    rfl
  · split at h
    · split at h
      · cases h
        rfl
      · cases h
    · cases h

/-- A failed command leaves the log position alone. -/
theorem CatM.runCommand_error_applied {term : Nat} {cmd : MetaCommand} {w w' : World T C} {e : Fault}
    (h : runCommand term cmd w = .error e w') : w'.cat.appliedIndex = w.cat.appliedIndex := by
  by_cases hcmd : ∃ m addrs, cmd = .changeMembership m addrs
  · obtain ⟨m, addrs, rfl⟩ := hcmd
    rw [changeMembership_error h]
  · push Not at hcmd
    exact ((runCommand_stamp term hcmd).of_error h).1

/-- What an applied entry leaves in the catalog's position, term and voters. -/
theorem MemCatalog.applyCommitted_stamp {c c' : MemCatalog} {term index : Nat} {cmd : MetaCommand}
    {out : Outcome} (hidx : c.appliedIndex < index)
    (h : c.applyCommitted term index cmd = (out, c'))
    (hout : (∃ gc, out = .ok gc) ∨ ∃ e, out = .err e) :
    c'.appliedIndex = index ∧ c'.currentTerm = term ∧
      (∀ m addrs, cmd = .changeMembership m addrs → m.Valid → c'.membership = some m) ∧
      ((∀ m addrs, cmd ≠ .changeMembership m addrs) → c'.membership = c.membership) := by
  simp only [applyCommitted, Catalog.applyCommittedWith, Catalog.applyWith, if_neg (not_le.mpr hidx)] at h
  cases hrun : runCommand term cmd (⟨c, (), []⟩ : World MemTable Unit) with
  | ok u w =>
    rw [hrun] at h
    simp only [Prod.mk.injEq] at h
    obtain ⟨-, rfl⟩ := h
    refine ⟨rfl, rfl, ?_, fun hcmd => ((runCommand_stamp term hcmd).of_ok hrun).2⟩
    rintro m addrs rfl hm
    have hrun' := changeMembership_run hm addrs (⟨c, (), []⟩ : World MemTable Unit)
    rw [show runCommand term (.changeMembership m addrs) _ = _ from hrun'] at hrun
    cases hrun
    rfl
  | error f w =>
    have happ := runCommand_error_applied hrun
    rw [hrun] at h
    cases f with
    | err e =>
      have hstore : ∀ msg, e ≠ .store msg := by
        rintro msg rfl
        simp only [Prod.mk.injEq] at h
        rcases hout with ⟨_, rfl⟩ | ⟨_, rfl⟩ <;> simp at h
      have hmem : (∀ m addrs, cmd ≠ .changeMembership m addrs) → w.cat.membership = c.membership :=
        fun hcmd => ((runCommand_stamp term hcmd).of_error hrun).2
      have hc' : c' = { w.cat with appliedIndex := index, currentTerm := term } := by
        cases e <;> simp_all
      subst hc'
      refine ⟨rfl, rfl, ?_, hmem⟩
      rintro m addrs rfl hm
      have hrun' := changeMembership_run hm addrs (⟨c, (), []⟩ : World MemTable Unit)
      rw [show runCommand term (.changeMembership m addrs) _ = _ from hrun'] at hrun
      cases hrun
    | panic | hang =>
      simp only [Prod.mk.injEq] at h
      rcases hout with ⟨_, rfl⟩ | ⟨_, rfl⟩ <;> simp at h

end AtlasNative
