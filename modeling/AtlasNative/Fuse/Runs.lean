import AtlasNative.Fuse.WriteBack

/-!
# What a list of runs holds

Buffering a write loses no byte: the runs to send and the run that stays, in order, hold for every
offset the byte of the write, or else the one that was buffered before.
-/

namespace AtlasNative.Fuse

open List Std.ExtTreeMap Option Dirty

namespace Dirty

variable {run : Dirty} {o cut : Nat}

theorem byteAt_before : (run.before cut).byteAt o = if o < cut then run.byteAt o else none := by
  unfold byteAt before
  dsimp only
  rw [getElem?_take]
  split <;> split <;> first | rfl | (split <;> first | rfl | omega)

theorem byteAt_after (h : run.offset ≤ cut) : (run.after cut).byteAt o = if cut ≤ o then run.byteAt o else none := by
  unfold byteAt after
  dsimp only
  by_cases hcut : cut ≤ o
  · rw [if_pos hcut, if_pos hcut, if_pos (h.trans hcut), getElem?_drop]
    congr 1
    omega
  · rw [if_neg hcut, if_neg hcut]

theorem byteAt_extend (ino : Nat) {offset : Nat} {data : Bytes} (h1 : run.offset ≤ offset) (h2 : offset ≤ run.endAt) :
    (run.extend offset data).byteAt o = (byteAt ⟨ino, offset, data⟩ o).or (run.byteAt o) := by
  unfold endAt at h2
  unfold byteAt extend
  dsimp only
  by_cases ho : run.offset ≤ o
  swap
  · rw [if_neg ho, if_neg ho, if_neg (by omega)]
    rfl
  rw [if_pos ho, if_pos ho]
  have hlen : (run.data.take (offset - run.offset)).length = offset - run.offset := by
    rw [length_take]
    omega
  rw [append_assoc, getElem?_append, hlen, getElem?_append, getElem?_take, getElem?_drop]
  by_cases hbefore : offset ≤ o
  · rw [if_neg (by omega), if_pos hbefore, Nat.sub_sub_sub_cancel_right h1]
    split
    · rename_i hin
      rw [getElem?_eq_getElem hin]
      rfl
    · have hnone : data[o - offset]? = none := getElem?_eq_none (by omega)
      rw [hnone, none_or]
      congr 1
      omega
  · rw [if_pos (by omega), if_pos (by omega), if_neg hbefore, none_or]

theorem byteAt_before_or_after {b : UInt8} (h : run.offset ≤ cut) (hb : run.byteAt o = some b) :
    (run.before cut).byteAt o = some b ∨ (run.after cut).byteAt o = some b := by
  rw [byteAt_before, byteAt_after h]
  by_cases ho : o < cut
  · exact .inl (by rw [if_pos ho, hb])
  · exact .inr (by rw [if_pos (by omega), hb])

theorem byteAt_eq_none_of_empty (h : run.data = []) : run.byteAt o = none := by
  unfold byteAt
  split
  · rw [h, getElem?_nil]
  · rfl

end Dirty

@[simp] theorem Sending.left_zero (run : Dirty) : Sending.left ⟨run, 0⟩ = run := by
  simp [Sending.left, Dirty.after]

/-- The byte that the last of the runs with a byte for offset `o` has there. -/
def newest (runs : List Dirty) (o : Nat) : Option UInt8 :=
  match runs with
  | [] => none
  | run :: runs => (newest runs o).or (run.byteAt o)

@[simp] theorem newest_nil (o : Nat) : newest [] o = none := rfl

@[simp] theorem newest_cons (run : Dirty) (runs : List Dirty) (o : Nat) :
    newest (run :: runs) o = (newest runs o).or (run.byteAt o) := rfl

@[simp] theorem newest_append (runs later : List Dirty) (o : Nat) :
    newest (runs ++ later) o = (newest later o).or (newest runs o) := by
  induction runs with
  | nil => simp
  | cons run runs ih => simp [ih, Option.or_assoc]

theorem exists_of_newest {runs : List Dirty} {o : Nat} {b : UInt8} (h : newest runs o = some b) :
    ∃ run ∈ runs, run.byteAt o = some b := by
  induction runs with
  | nil => cases h
  | cons run runs ih =>
    rcases or_eq_some_iff.mp h with h | ⟨-, h⟩
    · obtain ⟨run', hmem, hbyte⟩ := ih h
      exact ⟨run', mem_cons_of_mem _ hmem, hbyte⟩
    · exact ⟨run, mem_cons_self, h⟩

namespace WriteBack

variable {w : WriteBack} {ino offset o : Nat} {data : Bytes}

theorem newest_place : newest ((w.place ino offset data).1 ++ [(w.place ino offset data).2]) o =
      (byteAt ⟨ino, offset, data⟩ o).or (newest w.runs[ino]?.toList o) := by
  unfold place
  cases hrun : w.runs[ino]? with
  | none => simp
  | some run =>
    dsimp only
    split
    · rename_i hjoin
      simp only [joins, Bool.and_eq_true, decide_eq_true_eq] at hjoin
      simp [byteAt_extend ino hjoin.1.1 hjoin.1.2]
    · simp

theorem newest_write : newest ((w.write ino offset data).1 ++ (w.write ino offset data).2.runs[ino]?.toList) o =
      (byteAt ⟨ino, offset, data⟩ o).or (newest w.runs[ino]?.toList o) := by
  rw [← newest_place]
  unfold write
  generalize w.place ino offset data = placed
  obtain ⟨out, run⟩ := placed
  dsimp only
  split
  · simp
  split
  · rename_i hcut
    have hsplit : ((run.after (w.cut run)).byteAt o).or ((run.before (w.cut run)).byteAt o) = run.byteAt o := by
      rw [byteAt_before, byteAt_after hcut.1.le]
      by_cases ho : o < w.cut run
      · rw [if_pos ho, if_neg (by omega), none_or]
      · rw [if_neg ho, if_pos (by omega), or_none]
    simp [hsplit]
  · simp

theorem write_other {other : Nat} (h : other ≠ ino) : (w.write ino offset data).2.runs[other]? = w.runs[other]? := by
  have hne : compare ino other ≠ .eq := fun heq => h (Std.compare_eq_iff_eq.mp heq).symm
  unfold write
  generalize w.place ino offset data = placed
  dsimp only
  split
  · rw [Std.ExtTreeMap.getElem?_insert, if_neg hne]
  split
  · rw [Std.ExtTreeMap.getElem?_insert, if_neg hne]
  · rw [getElem?_erase, if_neg hne]

/-- Runs are filed under their inode. -/
def Own (w : WriteBack) : Prop := ∀ (ino : Nat) run, w.runs[ino]? = some run → run.ino = ino

theorem Own.place (h : w.Own) :
    (∀ run ∈ (w.place ino offset data).1, run.ino = ino) ∧ (w.place ino offset data).2.ino = ino := by
  unfold WriteBack.place
  split
  · rename_i run hrun
    split
    · exact ⟨nofun, h ino run hrun⟩
    · exact ⟨fun r hr => mem_singleton.mp hr ▸ h ino run hrun, rfl⟩
  · exact ⟨nofun, rfl⟩

theorem Own.insert (h : w.Own) {run : Dirty} (hrun : run.ino = ino) : Own { w with runs := w.runs.insert ino run } := by
  intro i r hr
  rcases Program.getElem?_of_insert hr with ⟨rfl, rfl⟩ | hr
  · exact hrun
  · exact h i r hr

theorem Own.erase (h : w.Own) : Own { w with runs := w.runs.erase ino } := by
  intro i r hr
  exact h i r (Program.getElem?_of_erase hr)

theorem Own.write (h : w.Own) :
    (∀ run ∈ (w.write ino offset data).1, run.ino = ino) ∧ (w.write ino offset data).2.Own := by
  have hplace : (∀ run ∈ (w.place ino offset data).1, run.ino = ino) ∧ (w.place ino offset data).2.ino = ino := h.place
  unfold WriteBack.write
  generalize w.place ino offset data = placed at hplace ⊢
  obtain ⟨out, run⟩ := placed
  obtain ⟨hout, hrun⟩ := hplace
  have hsnoc : ∀ last : Dirty, last.ino = ino → ∀ r ∈ out ++ [last], r.ino = ino := by
    intro last hlast r hr
    rcases mem_append.mp hr with hr | hr
    · exact hout r hr
    · rw [mem_singleton.mp hr, hlast]
  dsimp only
  split
  · exact ⟨hout, h.insert hrun⟩
  split
  · exact ⟨hsnoc _ hrun, h.insert hrun⟩
  · exact ⟨hsnoc _ hrun, h.erase⟩

end WriteBack

/-- A call that waits goes on once no run of its file is in flight. -/
theorem Pipeline.wait_eq_some {p p' : Pipeline} {ino : Nat} {e : Option Errno}
    (h : p.wait ino = some (e, p')) : (∀ run ∈ p.inflight, run.ino ≠ ino) ∧ e = p.errors[ino]? ∧
      p' = { p with errors := p.errors.erase ino } := by
  unfold wait at h
  split at h
  · cases h
  · rename_i hnone
    obtain ⟨rfl, rfl⟩ := Prod.mk.inj (some.inj h)
    exact ⟨fun run hrun heq => hnone (any_eq_true.mpr ⟨run, hrun, decide_eq_true heq⟩), rfl, rfl⟩

end AtlasNative.Fuse
