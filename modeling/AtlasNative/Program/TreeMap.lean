import Mathlib

/-!
# The bindings of an ordered map

`toList` lists the bindings of an ordered map, each key once. What inserting and erasing do to that
list, up to order, is enough for anything that counts or adds up over a map.
-/

namespace Program

open Std List ExtTreeMap

variable {K V : Type} {cmp : K → K → Ordering} [TransCmp cmp] [LawfulEqCmp cmp] [DecidableEq K]
  {m : ExtTreeMap K V cmp} {k : K} {v : V}

omit [LawfulEqCmp cmp] [DecidableEq K] in
theorem nodup_toList (m : ExtTreeMap K V cmp) : m.toList.Nodup := by
  refine distinct_keys_toList.imp ?_
  rintro a b h rfl
  exact h ReflCmp.compare_self

omit [DecidableEq K] in
theorem toList_perm_of_mem {l : List (K × V)} (hl : l.Nodup)
    (h : ∀ k v, (k, v) ∈ l ↔ m[k]? = some v) : m.toList.Perm l := by
  refine (perm_ext_iff_of_nodup (nodup_toList m) hl).mpr ?_
  rintro ⟨k, v⟩
  rw [h, mem_toList_iff_getElem?_eq_some]

variable {k' : K} {v' : V}

omit [LawfulEqCmp cmp] [DecidableEq K] in
theorem getElem?_of_erase (h : (m.erase k)[k']? = some v') : m[k']? = some v' := by
  rw [getElem?_erase] at h
  split at h
  · cases h
  · exact h

omit [DecidableEq K] in
theorem getElem?_of_insert (h : (m.insert k v)[k']? = some v') : k' = k ∧ v' = v ∨ m[k']? = some v' := by
  rw [ExtTreeMap.getElem?_insert] at h
  split at h
  · rename_i heq
    exact .inl ⟨(LawfulEqCmp.eq_of_compare heq).symm, (Option.some.inj h).symm⟩
  · exact .inr h

theorem toList_erase_perm : (m.erase k).toList.Perm (m.toList.filter (·.1 ≠ k)) := by
  refine toList_perm_of_mem ((nodup_toList m).filter _) fun k' v' => ?_
  rw [mem_filter, mem_toList_iff_getElem?_eq_some, getElem?_erase]
  simp only [LawfulEqCmp.compare_eq_iff_eq, decide_eq_true_eq]
  grind

theorem toList_insert_perm : (m.insert k v).toList.Perm ((k, v) :: m.toList.filter (·.1 ≠ k)) := by
  refine toList_perm_of_mem ?_ fun k' v' => ?_
  · refine nodup_cons.mpr ⟨?_, (nodup_toList m).filter _⟩
    simp [mem_filter]
  · rw [mem_cons, mem_filter, mem_toList_iff_getElem?_eq_some, ExtTreeMap.getElem?_insert]
    simp only [LawfulEqCmp.compare_eq_iff_eq, decide_eq_true_eq, Prod.mk.injEq]
    grind

theorem toList_perm_of_some (h : m[k]? = some v) : m.toList.Perm ((k, v) :: m.toList.filter (·.1 ≠ k)) := by
  refine toList_perm_of_mem ?_ fun k' v' => ?_
  · refine nodup_cons.mpr ⟨?_, (nodup_toList m).filter _⟩
    simp [mem_filter]
  · rw [mem_cons, mem_filter, mem_toList_iff_getElem?_eq_some]
    simp only [decide_eq_true_eq, Prod.mk.injEq]
    grind

theorem toList_filter_of_none (h : m[k]? = none) : m.toList.filter (·.1 ≠ k) = m.toList := by
  refine filter_eq_self.mpr ?_
  rintro ⟨k', v⟩ hmem
  rw [mem_toList_iff_getElem?_eq_some] at hmem
  refine decide_eq_true ?_
  rintro rfl
  rw [h] at hmem
  cases hmem

end Program
