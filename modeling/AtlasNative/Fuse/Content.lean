import AtlasNative.Fuse.Mount
import AtlasNative.Fuse.Runs

/-!
# What a file becomes when runs are stored

Storing runs one after the other leaves at every offset the byte of the last run that has one there.
So it does not matter how the same bytes are cut into runs, nor in which order runs go that do not
overlap.
-/

namespace AtlasNative.Fuse

open List File Dirty

namespace File

variable {file : Bytes} {offset i : Nat} {data : Bytes}

def byte (file : Bytes) (i : Nat) : UInt8 := file.getD i 0

theorem ext_byte {a b : Bytes} (hlen : ∀ i, i < a.length ↔ i < b.length)
    (hbyte : ∀ i, byte a i = byte b i) : a = b := by
  have hlen' : a.length = b.length := by
    have h1 := hlen a.length
    have h2 := hlen b.length
    omega
  refine ext_getElem hlen' fun i h1 h2 => ?_
  have := hbyte i
  simpa [byte, getD_eq_getElem?_getD, h1, h2] using this

theorem byte_of_le (h : file.length ≤ i) : byte file i = 0 := by
  rw [byte, getD_eq_getElem?_getD, getElem?_eq_none h]
  rfl

theorem byte_append (a b : Bytes) : byte (a ++ b) i = if i < a.length then byte a i else byte b (i - a.length) := by
  rw [byte, byte, byte, getD_eq_getElem?_getD, getD_eq_getElem?_getD, getD_eq_getElem?_getD, getElem?_append]
  split <;> rfl

theorem byte_zeros (n : Nat) : byte (replicate n 0) i = 0 := by
  rw [byte, getD_eq_getElem?_getD, getElem?_replicate]
  split <;> rfl

theorem byte_append_zeros (n : Nat) : byte (file ++ replicate n 0) i = byte file i := by
  rw [byte_append, byte_zeros]
  split
  · rfl
  · rw [byte_of_le (by omega)]

theorem byte_drop (n : Nat) : byte (file.drop n) i = byte file (n + i) := by
  rw [byte, byte, getD_eq_getElem?_getD, getD_eq_getElem?_getD, getElem?_drop]

theorem byte_take (n : Nat) : byte (file.take n) i = if i < n then byte file i else 0 := by
  rw [byte, byte, getD_eq_getElem?_getD, getD_eq_getElem?_getD, getElem?_take]
  split <;> rfl

theorem length_put (hd : data ≠ []) : (put file offset data).length = max file.length (offset + data.length) := by
  rw [put, if_neg hd]
  simp only [length_append, length_take, length_replicate, length_drop]
  omega

theorem byte_put (ino : Nat) : byte (put file offset data) i = (byteAt ⟨ino, offset, data⟩ i).getD (byte file i) := by
  by_cases hd : data = []
  · subst hd
    rw [byteAt_eq_none_of_empty rfl, put, if_pos rfl]
    rfl
  have hlen : ((file ++ replicate (offset - file.length) (0 : UInt8)).take offset).length = offset := by
    simp only [length_take, length_append, length_replicate]
    omega
  rw [put, if_neg hd, append_assoc, byte_append, hlen, byte_append, byte_take, byte_append_zeros, byte_drop]
  unfold byteAt
  dsimp only
  by_cases hi : i < offset
  · rw [if_pos hi, if_pos hi, if_neg (by omega)]
    rfl
  rw [if_neg hi, if_pos (show offset ≤ i by omega)]
  by_cases hin : i - offset < data.length
  · rw [if_pos hin, getElem?_eq_getElem hin, byte, getD_eq_getElem?_getD, getElem?_eq_getElem hin]
    rfl
  · rw [if_neg hin, getElem?_eq_none (by omega), Option.getD_none]
    congr 1
    omega

theorem get_add (file : Bytes) (offset k n : Nat) :
    get file offset (k + n) = get file offset k ++ get file (offset + k) n := by
  rw [get, get, get, take_add, drop_drop]

/-- A read that came back short has reached the end of the file. -/
theorem get_of_short {n want : Nat} (hshort : (get file offset n).length < n) (h : n ≤ want) :
    get file offset n = get file offset want := by
  unfold get at hshort ⊢
  rw [length_take] at hshort
  rw [take_of_length_le (by omega), take_of_length_le (by omega)]

/-- What a window of the file answers, if it has all of the range or reaches the end of the file. -/
theorem get_window {at_ size len : Nat} {buf : Bytes} (hbuf : buf = get file at_ size)
    (hat : at_ ≤ offset) (hcover : offset + len ≤ at_ + buf.length ∨ buf.length < size) :
    (buf.drop (min (offset - at_) buf.length)).take
      (min (min (offset - at_) buf.length + len) buf.length - min (offset - at_) buf.length) =
      get file offset len := by
  have hlen : buf.length = min size (file.length - at_) := by
    rw [hbuf, get, length_take, length_drop]
  generalize buf.length = n at hlen hcover ⊢
  refine ext_getElem? fun i => ?_
  rw [hbuf, get, get]
  simp only [getElem?_take, getElem?_drop]
  by_cases hi : i < len
  swap
  · rw [if_neg hi, if_neg (by omega)]
  rw [if_pos hi]
  by_cases hin : offset - at_ + i < n
  · rw [if_pos (by omega), if_pos (by omega)]
    congr 1
    omega
  · -- past the window is past the end of the file
    rw [if_neg (by omega), getElem?_eq_none (by omega)]

end File

/-- The file with the runs stored, one after the other. -/
def putAll (file : Bytes) (runs : List Dirty) : Bytes :=
  runs.foldl (fun file run => File.put file run.offset run.data) file

@[simp] theorem putAll_nil (file : Bytes) : putAll file [] = file := rfl

@[simp] theorem putAll_cons (file : Bytes) (run : Dirty) (runs : List Dirty) :
    putAll file (run :: runs) = putAll (put file run.offset run.data) runs := rfl

theorem putAll_append (file : Bytes) (runs later : List Dirty) :
    putAll file (runs ++ later) = putAll (putAll file runs) later := foldl_append

theorem byte_putAll (file : Bytes) (runs : List Dirty) (i : Nat) :
    byte (putAll file runs) i = (newest runs i).getD (byte file i) := by
  induction runs generalizing file with
  | nil => rfl
  | cons run runs ih =>
    rw [putAll_cons, ih, newest_cons, byte_put run.ino]
    cases newest runs i <;> rfl

theorem lt_length_put {file data : Bytes} {offset i : Nat} (ino : Nat) :
    i < (put file offset data).length ↔ i < file.length ∨
      ∃ o, i ≤ o ∧ (byteAt ⟨ino, offset, data⟩ o).isSome = true := by
  by_cases hd : data = []
  · subst hd
    simp [put, byteAt_eq_none_of_empty]
  have hpos := length_pos_iff.mpr hd
  rw [length_put hd, lt_max_iff]
  refine or_congr_right ⟨fun hi => ⟨offset + data.length - 1, by omega, ?_⟩, fun ⟨o, ho, hsome⟩ => ?_⟩
  · rw [byteAt, if_pos (by dsimp only; omega), getElem?_eq_getElem (by dsimp only; omega)]
    rfl
  · unfold byteAt at hsome
    split at hsome
    · have hlt : o - offset < data.length := by simpa using hsome
      omega
    · cases hsome

theorem lt_length_putAll (file : Bytes) (runs : List Dirty) (i : Nat) : i < (putAll file runs).length ↔
      i < file.length ∨ ∃ o, i ≤ o ∧ (newest runs o).isSome = true := by
  induction runs generalizing file with
  | nil => simp
  | cons run runs ih =>
    rw [putAll_cons, ih, lt_length_put run.ino, or_assoc]
    refine or_congr_right ⟨?_, ?_⟩
    · rintro (⟨o, ho, hsome⟩ | ⟨o, ho, hsome⟩)
      · exact ⟨o, ho, by rw [newest_cons, Option.isSome_or, hsome, Bool.or_true]⟩
      · exact ⟨o, ho, by rw [newest_cons, Option.isSome_or, hsome, Bool.true_or]⟩
    · rintro ⟨o, ho, hsome⟩
      rw [newest_cons, Option.isSome_or, Bool.or_eq_true] at hsome
      exact hsome.symm.imp (fun h => ⟨o, ho, h⟩) fun h => ⟨o, ho, h⟩

theorem putAll_congr (file : Bytes) {runs runs' : List Dirty}
    (h : ∀ o, newest runs o = newest runs' o) : putAll file runs = putAll file runs' := by
  refine ext_byte (fun i => ?_) fun i => ?_
  · rw [lt_length_putAll, lt_length_putAll]
    simp only [h]
  · rw [byte_putAll, byte_putAll, h]

end AtlasNative.Fuse
