import Mathlib

/-!
# Texts and their bytes

Texts are lists of characters; `utf8` gives their bytes and `ofUtf8` reads bytes that are valid
UTF-8.
-/

abbrev Text := List Char

namespace Text

open List Option

def utf8 (cs : Text) : List UInt8 := cs.flatMap String.utf8EncodeChar

/-- The text of some bytes, if they are valid UTF-8. -/
def ofUtf8 (b : List UInt8) : Option Text := b.toByteArray.utf8Decode?.map Array.toList

theorem utf8_append (cs ds : Text) : utf8 (cs ++ ds) = utf8 cs ++ utf8 ds := flatMap_append

theorem ofUtf8_utf8 (cs : Text) : ofUtf8 (utf8 cs) = some cs := by
  show (utf8Encode cs).utf8Decode?.map Array.toList = some cs
  rw [utf8Decode?_utf8Encode]
  rfl

theorem eq_utf8_of_ofUtf8 {b : List UInt8} {cs : Text} (h : ofUtf8 b = some cs) : b = utf8 cs := by
  obtain ⟨a, ha, rfl⟩ := map_eq_some_iff.mp h
  obtain ⟨m, hm⟩ := ByteArray.isSome_utf8Decode?_iff.mp (by rw [ha]; rfl)
  have hb : b = utf8 m := by
    have := congrArg (·.data.toList) hm
    simpa [utf8Encode, utf8] using this
  rw [hb] at h ⊢
  rw [ofUtf8_utf8] at h
  rw [some.inj h]

theorem utf8_ne_nil {cs : Text} (h : cs ≠ []) : utf8 cs ≠ [] := by
  cases cs with
  | nil => exact absurd rfl h
  | cons c cs => simp [utf8, String.utf8EncodeChar_ne_nil]

/-- Where the bytes of a text begin with those of another, so do the texts. -/
theorem isPrefix_of_utf8 {cs ds : Text} (h : utf8 cs <+: utf8 ds) : cs <+: ds := by
  obtain ⟨b, hb⟩ := h
  refine isPrefix_of_utf8Encode_append_eq_utf8Encode b.toByteArray ?_
  have hbytes := congrArg List.toByteArray hb
  rw [toByteArray_append] at hbytes
  exact hbytes

/-- No other character has the byte of a line feed in its encoding. -/
theorem lineFeed_notMem_encodeChar {c : Char} (h : c ≠ '\n') : 10 ∉ String.utf8EncodeChar c := by
  have hv : c.val.toNat ≠ 10 := fun h10 => h (Char.ext (UInt32.toNat_inj.mp h10))
  have hbyte : ∀ n, n < 256 → n ≠ 10 → (10 : UInt8) ≠ UInt8.ofNat n := by
    intro n hn hne h
    have := congrArg UInt8.toNat h
    simp only [UInt8.toNat_ofNat'] at this
    exact hne (by simpa [Nat.mod_eq_of_lt hn] using this.symm)
  simp only [String.utf8EncodeChar]
  split
  · simpa only [mem_singleton] using hbyte _ (by omega) hv
  split
  · simp only [mem_cons, not_mem_nil, or_false, not_or]
    exact ⟨hbyte _ (by omega) (by omega), hbyte _ (by omega) (by omega)⟩
  split
  all_goals simp only [mem_cons, not_mem_nil, or_false, not_or]
  · exact ⟨hbyte _ (by omega) (by omega), hbyte _ (by omega) (by omega), hbyte _ (by omega) (by omega)⟩
  · exact ⟨hbyte _ (by omega) (by omega), hbyte _ (by omega) (by omega),
      hbyte _ (by omega) (by omega), hbyte _ (by omega) (by omega)⟩

theorem lineFeed_notMem_utf8 {cs : Text} (h : '\n' ∉ cs) : 10 ∉ utf8 cs := by
  intro hmem
  obtain ⟨c, hc, hb⟩ := mem_flatMap.mp hmem
  exact lineFeed_notMem_encodeChar (fun heq => h (heq ▸ hc)) hb

end Text
