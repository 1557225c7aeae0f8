/-
# A text that was read is written with the same bytes

In a code page every byte stands for a character of its own.  For the lower half this is so because
it is ASCII.  For the upper half it is a property of the table (`UpperHalf`), which is looked up:
no character is there twice, and none of them is ASCII.  UTF-8 has one form for each character, and
reading accepts no other.

The sixteen-bit sets are left out, since nothing is written in them, and so are bytes with a mark
in front, which is taken off and not put back.
-/
import BlockDoc.Charset.Basic
import BlockDoc.Proofs.Binary.Parts
import Mathlib.Data.List.Nodup
import Mathlib.Tactic.MkIffOfInductiveProp

namespace BlockDoc.Charset

variable {upper : Array Nat} {bytes : Bytes} {text : List Char} {c : Charset}

/-! ## 1. Code pages -/

/-- A table gives characters of their own to the bytes from 80 on. -/
@[mk_iff]
structure UpperHalf (upper : Array Nat) : Prop where
  /-- There is one for each of them. -/
  size : upper.size = 128
  /-- No character is there twice. -/
  nodup : upper.toList.Nodup
  /-- They are characters, and not those of the lower half. -/
  valid : ∀ n ∈ upper.toList, 0x80 ≤ n ∧ n < 0xD800

instance (upper : Array Nat) : Decidable (UpperHalf upper) :=
  decidable_of_iff _ (upperHalf_iff upper).symm

/-- A character of a table is found where it stands, because it stands nowhere else. -/
theorem findIdx?_getElem (h : upper.toList.Nodup) {i : Nat} (hi : i < upper.size) :
    upper.findIdx? (· == upper[i]) = some i := by
  refine Array.findIdx?_eq_some_iff_getElem.mpr ⟨hi, beq_self_eq_true _, fun j hj heq => ?_⟩
  have hj' : j < upper.toList.length := Nat.lt_trans hj hi
  have hsame : upper.toList[j] = upper.toList[i] := eq_of_beq heq
  exact absurd (h.getElem_inj_iff.mp hsame) (Nat.ne_of_lt hj)

/-- **Every byte is recovered from its character.** -/
theorem toByte?_ofByte (h : UpperHalf upper) (b : UInt8) :
    toByte? upper (ofByte upper b) = some b := by
  rw [ofByte]
  by_cases hb : b < 0x80
  · have hlow : b.toNat < 0x80 := hb
    have hvalue : (Char.ofNat b.toNat).toNat = b.toNat := Text.toNat_of_valid (.inl (by omega))
    rw [if_pos hb, toByte?, hvalue, if_pos hlow, UInt8.ofNat_toNat]
  · obtain ⟨i, hi⟩ : ∃ i, b.toNat = 0x80 + i := Nat.exists_eq_add_of_le (Nat.le_of_not_lt hb)
    have hindex : i < upper.size := by
      have hlt := b.toNat_lt
      have hsize := h.size
      omega
    obtain ⟨hlow, hlt⟩ := h.valid upper[i] (Array.getElem_mem_toList hindex)
    have hget : upper.getD (b.toNat - 0x80) 0 = upper[i] := by
      rw [hi, Nat.add_sub_cancel_left, Array.getD, dif_pos hindex]
      rfl
    rw [if_neg hb, hget, toByte?, Text.toNat_of_valid (.inl hlt), if_neg (Nat.not_lt.mpr hlow),
      findIdx?_getElem h.nodup hindex, Option.map_some, ← hi, UInt8.ofNat_toNat]

/-- **A text in a code page** is written with its bytes. -/
theorem mapM_toByte? (h : UpperHalf upper) (bytes : Bytes) :
    (bytes.map (ofByte upper)).mapM (toByte? upper) = some bytes := by
  induction bytes with
  | nil => rfl
  | cons b bytes ih =>
    rw [List.map_cons, List.mapM_cons, toByte?_ofByte h, ih]
    rfl

/-- The tables of all sets are like this. -/
theorem upperHalf_of_page (h : c.page? = some upper) : UpperHalf upper := by
  have hall : ∀ table ∈ c.page?, UpperHalf table := by cases c <;> decide +kernel
  exact hall upper h

/-! ## 2. UTF-8 -/

/-- **A text in UTF-8** is written with its bytes. -/
theorem encodeUtf8_of_decodeUtf8? (h : decodeUtf8? bytes = some text) :
    encodeUtf8 text = bytes := by
  obtain ⟨chars, hchars, rfl⟩ := Option.map_eq_some_iff.mp h
  have hback := ByteArray.utf8Encode_get_utf8Decode? (h := Option.isSome_of_mem hchars)
  rw [Option.get_of_mem _ hchars] at hback
  have hdata := congrArg (fun b : ByteArray => b.data.toList) hback
  rw [List.utf8Encode] at hdata
  simpa [encodeUtf8] using hdata

/-! ## 3. All sets -/

/-- A code page is what bytes are read with. -/
theorem decodeBare?_of_page (h : c.page? = some upper) (bytes : Bytes) :
    c.decodeBare? bytes = some (bytes.map (ofByte upper)) := by
  unfold decodeBare?
  split
  case h_4 => rw [h, Option.map_some]
  all_goals cases h

/-- It is what characters are written with. -/
theorem encode?_of_page (h : c.page? = some upper) (text : List Char) :
    c.encode? text = text.mapM (toByte? upper) := by
  rw [encode?, h]

/-- **A text is written in UTF-8 or in a code page.** -/
theorem utf8_or_page (hle : c ≠ .utf16le) (hbe : c ≠ .utf16be) :
    c = .utf8 ∨ ∃ upper, c.page? = some upper := by
  cases c with
  | utf8 => exact .inl rfl
  | utf16le => exact absurd rfl hle
  | utf16be => exact absurd rfl hbe
  | windows1251 | windows1252 | koi8r | ibm866 => exact .inr ⟨_, rfl⟩

/-- What was read is written with the same bytes, byte-order marks not considered. -/
theorem encode?_of_decodeBare? (hle : c ≠ .utf16le) (hbe : c ≠ .utf16be)
    (h : c.decodeBare? bytes = some text) : c.encode? text = some bytes := by
  obtain rfl | ⟨upper, hpage⟩ := utf8_or_page hle hbe
  · exact congrArg some (encodeUtf8_of_decodeUtf8? h)
  · rw [decodeBare?_of_page hpage] at h
    cases h
    rw [encode?_of_page hpage, mapM_toByte? (upperHalf_of_page hpage)]

/-- **What was read is written with the same bytes**, if no mark stands in front of them. -/
theorem encode?_of_decode? (hle : c ≠ .utf16le) (hbe : c ≠ .utf16be) (hmark : mark? bytes = none)
    (h : c.decode? bytes = some text) : c.encode? text = some bytes := by
  rw [decode?, hmark] at h
  exact encode?_of_decodeBare? hle hbe h

end BlockDoc.Charset
