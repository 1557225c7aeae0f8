/-
# A text in UTF-8 that is read in sixteen-bit units

The two sixteen-bit sets are for reading only, and what is to be written in one of them is written
in UTF-8.  Reading it again in the same set takes two bytes of UTF-8 for one unit.

No byte of a text without U+0000 is zero (`zero_notMem_encodeUtf8`), so no unit is below 100 and no
character is either (`beyond_latin`): nothing of ASCII is left, neither the signs of a dump nor its
line ends.  Only a text that begins with U+FEFF is known for what it is, since this character is
written as the mark of UTF-8; it is taken off (`decode?_encodeUtf8`).
-/
import BlockDoc.Proofs.Charset.Marks

namespace BlockDoc.Charset

variable {c : Charset} {bytes : Bytes} {text : List Char}

/-- The sets that take two bytes for a unit. -/
def IsWide (c : Charset) : Prop := c = .utf16le ∨ c = .utf16be

/-- A text is written in UTF-8. -/
theorem IsWide.encode?_eq (h : c.IsWide) (text : List Char) :
    c.encode? text = some (encodeUtf8 text) := by
  rcases h with rfl | rfl <;> rfl

/-! ## 1. Bytes that are not zero -/

theorem zero_ne_ofNat {n : Nat} (h : n % 256 ≠ 0) : (0 : UInt8) ≠ UInt8.ofNat n := by
  intro hzero
  have hvalue := congrArg UInt8.toNat hzero
  rw [UInt8.toNat_ofNat'] at hvalue
  exact h hvalue.symm

/-- Only U+0000 has a zero byte. -/
theorem zero_notMem_utf8EncodeChar {ch : Char} (h : ch ≠ Text.nul) :
    0 ∉ String.utf8EncodeChar ch := by
  have hpos : ch.val.toNat ≠ 0 := by
    intro hzero
    exact h (Char.ext (UInt32.toNat_inj.mp hzero))
  rw [String.utf8EncodeChar]
  -- the first byte has a bit of its own, and so has every byte behind it
  split
  · simp only [List.mem_singleton]
    exact zero_ne_ofNat (by omega)
  split
  · simp only [List.mem_cons, List.not_mem_nil, or_false, not_or]
    exact ⟨zero_ne_ofNat (by omega), zero_ne_ofNat (by omega)⟩
  split
  · simp only [List.mem_cons, List.not_mem_nil, or_false, not_or]
    exact ⟨zero_ne_ofNat (by omega), zero_ne_ofNat (by omega), zero_ne_ofNat (by omega)⟩
  · simp only [List.mem_cons, List.not_mem_nil, or_false, not_or]
    exact ⟨zero_ne_ofNat (by omega), zero_ne_ofNat (by omega), zero_ne_ofNat (by omega),
      zero_ne_ofNat (by omega)⟩

/-- **A text without U+0000 has no zero byte.** -/
theorem zero_notMem_encodeUtf8 (h : Text.nul ∉ text) : 0 ∉ encodeUtf8 text := by
  intro hmem
  obtain ⟨ch, hch, hzero⟩ := List.mem_flatMap.mp hmem
  exact zero_notMem_utf8EncodeChar (fun heq => h (heq ▸ hch)) hzero

/-! ## 2. Units of two such bytes -/

/-- A unit of two bytes that are not zero has both its halves. -/
def FillsUnit (u : Nat) : Prop := 0x100 ≤ u ∧ u < 0x10000

theorem fillsUnit_value {a b : UInt8} (hb : b ≠ 0) : FillsUnit (Word.value [a, b]) := by
  have ha := a.toNat_lt
  have hlt := b.toNat_lt
  have hpos : b.toNat ≠ 0 := fun hzero => hb (UInt8.toNat_inj.mp hzero)
  simp only [FillsUnit, Word.value]
  omega

theorem fillsUnit_of_unitsOfBytes? {unit : UInt8 → UInt8 → Nat}
    (hunit : ∀ a b, a ≠ 0 → b ≠ 0 → FillsUnit (unit a b)) {us : List Nat} (h : 0 ∉ bytes)
    (hus : unitsOfBytes? unit bytes = some us) : ∀ u ∈ us, FillsUnit u := by
  fun_induction unitsOfBytes? unit bytes generalizing us with
  | case1 =>
    cases hus
    exact fun u hu => absurd hu List.not_mem_nil
  | case2 => cases hus
  | case3 a b rest ih =>
    obtain ⟨us', hus', rfl⟩ := Option.map_eq_some_iff.mp hus
    simp only [List.mem_cons, not_or] at h
    intro u hu
    rcases List.mem_cons.mp hu with rfl | hu
    · exact hunit a b (Ne.symm h.1) (Ne.symm h.2.1)
    · exact ih h.2.2 hus' u hu

/-- A character below 100 would be a unit of its own. -/
theorem beyond_latin_of_ofUnits? {us : List Nat} (h : Text.ofUnits? us = some text)
    (hus : ∀ u ∈ us, FillsUnit u) : ∀ ch ∈ text, 0x100 ≤ ch.toNat := by
  intro ch hch
  by_contra hlow
  have hunits : Text.units text = us := Text.units_ofUnits? h fun u hu => (hus u hu).2
  have hunit : ch.toNat ∈ Text.units text := by
    refine List.mem_flatMap.mpr ⟨ch, hch, ?_⟩
    rw [Text.unitsOf, if_pos (by omega)]
    exact List.mem_singleton_self _
  exact hlow (hus _ (hunits ▸ hunit)).1

/-- **Nothing of Latin-1 is read from bytes that are not zero.** -/
theorem beyond_latin (hc : c.IsWide) (hbytes : 0 ∉ bytes) (h : c.decodeBare? bytes = some text) :
    ∀ ch ∈ text, 0x100 ≤ ch.toNat := by
  rcases hc with rfl | rfl
  · obtain ⟨us, hus, htext⟩ := Option.bind_eq_some_iff.mp h
    exact beyond_latin_of_ofUnits? htext
      (fillsUnit_of_unitsOfBytes? (fun a b _ hb => fillsUnit_value hb) hbytes hus)
  · obtain ⟨us, hus, htext⟩ := Option.bind_eq_some_iff.mp h
    exact beyond_latin_of_ofUnits? htext
      (fillsUnit_of_unitsOfBytes? (fun a b ha _ => fillsUnit_value ha) hbytes hus)

/-! ## 3. What is read again -/

/-- **The bytes of a text are read in pairs**, unless it begins with U+FEFF, which is taken off. -/
theorem decode?_encodeUtf8 (c : Charset) (text : List Char) : c.decode? (encodeUtf8 text) =
    if Charset.utf8.BeginsLikeMark text then some text.tail
    else c.decodeBare? (encodeUtf8 text) := by
  have hwritten : Charset.utf8.encode? text = some (encodeUtf8 text) := rfl
  split
  next hmark =>
    obtain ⟨front, hfront, back, rfl⟩ := hmark
    obtain rfl : front = ['\uFEFF'] := by
      have hall : utf8.markTexts = [['\uFEFF']] := by decide +kernel
      rw [hall] at hfront
      exact List.mem_singleton.mp hfront
    exact decodeUtf8?_encodeUtf8 back
  next hmark =>
    have hnone := (mark?_of_encode? (by decide) (by decide) hwritten).mpr hmark
    rw [decode?, hnone]

end BlockDoc.Charset
