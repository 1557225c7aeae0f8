/-
# A text that was written is read again, unless it begins like a mark

Writing puts no byte-order mark in front of a text, but reading looks for one.  So the first
characters of a text are what decides: if their bytes are those of a mark, then the mark is taken
off, and what follows it is read in the character set that the mark announces.

Which characters these are depends on the set (`markTexts`).  In a code page each of the three marks
is a text of its own, in windows-1251 `п»ї`, `яю` and `юя`, and in UTF-8 only U+FEFF is left, since
FE and FF begin no character (`mark_of_prefix_utf8`).  The two directions are

* a mark at the front of the bytes comes from such a character (`beginsLikeMark_of_marked`), and
* such a character puts a mark there, because the bytes of a text are those of its parts
  (`prefix_encode?`).

What is read behind a mark is never the text that was written: it is shorter (`length_decodeBare?`).
-/
import BlockDoc.Proofs.Charset.RoundTrip
import BlockDoc.Proofs.Text.Cutting

namespace BlockDoc.Charset

variable {c marked : Charset} {upper : Array Nat} {bytes rest m : Bytes} {text : List Char}

/-! ## 1. Marks -/

/-- The byte-order marks. -/
def marks : List Bytes := [[0xEF, 0xBB, 0xBF], [0xFF, 0xFE], [0xFE, 0xFF]]

/-- The texts that are written as a byte-order mark. -/
def markTexts (c : Charset) : List (List Char) := marks.filterMap c.decodeBare?

/-- A text begins with characters that are written as a byte-order mark. -/
def BeginsLikeMark (c : Charset) (text : List Char) : Prop := ∃ m ∈ c.markTexts, m <+: text

instance (c : Charset) : DecidablePred c.BeginsLikeMark := fun text =>
  inferInstanceAs (Decidable (∃ m ∈ c.markTexts, m <+: text))

/-- A text that is written as a mark holds something, and nothing of it is ASCII. -/
theorem markTexts_beyond_ascii {front : List Char} (h : front ∈ c.markTexts) :
    front ≠ [] ∧ ∀ ch ∈ front, 0x80 ≤ ch.toNat := by
  have hall : (c.markTexts.all fun front => !front.isEmpty && front.all (0x80 ≤ ·.toNat)) = true := by
    cases c <;> decide +kernel
  simpa using List.all_eq_true.mp hall front h

@[simp] theorem not_beginsLikeMark_nil : ¬ c.BeginsLikeMark [] := by
  rintro ⟨front, hfront, hnil⟩
  exact (markTexts_beyond_ascii hfront).1 (List.prefix_nil.mp hnil)

/-- What follows an ASCII character does not matter. -/
theorem beginsLikeMark_append_cons {sep : Char} (hsep : sep.toNat < 0x80) (back : List Char) :
    c.BeginsLikeMark (text ++ sep :: back) ↔ c.BeginsLikeMark text := by
  constructor
  · rintro ⟨front, hfront, h⟩
    refine ⟨front, hfront, Text.prefix_append_cons (fun hmem => ?_) h⟩
    exact absurd ((markTexts_beyond_ascii hfront).2 sep hmem) (Nat.not_le.mpr hsep)
  · rintro ⟨front, hfront, h⟩
    exact ⟨front, hfront, h.trans (List.prefix_append _ _)⟩

theorem mark?_eq_none_iff : mark? bytes = none ↔ ∀ m ∈ marks, ¬ m <+: bytes := by
  unfold mark?
  split
  next => simp [marks]
  next => simp [marks]
  next => simp [marks]
  next hutf8 hle hbe =>
    simp only [marks, List.forall_mem_cons, true_iff]
    refine ⟨?_, ?_, ?_, by simp⟩
    · rintro ⟨rest, rfl⟩
      exact hutf8 rest rfl
    · rintro ⟨rest, rfl⟩
      exact hle rest rfl
    · rintro ⟨rest, rfl⟩
      exact hbe rest rfl

/-- A mark is taken off. -/
theorem length_of_mark? (h : mark? bytes = some (marked, rest)) : rest.length < bytes.length := by
  unfold mark? at h
  split at h <;> cases h <;> simp only [List.length_cons] <;> omega

/-! ## 2. What was written, byte-order marks not considered -/

/-- **Every character is recovered from its byte.** -/
theorem ofByte_of_toByte? (h : UpperHalf upper) {ch : Char} {b : UInt8}
    (hb : toByte? upper ch = some b) : ofByte upper b = ch := by
  rw [toByte?] at hb
  split at hb
  next hlow =>
    obtain rfl := Option.some.inj hb
    have hvalue : (UInt8.ofNat ch.toNat).toNat = ch.toNat := by
      rw [UInt8.toNat_ofNat']
      omega
    have hlt : UInt8.ofNat ch.toNat < 0x80 := by
      rw [UInt8.lt_iff_toNat_lt, hvalue]
      exact hlow
    rw [ofByte, if_pos hlt, hvalue, Char.ofNat_toNat]
  next =>
    obtain ⟨i, hi, rfl⟩ := Option.map_eq_some_iff.mp hb
    obtain ⟨hindex, heq, -⟩ := Array.findIdx?_eq_some_iff_getElem.mp hi
    have hvalue : (UInt8.ofNat (0x80 + i)).toNat = 0x80 + i := by
      have hsize := h.size
      rw [UInt8.toNat_ofNat']
      omega
    have hge : ¬ UInt8.ofNat (0x80 + i) < 0x80 := by
      rw [UInt8.lt_iff_toNat_lt, hvalue]
      exact Nat.not_lt.mpr (Nat.le_add_right _ _)
    rw [ofByte, if_neg hge, hvalue, Nat.add_sub_cancel_left, Array.getD, dif_pos hindex]
    exact (congrArg Char.ofNat (eq_of_beq heq)).trans ch.ofNat_toNat

/-- **A text in a code page** is read again. -/
theorem map_ofByte (h : UpperHalf upper) (hb : text.mapM (toByte? upper) = some bytes) :
    bytes.map (ofByte upper) = text := by
  induction text generalizing bytes with
  | nil =>
    cases hb
    rfl
  | cons ch text ih =>
    rw [List.mapM_cons] at hb
    obtain ⟨b, hch, hb⟩ := Option.bind_eq_some_iff.mp hb
    obtain ⟨bs, htext, hb⟩ := Option.bind_eq_some_iff.mp hb
    cases hb
    rw [List.map_cons, ofByte_of_toByte? h hch, ih htext]

/-- **A text in UTF-8** is read again. -/
theorem decodeUtf8?_encodeUtf8 (text : List Char) : decodeUtf8? (encodeUtf8 text) = some text := by
  have h : ByteArray.mk (encodeUtf8 text).toArray = text.utf8Encode := by
    rw [List.utf8Encode, encodeUtf8]
    exact ByteArray.ext (by simp)
  rw [decodeUtf8?, h, List.utf8Decode?_utf8Encode]
  rfl

/-- **What was written is read again**, byte-order marks not considered. -/
theorem decodeBare?_of_encode? (hle : c ≠ .utf16le) (hbe : c ≠ .utf16be)
    (h : c.encode? text = some bytes) : c.decodeBare? bytes = some text := by
  obtain rfl | ⟨upper, hpage⟩ := utf8_or_page hle hbe
  · cases h
    exact decodeUtf8?_encodeUtf8 text
  · rw [encode?_of_page hpage] at h
    rw [decodeBare?_of_page hpage, map_ofByte (upperHalf_of_page hpage) h]

/-! ## 3. Marks at the front -/

/-- A text is written part by part. -/
theorem prefix_encode? (hle : c ≠ .utf16le) (hbe : c ≠ .utf16be) {front back : List Char}
    {bs : Bytes} (hfront : c.encode? front = some bs)
    (h : c.encode? (front ++ back) = some bytes) : bs <+: bytes := by
  obtain rfl | ⟨upper, hpage⟩ := utf8_or_page hle hbe
  · cases hfront
    cases h
    exact ⟨encodeUtf8 back, List.flatMap_append.symm⟩
  · rw [encode?_of_page hpage] at hfront h
    rw [List.mapM_append, hfront] at h
    obtain ⟨bs', -, hbytes⟩ : ∃ bs', back.mapM (toByte? upper) = some bs' ∧
        some (bs ++ bs') = some bytes := Option.bind_eq_some_iff.mp h
    exact ⟨bs', Option.some.inj hbytes⟩

/-- A character in UTF-8 is told from the bytes behind it. -/
theorem utf8EncodeChar_append_inj {ch ch' : Char} {back back' : Bytes}
    (h : String.utf8EncodeChar ch ++ back = String.utf8EncodeChar ch' ++ back') : ch = ch' := by
  have hread := ByteArray.utf8DecodeChar?_utf8EncodeChar_append (b := back.toByteArray) (c := ch)
  rw [← List.toByteArray_append, h, List.toByteArray_append,
    ByteArray.utf8DecodeChar?_utf8EncodeChar_append] at hread
  exact (Option.some.inj hread).symm

/-- **No mark but that of UTF-8 stands in front of a text in UTF-8**, and it comes from U+FEFF. -/
theorem mark_of_prefix_utf8 (hm : m ∈ marks) (h : m <+: encodeUtf8 text) :
    m = String.utf8EncodeChar '\uFEFF' ∧ ∃ back, text = '\uFEFF' :: back := by
  cases text with
  | nil =>
    obtain rfl := List.prefix_nil.mp h
    exact absurd hm (by decide)
  | cons ch text =>
    obtain ⟨rest, hrest⟩ := h
    rw [encodeUtf8, List.flatMap_cons] at hrest
    obtain ⟨b, bs, hch⟩ := List.exists_cons_of_ne_nil (String.utf8EncodeChar_ne_nil (c := ch))
    have hfirst : b.IsUTF8FirstByte := by
      have h := UInt8.isUTF8FirstByte_getElem_zero_utf8EncodeChar (c := ch)
      simpa only [hch, List.getElem_cons_zero] using h
    simp only [marks, List.mem_cons, List.not_mem_nil, or_false] at hm
    obtain rfl | rfl | rfl := hm
    · obtain rfl : '\uFEFF' = ch := utf8EncodeChar_append_inj hrest
      exact ⟨rfl, text, rfl⟩
    · -- FF begins no character, and neither does FE
      rw [hch] at hrest
      obtain ⟨rfl, -⟩ := List.cons.inj hrest
      exact absurd hfirst (by decide)
    · rw [hch] at hrest
      obtain ⟨rfl, -⟩ := List.cons.inj hrest
      exact absurd hfirst (by decide)

/-- A mark at the front of what was written comes from characters that are written as this mark. -/
theorem beginsLikeMark_of_marked (hle : c ≠ .utf16le) (hbe : c ≠ .utf16be)
    (h : c.encode? text = some bytes) (hm : m ∈ marks) (hmark : m <+: bytes) :
    c.BeginsLikeMark text := by
  obtain rfl | ⟨upper, hpage⟩ := utf8_or_page hle hbe
  · cases h
    obtain ⟨-, back, rfl⟩ := mark_of_prefix_utf8 hm hmark
    exact ⟨['\uFEFF'], by decide, List.prefix_append _ _⟩
  · rw [encode?_of_page hpage] at h
    have hback := map_ofByte (upperHalf_of_page hpage) h
    have hread := decodeBare?_of_page hpage m
    refine ⟨m.map (ofByte upper), List.mem_filterMap.mpr ⟨m, hm, hread⟩, ?_⟩
    exact hback ▸ hmark.map _

/-- **There is a mark in front of what was written if and only if the text begins like one.** -/
theorem mark?_of_encode? (hle : c ≠ .utf16le) (hbe : c ≠ .utf16be)
    (h : c.encode? text = some bytes) : mark? bytes = none ↔ ¬ c.BeginsLikeMark text := by
  rw [mark?_eq_none_iff]
  constructor
  · rintro hnone ⟨front, hfront, back, rfl⟩
    obtain ⟨m, hm, hdecode⟩ := List.mem_filterMap.mp hfront
    exact hnone m hm (prefix_encode? hle hbe (encode?_of_decodeBare? hle hbe hdecode) h)
  · exact fun hnot m hm hmark => hnot (beginsLikeMark_of_marked hle hbe h hm hmark)

/-! ## 4. What is read behind a mark -/

theorem length_unitsOfBytes? {unit : UInt8 → UInt8 → Nat} {us : List Nat}
    (h : unitsOfBytes? unit bytes = some us) : us.length ≤ bytes.length := by
  fun_induction unitsOfBytes? unit bytes generalizing us with
  | case1 => cases h; exact Nat.le_refl _
  | case2 => cases h
  | case3 a b rest ih =>
    obtain ⟨us', hus, rfl⟩ := Option.map_eq_some_iff.mp h
    have hle := ih hus
    simp only [List.length_cons]
    omega

theorem length_ofUnits? {us : List Nat} (h : Text.ofUnits? us = some text) :
    text.length ≤ us.length := by
  fun_induction Text.ofUnits? us generalizing text with
  | case1 => cases h; exact Nat.le_refl _
  | case2 u hu v rest hv ih =>
    obtain ⟨text', ht, rfl⟩ := Option.map_eq_some_iff.mp h
    have hle := ih ht
    simp only [List.length_cons]
    omega
  | case3 => cases h
  | case4 => cases h
  | case5 => cases h
  | case6 u rest hu hl ih =>
    obtain ⟨text', ht, rfl⟩ := Option.map_eq_some_iff.mp h
    have hle := ih ht
    simp only [List.length_cons]
    omega

theorem length_encodeUtf8 (text : List Char) : text.length ≤ (encodeUtf8 text).length := by
  induction text with
  | nil => exact Nat.le_refl _
  | cons ch text ih =>
    have hch := ch.utf8Size_pos
    rw [encodeUtf8, List.flatMap_cons, List.length_append, String.length_utf8EncodeChar,
      List.length_cons, ← encodeUtf8]
    omega

/-- **No character takes less than a byte.** -/
theorem length_decodeBare? (h : c.decodeBare? bytes = some text) :
    text.length ≤ bytes.length := by
  by_cases hle : c = .utf16le
  · subst hle
    obtain ⟨us, hus, htext⟩ := Option.bind_eq_some_iff.mp h
    exact (length_ofUnits? htext).trans (length_unitsOfBytes? hus)
  by_cases hbe : c = .utf16be
  · subst hbe
    obtain ⟨us, hus, htext⟩ := Option.bind_eq_some_iff.mp h
    exact (length_ofUnits? htext).trans (length_unitsOfBytes? hus)
  obtain rfl | ⟨upper, hpage⟩ := utf8_or_page hle hbe
  · rw [← encodeUtf8_of_decodeUtf8? h]
    exact length_encodeUtf8 text
  · rw [decodeBare?_of_page hpage] at h
    cases h
    exact (List.length_map _).le

/-- What is read behind a mark is shorter than what was written. -/
theorem decode?_ne_of_mark? (hle : c ≠ .utf16le) (hbe : c ≠ .utf16be)
    (h : c.encode? text = some bytes) (hmark : mark? bytes = some (marked, rest)) :
    marked.decodeBare? rest ≠ some text := by
  intro hread
  obtain rfl | ⟨upper, hpage⟩ := utf8_or_page hle hbe
  · cases h
    -- the mark is that of UTF-8, and all but U+FEFF is behind it
    have hsome : mark? (encodeUtf8 text) ≠ none := by simp [hmark]
    rw [ne_eq, mark?_eq_none_iff] at hsome
    push Not at hsome
    obtain ⟨m, hm, hprefix⟩ := hsome
    obtain ⟨rfl, back, rfl⟩ := mark_of_prefix_utf8 hm hprefix
    have hrest : mark? (encodeUtf8 ('\uFEFF' :: back)) = some (.utf8, encodeUtf8 back) := rfl
    rw [hrest] at hmark
    cases hmark
    have hback := (decodeUtf8?_encodeUtf8 back).symm.trans hread
    exact absurd (congrArg List.length (Option.some.inj hback)) (by simp)
  · rw [encode?_of_page hpage] at h
    have hback := map_ofByte (upperHalf_of_page hpage) h
    have hlength := length_decodeBare? hread
    have hshorter := length_of_mark? hmark
    rw [← hback, List.length_map] at hlength
    omega

/-- **A text that was written is read again if and only if it does not begin like a mark.** -/
theorem decode?_of_encode?_iff (hle : c ≠ .utf16le) (hbe : c ≠ .utf16be)
    (h : c.encode? text = some bytes) :
    c.decode? bytes = some text ↔ ¬ c.BeginsLikeMark text := by
  rw [← mark?_of_encode? hle hbe h, decode?]
  split
  next marked rest hmark =>
    simp only [hmark, reduceCtorEq, iff_false]
    exact decode?_ne_of_mark? hle hbe h hmark
  next hmark => simp only [hmark, decodeBare?_of_encode? hle hbe h]

end BlockDoc.Charset
