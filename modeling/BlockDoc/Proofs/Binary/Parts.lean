/-
# Reading the parts of an encoding

For every part there is one law, in both directions: the reader of the part succeeds if and only
if the input begins with bytes that fill its slots, and then it takes these bytes and no more.

A text has no length in front of it: it ends at the first zero unit.  So a text is read if and
only if it has no character U+0000 and its units stand at the front of the input.
-/
import BlockDoc.Proofs.Binary.Encoding
import Mathlib.Data.List.Basic

namespace BlockDoc

/-! ## 1. Units -/

namespace Text

/-- The character that ends a text in an encoding. -/
def nul : Char := Char.ofNat 0

theorem units_cons (c : Char) (cs : List Char) : units (c :: cs) = unitsOf c ++ units cs := rfl

/-- A unit has sixteen bits. -/
theorem lt_of_mem_units {cs : List Char} {u : Nat} (h : u ∈ units cs) : u < 65536 := by
  obtain ⟨c, -, hu⟩ := List.mem_flatMap.mp h
  have hv : c.toNat < 0x110000 := by
    rcases c.valid with h' | h'
    · exact Nat.lt_trans h' (by decide)
    · exact h'.2
  rw [unitsOf] at hu
  split at hu
  · obtain rfl := List.mem_singleton.mp hu
    omega
  · simp only [List.mem_cons, List.not_mem_nil, or_false] at hu
    omega

/-- Only the character U+0000 has a zero unit. -/
theorem zero_mem_units_iff {cs : List Char} : 0 ∈ units cs ↔ nul ∈ cs := by
  constructor
  · intro h
    obtain ⟨c, hc, hu⟩ := List.mem_flatMap.mp h
    have hzero : c.toNat = 0 := by
      rw [unitsOf] at hu
      split at hu
      · exact (List.mem_singleton.mp hu).symm
      · simp only [List.mem_cons, List.not_mem_nil, or_false] at hu
        omega
    have : c = nul := by
      rw [nul, ← hzero, Char.ofNat_toNat]
    exact this ▸ hc
  · intro h
    exact List.mem_flatMap.mpr ⟨nul, h, by decide⟩

/-- The number of a character made from a valid number. -/
theorem toNat_of_valid {n : Nat} (h : n.isValidChar) : (Char.ofNat n).toNat = n := by
  rw [Char.ofNat, dif_pos h]
  rfl

/-- **Units are recovered from their text.** -/
theorem units_ofUnits? {us : List Nat} {cs : List Char} (h : ofUnits? us = some cs)
    (hlt : ∀ u ∈ us, u < 65536) : units cs = us := by
  fun_induction ofUnits? us generalizing cs with
  | case1 =>
    obtain rfl : cs = [] := by simpa using h.symm
    rfl
  | case2 u hu v rest hv ih =>
    obtain ⟨ds, hds, rfl⟩ := Option.map_eq_some_iff.mp h
    simp only [isHigh, isLow, Bool.and_eq_true, decide_eq_true_eq] at hu hv
    have hrest := ih hds fun w hw => hlt w (List.mem_cons_of_mem _ (List.mem_cons_of_mem _ hw))
    have hvalid : (0x10000 + (u - 0xD800) * 0x400 + (v - 0xDC00)).isValidChar := by
      exact .inr ⟨by omega, by omega⟩
    rw [units_cons, hrest, unitsOf, toNat_of_valid hvalid, if_neg (by omega)]
    simp only [List.cons_append, List.nil_append, List.cons.injEq, and_true]
    omega
  | case3 => simp at h
  | case4 => simp at h
  | case5 => simp at h
  | case6 u rest hu hv ih =>
    obtain ⟨ds, hds, rfl⟩ := Option.map_eq_some_iff.mp h
    have hlt' := hlt u List.mem_cons_self
    have hrest := ih hds fun w hw => hlt w (List.mem_cons_of_mem _ hw)
    have hvalid : u.isValidChar := by
      simp only [isHigh, isLow, Bool.and_eq_true, decide_eq_true_eq, not_and_or,
        Nat.not_le, Nat.not_lt] at hu hv
      rcases Nat.lt_or_ge u 0xD800 with h' | h'
      · exact .inl h'
      · exact .inr ⟨by omega, by omega⟩
    rw [units_cons, hrest, unitsOf, toNat_of_valid hvalid, if_pos hlt']
    rfl

end Text

/-! ## 2. What is taken from an input -/

namespace Binary

variable {layout : Layout}

namespace Input

/-- An input begins with some bytes, and the other is what follows them. -/
structure Takes (inp : Input) (bs : Bytes) (rest : Input) : Prop where
  /-- The bytes stand in front of the others. -/
  bytes : inp.bytes = bs ++ rest.bytes
  /-- They are counted as read. -/
  offset : rest.offset = inp.offset + bs.length

variable {inp mid rest : Input} {region : Region} {as bs : Bytes}

theorem takes_nil : inp.Takes [] rest ↔ inp = rest := by
  constructor
  · rintro ⟨hbytes, hoffset⟩
    obtain ⟨bytes, offset⟩ := inp
    obtain ⟨bytes', offset'⟩ := rest
    obtain rfl : bytes = bytes' := hbytes
    obtain rfl : offset' = offset := hoffset
    rfl
  · rintro rfl
    exact ⟨rfl, rfl⟩

/-- Taking bytes one part after the other. -/
theorem takes_append : inp.Takes (as ++ bs) rest ↔ ∃ mid, inp.Takes as mid ∧ mid.Takes bs rest := by
  constructor
  · rintro ⟨hbytes, hoffset⟩
    refine ⟨⟨bs ++ rest.bytes, inp.offset + as.length⟩, ⟨?_, rfl⟩, ⟨rfl, ?_⟩⟩
    · rw [hbytes, List.append_assoc]
    · rw [hoffset, List.length_append, Nat.add_assoc]
  · rintro ⟨mid, ⟨hbytes, hoffset⟩, ⟨hbytes', hoffset'⟩⟩
    refine ⟨?_, ?_⟩
    · rw [hbytes, hbytes', List.append_assoc]
    · rw [hoffset', hoffset, List.length_append, Nat.add_assoc]

theorem Takes.trans (h : inp.Takes as mid) (h' : mid.Takes bs rest) : inp.Takes (as ++ bs) rest :=
  takes_append.mpr ⟨mid, h, h'⟩

theorem takes_drop {n : Nat} (h : n ≤ inp.bytes.length) :
    inp.Takes (inp.bytes.take n) (inp.drop n) :=
  ⟨(List.take_append_drop _ _).symm, by rw [List.length_take, Nat.min_eq_left h]; rfl⟩

theorem Takes.eq_drop (h : inp.Takes bs rest) : rest = inp.drop bs.length := by
  obtain ⟨hbytes, hoffset⟩ := h
  obtain ⟨bytes, offset⟩ := rest
  rw [drop, hbytes, List.drop_left, ← hoffset]

theorem Takes.eq_take (h : inp.Takes bs rest) : inp.bytes.take bs.length = bs := by
  rw [h.bytes, List.take_left]

/-- **A word** is any bytes of its width. -/
theorem word_eq_ok {width n : Nat} :
    inp.word width region = .ok (n, rest) ↔
      ∃ bs, bs.length = width ∧ Word.value bs = n ∧ inp.Takes bs rest := by
  constructor
  · intro h
    obtain ⟨hle, rfl⟩ := word_ok h
    have hlen : (inp.bytes.take width).length = width := by
      rw [List.length_take, Nat.min_eq_left hle]
    rw [word, if_pos hlen] at h
    cases h
    exact ⟨_, hlen, rfl, takes_drop hle⟩
  · rintro ⟨bs, rfl, rfl, h⟩
    rw [word, h.eq_take, if_pos rfl, h.eq_drop]

/-- **The header of a document** is its flag and its count. -/
theorem header_eq_ok {sorted : Bool} {count : Nat} :
    inp.header region = .ok ((sorted, count), rest) ↔
      count < 2 ^ 32 ∧ ∃ bs, Fills (headerSlots sorted count) bs ∧ inp.Takes bs rest := by
  constructor
  · intro h
    obtain ⟨⟨s, mid⟩, hflag, h⟩ := bind_eq_ok.1 h
    obtain ⟨⟨b, mid'⟩, hbyte, hflag⟩ := bind_eq_ok.1 hflag
    obtain ⟨⟨n, last⟩, hcount, h⟩ := bind_eq_ok.1 h
    cases hflag
    cases h
    obtain ⟨flag, hone, rfl, hf⟩ := word_eq_ok.mp hbyte
    obtain ⟨b, rfl⟩ := List.length_eq_one_iff.mp hone
    obtain ⟨word, hfour, rfl, hw⟩ := word_eq_ok.mp hcount
    refine ⟨Nat.lt_of_lt_of_eq (Word.value_lt word) (by rw [hfour]; rfl), _, ?_, hf.trans hw⟩
    refine fills_headerSlots.mpr ⟨b, ?_, by rw [← hfour, Word.bytes_value]; rfl⟩
    simp [Word.value, ← UInt8.toNat_inj]
  · rintro ⟨hcount, bs, hbs, h⟩
    obtain ⟨b, rfl, rfl⟩ := fills_headerSlots.mp hbs
    obtain ⟨mid, hf, hw⟩ := takes_append.mp (show inp.Takes ([b] ++ Word.bytes 4 count) rest from h)
    have hvalue : Word.value (Word.bytes 4 count) = count := by
      rw [Word.value_bytes]
      exact Nat.mod_eq_of_lt hcount
    have hbyte : inp.word 1 region = .ok (b.toNat, mid) :=
      word_eq_ok.mpr ⟨[b], rfl, by simp [Word.value], hf⟩
    rw [header, flag, hbyte]
    simp only [ok_bind, word_eq_ok.mpr ⟨_, Word.length_bytes 4 count, hvalue, hw⟩]
    simp [← UInt8.toNat_inj]

/-- **The group words of an entry** are any eight bytes. -/
theorem place_eq_ok {sorted : Bool} :
    inp.place layout sorted = .ok rest ↔
      ∃ bs, Fills (placeSlots layout sorted) bs ∧ inp.Takes bs rest := by
  simp only [fills_placeSlots]
  rw [place]
  split
  · constructor
    · intro h
      obtain ⟨⟨index, mid⟩, hindex, h⟩ := bind_eq_ok.1 h
      obtain ⟨⟨count, last⟩, hcount, h⟩ := bind_eq_ok.1 h
      cases h
      obtain ⟨bs, hbs, -, h⟩ := word_eq_ok.mp hindex
      obtain ⟨cs, hcs, -, h'⟩ := word_eq_ok.mp hcount
      exact ⟨_, by rw [List.length_append, hbs, hcs], h.trans h'⟩
    · rintro ⟨bs, hlen, h⟩
      rw [← List.take_append_drop 4 bs, takes_append] at h
      obtain ⟨mid, h, h'⟩ := h
      rw [word_eq_ok.mpr ⟨_, by rw [List.length_take, hlen]; rfl, rfl, h⟩]
      simp only [ok_bind, word_eq_ok.mpr ⟨_, by rw [List.length_drop, hlen], rfl, h'⟩]
  · constructor
    · intro h
      cases h
      exact ⟨[], rfl, takes_nil.mpr rfl⟩
    · rintro ⟨bs, hlen, h⟩
      rw [List.length_eq_zero_iff.mp hlen, takes_nil] at h
      rw [h]

/-- Units in front of a zero unit are found. -/
theorem unitsBeforeZero?_append {us : List Nat} {r : Bytes} (h : ∀ u ∈ us, u ≠ 0 ∧ u < 65536) :
    unitsBeforeZero? (us.flatMap (Word.bytes 2) ++ (Word.bytes 2 0 ++ r)) = some us := by
  induction us with
  | nil => rfl
  | cons u us ih =>
    obtain ⟨hne, hlt⟩ := h u List.mem_cons_self
    have hvalue : Word.value (Word.bytes 2 u) = u := by
      rw [Word.value_bytes]
      exact Nat.mod_eq_of_lt hlt
    have hrest := ih fun v hv => h v (List.mem_cons_of_mem _ hv)
    simp only [Word.bytes] at hvalue
    rw [List.flatMap_cons, List.append_assoc]
    simp only [Word.bytes, List.cons_append, List.nil_append] at hrest ⊢
    rw [unitsBeforeZero?, hvalue, if_neg hne, hrest]
    rfl

/-- What was found stands at the front, with a zero unit behind it. -/
theorem eq_append_of_unitsBeforeZero? {bs : Bytes} {us : List Nat}
    (h : unitsBeforeZero? bs = some us) :
    (∀ u ∈ us, u ≠ 0 ∧ u < 65536) ∧
      ∃ r, bs = us.flatMap (Word.bytes 2) ++ (Word.bytes 2 0 ++ r) := by
  fun_induction unitsBeforeZero? bs generalizing us with
  | case1 lo hi rest hzero =>
    cases h
    have hpair : Word.bytes 2 0 = [lo, hi] := hzero ▸ Word.bytes_value [lo, hi]
    exact ⟨by simp, rest, by rw [hpair]; rfl⟩
  | case2 lo hi rest hne ih =>
    obtain ⟨vs, hvs, rfl⟩ := Option.map_eq_some_iff.mp h
    obtain ⟨hunits, r, hr⟩ := ih hvs
    have hpair : Word.bytes 2 (Word.value [lo, hi]) = [lo, hi] := Word.bytes_value [lo, hi]
    have hlt : Word.value [lo, hi] < 65536 := by
      have hlo := lo.toNat_lt
      have hhi := hi.toNat_lt
      simp only [Word.value]
      omega
    refine ⟨List.forall_mem_cons.mpr ⟨⟨hne, hlt⟩, hunits⟩, r, ?_⟩
    rw [List.flatMap_cons, hpair, hr, List.append_assoc]
    rfl
  | case3 => simp at h

theorem length_wideBytes (s : String) :
    (wideBytes s).length = 2 * ((Text.units s.toList).length + 1) := by
  have h : ∀ us : List Nat, (us.flatMap (Word.bytes 2)).length = 2 * us.length := by
    intro us
    induction us with
    | nil => rfl
    | cons u us ih =>
      rw [List.flatMap_cons, List.length_append, ih, Word.length_bytes, List.length_cons]
      omega
  rw [wideBytes, List.length_append, h, Word.length_bytes]
  omega

/-- **A text** is read if and only if it has no U+0000 and stands there. -/
theorem wideString_eq_ok {s : String} :
    inp.wideString = .ok (s, rest) ↔ Text.nul ∉ s.toList ∧ inp.Takes (wideBytes s) rest := by
  constructor
  · intro h
    unfold wideString at h
    split at h
    · cases h
    next us hus =>
      obtain ⟨hmem, r, hr⟩ := eq_append_of_unitsBeforeZero? hus
      split at h
      · cases h
      next cs hcs =>
        cases h
        have hunits := Text.units_ofUnits? hcs fun u hu => (hmem u hu).2
        have hbytes : wideBytes (String.ofList cs) =
            us.flatMap (Word.bytes 2) ++ Word.bytes 2 0 := by
          rw [wideBytes, String.toList_ofList, hunits]
        have hlen : (wideBytes (String.ofList cs)).length = 2 * (us.length + 1) := by
          rw [length_wideBytes, String.toList_ofList, hunits]
        refine ⟨?_, ?_⟩
        · rw [String.toList_ofList, ← Text.zero_mem_units_iff, hunits]
          exact fun hzero => (hmem 0 hzero).1 rfl
        · rw [← List.append_assoc, ← hbytes] at hr
          rw [← hlen]
          refine ⟨?_, rfl⟩
          rw [drop, hr, List.drop_left]
  · rintro ⟨hnul, h⟩
    have hunits : unitsBeforeZero? inp.bytes = some (Text.units s.toList) := by
      rw [h.bytes, wideBytes, List.append_assoc]
      refine unitsBeforeZero?_append fun u hu => ⟨fun e => ?_, Text.lt_of_mem_units hu⟩
      exact hnul (Text.zero_mem_units_iff.mp (e ▸ hu))
    simp only [wideString, hunits, Text.ofUnits?_units, String.ofList_toList]
    rw [h.eq_drop, length_wideBytes]

end Input

/-! ## 3. Pieces -/

theorem ofByte?_eq_some {b : UInt8} {k : Kind} : Kind.ofByte? b = some k ↔ b = k.toByte := by
  constructor
  · intro h
    unfold Kind.ofByte? at h
    split at h <;> cases h <;> rfl
  · rintro rfl
    exact Kind.ofByte?_toByte k

/-- What the reader asks of a piece besides its bytes: no text has the character that ends it, a
block does not lie too deep, and its count fits into a word. -/
def Piece.Fits (limit level : Nat) : Piece → Prop
  | .param name text => Text.nul ∉ name.toList ∧ Text.nul ∉ text.toList
  | .block name _ count => Text.nul ∉ name.toList ∧ level < limit ∧ count < 2 ^ 32

namespace Input

variable {inp rest : Input} {limit level : Nat} {sorted : Bool}

/-- What stands in front of the content of an entry. -/
theorem takes_front {bs : Bytes} {kind : Kind} {name : String} {content : List Slot} :
    (Fills (placeSlots layout sorted ++ ((kind.toByte :: wideBytes name).map .content ++ content))
        bs ∧ inp.Takes bs rest) ↔
      ∃ place tail i₁ i₂ i₃, bs = place ++ (kind.toByte :: wideBytes name ++ tail) ∧
        Fills (placeSlots layout sorted) place ∧ inp.Takes place i₁ ∧
        i₁.Takes [kind.toByte] i₂ ∧ i₂.Takes (wideBytes name) i₃ ∧ Fills content tail ∧
        i₃.Takes tail rest := by
  simp only [fills_append, fills_content]
  constructor
  · rintro ⟨⟨place, _, rfl, hplace, _, tail, rfl, rfl, htail⟩, h⟩
    obtain ⟨i₁, h₁, h⟩ := takes_append.mp h
    rw [← List.singleton_append, List.append_assoc] at h
    obtain ⟨i₂, h₂, h⟩ := takes_append.mp h
    obtain ⟨i₃, h₃, h⟩ := takes_append.mp h
    exact ⟨place, tail, i₁, i₂, i₃, rfl, hplace, h₁, h₂, h₃, htail, h⟩
  · rintro ⟨place, tail, i₁, i₂, i₃, rfl, hplace, h₁, h₂, h₃, htail, h⟩
    exact ⟨⟨place, _, rfl, hplace, _, tail, rfl, rfl, htail⟩, h₁.trans ((h₂.trans h₃).trans h)⟩

/-- **A piece** is read if and only if it fits and its slots are filled. -/
theorem piece_eq_ok {p : Piece} :
    inp.piece layout limit level sorted = .ok (p, rest) ↔
      p.Fits limit level ∧ ∃ bs, Fills (placeSlots layout sorted ++ p.slots) bs ∧
        inp.Takes bs rest := by
  constructor
  · intro h
    obtain ⟨i₁, hplace, h₁⟩ := bind_eq_ok.1 h
    obtain ⟨⟨kind, i₂⟩, hkind, h₂⟩ := bind_eq_ok.1 h₁
    obtain ⟨⟨name, i₃⟩, hname, h₃⟩ := bind_eq_ok.1 h₂
    obtain ⟨place, hfill, htakes₁⟩ := place_eq_ok.mp hplace
    obtain ⟨byte, hone, rfl, htakes₂⟩ := word_eq_ok.mp hkind
    obtain ⟨b, rfl⟩ := List.length_eq_one_iff.mp hone
    obtain ⟨hnul, htakes₃⟩ := wideString_eq_ok.mp hname
    have hb : UInt8.ofNat (Word.value [b]) = b := by simp [Word.value]
    simp only [hb] at h₃
    split at h₃
    next hk =>
      obtain rfl := ofByte?_eq_some.mp hk
      obtain ⟨⟨text, i₄⟩, htext, h₄⟩ := bind_eq_ok.1 h₃
      obtain ⟨hnul', htakes₄⟩ := wideString_eq_ok.mp htext
      cases h₄
      exact ⟨⟨hnul, hnul'⟩, _, takes_front.mpr
        ⟨place, wideBytes text, i₁, i₂, i₃, rfl, hfill, htakes₁, htakes₂, htakes₃,
          fills_content.mpr rfl, htakes₄⟩⟩
    next hk =>
      obtain rfl := ofByte?_eq_some.mp hk
      split at h₃
      · cases h₃
      next hlevel =>
        obtain ⟨⟨⟨sorted', count⟩, i₄⟩, hheader, h₄⟩ := bind_eq_ok.1 h₃
        obtain ⟨hcount, tail, hfill', htakes₄⟩ := header_eq_ok.mp hheader
        cases h₄
        exact ⟨⟨hnul, Nat.lt_of_not_le hlevel, hcount⟩, _, takes_front.mpr
          ⟨place, tail, i₁, i₂, i₃, rfl, hfill, htakes₁, htakes₂, htakes₃, hfill', htakes₄⟩⟩
    next => cases h₃
  · rintro ⟨hfits, bs, hfill⟩
    have hkind : ∀ k : Kind, Kind.ofByte? (UInt8.ofNat k.toByte.toNat) = some k := by
      intro k
      rw [UInt8.ofNat_toNat, Kind.ofByte?_toByte]
    have hbyte : ∀ {b : UInt8} {i j : Input}, i.Takes [b] j →
        i.word 1 .entryKind = .ok (b.toNat, j) := fun h =>
      word_eq_ok.mpr ⟨_, rfl, by simp [Word.value], h⟩
    cases p with
    | param name text =>
      obtain ⟨place, tail, i₁, i₂, i₃, -, hplace, h₁, h₂, h₃, htail, h₄⟩ := takes_front.mp hfill
      obtain rfl := fills_content.mp htail
      simp only [piece, place_eq_ok.mpr ⟨_, hplace, h₁⟩, hbyte h₂,
        wideString_eq_ok.mpr ⟨hfits.1, h₃⟩, wideString_eq_ok.mpr ⟨hfits.2, h₄⟩, ok_bind, hkind]
    | block name sorted' count =>
      obtain ⟨place, tail, i₁, i₂, i₃, -, hplace, h₁, h₂, h₃, htail, h₄⟩ := takes_front.mp hfill
      simp only [piece, place_eq_ok.mpr ⟨_, hplace, h₁⟩, hbyte h₂,
        wideString_eq_ok.mpr ⟨hfits.1, h₃⟩, if_neg (Nat.not_le_of_lt hfits.2.1),
        header_eq_ok.mpr ⟨hfits.2.2, _, htail, h₄⟩, ok_bind, hkind]

end Input

end Binary

end BlockDoc
