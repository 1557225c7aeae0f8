/-
# Reading words and texts from bytes

An input is what is left of some data together with the number of bytes already read.  Every
reading step either names the region in which the data end, or takes bytes away; the lemmas at
the end say how many, which is why reading comes to an end.
-/
import BlockDoc.Bytes
import BlockDoc.Error
import BlockDoc.Outcome
import BlockDoc.Text.Utf16

namespace BlockDoc.Binary

/-- Data that are being read. -/
structure Input where
  /-- The bytes still to be read. -/
  bytes : Bytes
  /-- How many bytes were read before. -/
  offset : Nat := 0
  deriving DecidableEq

namespace Input

/-- The input behind its first `n` bytes. -/
def drop (inp : Input) (n : Nat) : Input := ⟨inp.bytes.drop n, inp.offset + n⟩

/-- Read a word of `width` bytes that belongs to `region`. -/
def word (width : Nat) (region : Region) (inp : Input) : Except Error (Nat × Input) :=
  let taken := inp.bytes.take width
  if taken.length = width then .ok (Word.value taken, inp.drop width)
  else .error (.unexpectedEof region)

/-- Read a flag: a byte that is set if it is one. -/
def flag (region : Region) (inp : Input) : Except Error (Bool × Input) := do
  let (b, rest) ← inp.word 1 region
  .ok (b == 1, rest)

/-- The sixteen-bit units in front of the first zero unit. -/
def unitsBeforeZero? : Bytes → Option (List Nat)
  | lo :: hi :: rest =>
    if Word.value [lo, hi] = 0 then some []
    else (unitsBeforeZero? rest).map (Word.value [lo, hi] :: ·)
  | _ => none

/-- Read a text in sixteen-bit units that ends with a zero unit.  Units that form no text are
reported with the offset of the first of them. -/
def wideString (inp : Input) : Except Error (String × Input) :=
  match unitsBeforeZero? inp.bytes with
  | none => .error (.unexpectedEof .wideString)
  | some units => match Text.ofUnits? units with
    | none => .error (.invalidWideString inp.offset)
    | some cs => .ok (String.ofList cs, inp.drop (2 * (units.length + 1)))

/-! ## How much is read -/

theorem word_ok {width : Nat} {region : Region} {inp rest : Input} {n : Nat}
    (h : inp.word width region = .ok (n, rest)) :
    width ≤ inp.bytes.length ∧ rest = inp.drop width := by
  simp only [word, List.length_take] at h
  split at h
  · next hw => simp at h; exact ⟨by omega, h.2.symm⟩
  · simp at h

theorem length_of_word {width : Nat} {region : Region} {inp rest : Input} {n : Nat}
    (h : inp.word width region = .ok (n, rest)) :
    rest.bytes.length + width = inp.bytes.length := by
  obtain ⟨hw, rfl⟩ := word_ok h
  simp [drop]
  omega

theorem length_of_flag {region : Region} {inp rest : Input} {b : Bool}
    (h : inp.flag region = .ok (b, rest)) : rest.bytes.length + 1 = inp.bytes.length := by
  obtain ⟨⟨n, mid⟩, hw, h⟩ := bind_eq_ok.1 h
  obtain ⟨-, rfl⟩ : (n == 1) = b ∧ mid = rest := by simpa using h
  exact length_of_word hw

theorem length_unitsBeforeZero? {bs : Bytes} {us : List Nat}
    (h : unitsBeforeZero? bs = some us) : 2 * (us.length + 1) ≤ bs.length := by
  fun_induction unitsBeforeZero? bs generalizing us with
  | case1 => simp at h; subst h; simp
  | case2 lo hi rest _ ih =>
    obtain ⟨vs, hvs, rfl⟩ := Option.map_eq_some_iff.1 h
    have := ih hvs
    simp; omega
  | case3 => simp at h

theorem length_of_wideString {inp rest : Input} {s : String}
    (h : inp.wideString = .ok (s, rest)) : rest.bytes.length + 2 ≤ inp.bytes.length := by
  unfold wideString at h
  split at h
  · simp at h
  next us hus =>
    have := length_unitsBeforeZero? hus
    split at h
    · simp at h
    · simp at h
      rw [← h.2]
      simp [drop]
      omega

end Input

end BlockDoc.Binary
