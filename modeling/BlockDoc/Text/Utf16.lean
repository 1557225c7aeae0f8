/-
# Sixteen-bit units

A character up to U+FFFF is one unit, any other a pair: a high unit from D800 to DBFF and a low
one from DC00 to DFFF, which carry ten bits each.  A unit of these ranges without its partner
stands for no character.
-/

namespace BlockDoc.Text

/-- The units of one character. -/
def unitsOf (c : Char) : List Nat :=
  let n := c.toNat
  if n < 0x10000 then [n]
  else [0xD800 + (n - 0x10000) / 0x400, 0xDC00 + (n - 0x10000) % 0x400]

/-- The units of a text. -/
def units (cs : List Char) : List Nat := cs.flatMap unitsOf

/-- Whether a unit is the first of a pair. -/
def isHigh (u : Nat) : Bool := 0xD800 ≤ u && u < 0xDC00

/-- Whether a unit is the second of a pair. -/
def isLow (u : Nat) : Bool := 0xDC00 ≤ u && u < 0xE000

/-- The text of some units; a unit without its partner is refused. -/
def ofUnits? : List Nat → Option (List Char)
  | [] => some []
  | u :: rest =>
    if isHigh u then
      match rest with
      | v :: rest =>
        if isLow v then
          (ofUnits? rest).map (Char.ofNat (0x10000 + (u - 0xD800) * 0x400 + (v - 0xDC00)) :: ·)
        else none
      | [] => none
    else if isLow u then none
    else (ofUnits? rest).map (Char.ofNat u :: ·)

/-- A text is recovered from its units. -/
theorem ofUnits?_units (cs : List Char) : ofUnits? (units cs) = some cs := by
  induction cs with
  | nil => rfl
  | cons c cs ih =>
    have hv : c.toNat.isValidChar := c.valid
    have hc : units (c :: cs) = unitsOf c ++ units cs := rfl
    rw [hc, unitsOf]
    by_cases h : c.toNat < 0x10000
    · have h1 : isHigh c.toNat = false := by
        simp [isHigh]; rcases hv with h' | h' <;> omega
      have h2 : isLow c.toNat = false := by
        simp [isLow]; rcases hv with h' | h' <;> omega
      rw [if_pos h, List.singleton_append]
      unfold ofUnits?
      simp [h1, h2, ih]
    · have hlt : c.toNat < 0x110000 := by rcases hv with h' | h' <;> omega
      have h1 : isHigh (0xD800 + (c.toNat - 0x10000) / 0x400) = true := by
        simp [isHigh]; omega
      have h2 : isLow (0xDC00 + (c.toNat - 0x10000) % 0x400) = true := by
        simp [isLow]; omega
      have h3 : 0x10000 + (0xD800 + (c.toNat - 0x10000) / 0x400 - 0xD800) * 0x400 +
          (0xDC00 + (c.toNat - 0x10000) % 0x400 - 0xDC00) = c.toNat := by omega
      simp only [h, if_false, List.cons_append, List.nil_append, ofUnits?, h1, h2, if_true, h3, ih,
        Option.map_some, Char.ofNat_toNat]

end BlockDoc.Text
