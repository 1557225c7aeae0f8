/-
# Hexadecimal digits

Code points, hashes and single bytes are shown in base sixteen.
-/

namespace BlockDoc.Text

/-- The digits of `n`, lower case, without leading zeros. -/
def hex (n : Nat) : String := String.ofList (Nat.toDigits 16 n)

/-- The digits of `n`, lower case, at least `width` of them. -/
def hexPadded (width n : Nat) : String :=
  let digits := Nat.toDigits 16 n
  String.ofList (List.replicate (width - digits.length) '0' ++ digits)

/-- A byte as two digits, upper case. -/
def hexByteUpper (b : UInt8) : String := (hexPadded 2 b.toNat).toUpper

end BlockDoc.Text
