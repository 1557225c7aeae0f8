/-
# Checksums

The cyclic redundancy check of 32 bits guards the content of an archive; the sum of Adler
guards a compressed stream.
-/
import BlockDoc.Bytes
import BlockDoc.Error

namespace BlockDoc

/-! ## 1. The cyclic check -/

namespace Crc

/-- The generator polynomial, the coefficient of the highest power in the lowest bit. -/
def polynomial : UInt32 := 0xEDB88320

/-- Take one bit through the register. -/
def shift (register : UInt32) : UInt32 :=
  if register &&& 1 = 1 then (register >>> 1) ^^^ polynomial else register >>> 1

/-- Take several bits through the register. -/
def shifts : Nat → UInt32 → UInt32
  | 0, register => register
  | n + 1, register => shifts n (shift register)

/-- Take a byte through the register. -/
def addByte (register : UInt32) (b : UInt8) : UInt32 :=
  shifts 8 (register ^^^ b.toUInt32)

/-- The check of some bytes. -/
def ofBytes (bytes : Bytes) : UInt32 := bytes.foldl addByte 0xFFFFFFFF ^^^ 0xFFFFFFFF

/-- The digits of a check. -/
def digits (hash : UInt32) : String := Text.hexPadded 8 hash.toNat

/-- Accept bytes only if they have the given check. -/
def verify (hash : UInt32) (bytes : Bytes) : Except Error Unit :=
  if ofBytes bytes = hash then .ok () else .error (.hashMismatch hash (ofBytes bytes))

end Crc

/-! ## 2. The sum of Adler -/

/-- The modulus of the sum, the largest prime below 2¹⁶. -/
def adlerModulus : Nat := 65521

/-- The sum of some bytes: one more than their sum, and the sum of all such sums. -/
def adler (bytes : Bytes) : Nat :=
  let (a, b) := bytes.foldl (fun (a, b) byte =>
    let a := (a + byte.toNat) % adlerModulus
    (a, (b + a) % adlerModulus)) (1, 0)
  b * 65536 + a

end BlockDoc
