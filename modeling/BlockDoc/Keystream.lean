/-
# Keystreams

A generator walks through the residues of a prime, multiplying by a fixed number at each step.
The product is found by way of a quotient and a remainder of the state, so that no intermediate
result is large.  A cipher adds the low byte of each value to a byte of the message; adding the
same bytes again takes them off, so it undoes itself.
-/
import BlockDoc.Bytes

namespace BlockDoc.Keystream

/-- The modulus, the prime 2³¹ - 1. -/
def modulus : Int := 0x7FFFFFFF

/-- The multiplier. -/
def multiplier : Int := 0x41A7

/-- The quotient of the modulus by the multiplier. -/
def quotient : Int := 0x1F31D

/-- The remainder of the modulus by the multiplier. -/
def remainder : Int := 0xB14

/-- The modulus is put together from quotient and remainder. -/
theorem modulus_eq : modulus = multiplier * quotient + remainder := by decide

/-- A source of numbers. -/
structure Generator where
  /-- The number from which the next one is made. -/
  state : Int
  deriving DecidableEq

namespace Generator

/-- The generator that starts from a seed. -/
def ofSeed (seed : Int32) : Generator := ⟨seed.toInt⟩

/-- The state after a step.  Division rounds down, so the remainder is never negative. -/
def advance (state : Int) : Int :=
  let next := state % quotient * multiplier - state / quotient * remainder
  if next < 1 then next + modulus else next

/-- The next number, one less than the state behind it. -/
def next (g : Generator) : UInt32 × Generator :=
  let state := advance g.state
  (UInt32.ofInt (state - 1), ⟨state⟩)

/-- The first `n` numbers. -/
def take : Nat → Generator → List UInt32
  | 0, _ => []
  | n + 1, g => let (v, g) := g.next; v :: take n g

end Generator

/-- A cipher is at a place in its keystream. -/
structure Cipher where
  /-- Where the next bytes come from. -/
  generator : Generator
  deriving DecidableEq

namespace Cipher

/-- The cipher that starts from a seed. -/
def ofSeed (seed : Int32) : Cipher := ⟨.ofSeed seed⟩

/-- The next byte of the keystream. -/
def next (c : Cipher) : UInt8 × Cipher :=
  let (v, g) := c.generator.next
  (v.toUInt8, ⟨g⟩)

/-- Add the keystream to some bytes, behind those that are done. -/
def applyBehind (c : Cipher) (done : Array UInt8) : Bytes → Array UInt8 × Cipher
  | [] => (done, c)
  | b :: rest => let (k, c) := c.next; c.applyBehind (done.push (b ^^^ k)) rest

/-- Add the keystream to some bytes; this encrypts and decrypts. -/
def apply (c : Cipher) (bytes : Bytes) : Bytes × Cipher :=
  let (done, c) := c.applyBehind #[] bytes
  (done.toList, c)

/-- Add the keystream to `n` cells of a buffer, from cell `i` on, where they are. -/
def applyCells (c : Cipher) (buffer : Array UInt8) (i : Nat) : Nat → Array UInt8 × Cipher
  | 0 => (buffer, c)
  | n + 1 => let (k, c) := c.next; c.applyCells (buffer.modify i (· ^^^ k)) (i + 1) n

/-- Add the keystream to a buffer, where it is. -/
def applyInPlace (c : Cipher) (buffer : Array UInt8) : Array UInt8 × Cipher :=
  c.applyCells buffer 0 buffer.size

/-- What a cipher can do to some bytes. -/
inductive Operation where
  /-- New bytes are made, to be kept. -/
  | encrypt
  /-- New bytes are made, to be read. -/
  | decrypt
  /-- The bytes are changed where they are, to be kept or to be read. -/
  | inPlace
  deriving DecidableEq

/-- The bytes behind an operation, and the cipher. -/
def perform (c : Cipher) (op : Operation) (bytes : Bytes) : Bytes × Cipher :=
  match op with
  | .encrypt => c.apply bytes
  | .decrypt => c.apply bytes
  | .inPlace => let (buffer, c) := c.applyInPlace bytes.toArray; (buffer.toList, c)

/-- The bytes behind each of several operations that one cipher does in turn, and the cipher. -/
def performAll (c : Cipher) : List (Operation × Bytes) → List Bytes × Cipher
  | [] => ([], c)
  | (op, bytes) :: rest =>
    let (out, c) := c.perform op bytes
    let (outs, c) := c.performAll rest
    (out :: outs, c)

end Cipher

end BlockDoc.Keystream
