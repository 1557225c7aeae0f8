/-
# Bits

A compressed stream is read bit by bit, from the lowest bit of each byte to its highest.  A
source remembers how many bits were taken.  Reading past the end is no violation of the format:
it means that the stream is not complete.
-/
import BlockDoc.Bytes
import BlockDoc.Error
import BlockDoc.Outcome

namespace BlockDoc.Zlib

/-- Data that are read bit by bit. -/
structure BitSource where
  /-- All data. -/
  data : ByteArray
  /-- How many bits were taken. -/
  position : Nat

namespace BitSource

/-- A source in front of some bytes. -/
def ofBytes (bytes : Bytes) : BitSource := ⟨⟨bytes.toArray⟩, 0⟩

/-- How many bits are left. -/
def remaining (s : BitSource) : Nat := 8 * s.data.size - s.position

/-- Take a bit. -/
def bit (s : BitSource) : Except InflateFailure (Nat × BitSource) :=
  if h : s.position / 8 < s.data.size then
    .ok ((s.data[s.position / 8].toNat >>> (s.position % 8)) % 2,
      { s with position := s.position + 1 })
  else .error .incomplete

/-- Take a number of `n` bits, the lowest first. -/
def bits : Nat → BitSource → Except InflateFailure (Nat × BitSource)
  | 0, s => .ok (0, s)
  | n + 1, s => do
    let (b, s) ← s.bit
    let (v, s) ← s.bits n
    .ok (b + 2 * v, s)

/-- Skip to the start of a byte. -/
def align (s : BitSource) : BitSource := { s with position := (s.position + 7) / 8 * 8 }

/-- Take `n` whole bytes. -/
def bytes (n : Nat) (s : BitSource) : Except InflateFailure (Array UInt8 × BitSource) :=
  let start := s.align.position / 8
  if start + n ≤ s.data.size then
    .ok ((s.data.extract start (start + n)).data, { s with position := (start + n) * 8 })
  else .error .incomplete

theorem remaining_bit {s rest : BitSource} {b : Nat} (h : s.bit = .ok (b, rest)) :
    rest.remaining < s.remaining := by
  unfold bit at h
  split at h
  next hlt =>
    simp at h
    rw [← h.2]
    simp [remaining]
    omega
  next => simp at h

theorem remaining_bits {n : Nat} {s rest : BitSource} {v : Nat} (h : s.bits n = .ok (v, rest)) :
    rest.remaining ≤ s.remaining := by
  induction n generalizing s v rest with
  | zero =>
    obtain ⟨-, rfl⟩ : 0 = v ∧ s = rest := by simpa [bits] using h
    exact Nat.le_refl _
  | succ n ih =>
    obtain ⟨⟨b, mid⟩, hb, h⟩ := bind_eq_ok.1 h
    obtain ⟨⟨w, last⟩, hw, h⟩ := bind_eq_ok.1 h
    obtain ⟨-, rfl⟩ : b + 2 * w = v ∧ last = rest := by simpa using h
    have := remaining_bit hb
    have := ih hw
    omega

end BitSource

end BlockDoc.Zlib
