/-
# Bytes and words

Encoded data are lists of bytes.  A word of a given width is written with its lowest byte first.
-/

namespace BlockDoc

/-- Encoded data. -/
abbrev Bytes := List UInt8

namespace Word

/-- The lowest `width` bytes of `n`, the lowest first. -/
def bytes : Nat → Nat → Bytes
  | 0, _ => []
  | width + 1, n => UInt8.ofNat n :: bytes width (n / 256)

/-- The number written by some bytes, the lowest first. -/
def value : Bytes → Nat
  | [] => 0
  | b :: bs => b.toNat + 256 * value bs

@[simp] theorem length_bytes (width n : Nat) : (bytes width n).length = width := by
  induction width generalizing n with
  | zero => rfl
  | succ k ih => simp [bytes, ih]

/-- Writing keeps the number modulo what the width can hold. -/
theorem value_bytes (width n : Nat) : value (bytes width n) = n % Nat.pow 256 width := by
  induction width generalizing n with
  | zero => simp [bytes, value, Nat.mod_one]
  | succ k ih =>
    have split : n % Nat.pow 256 (k + 1) = n % 256 + 256 * (n / 256 % Nat.pow 256 k) := by
      have hpow : Nat.pow 256 (k + 1) = 256 * Nat.pow 256 k := Nat.mul_comm _ _
      rw [hpow, Nat.mod_mul]
    rw [bytes, value, ih, split, UInt8.toNat_ofNat']

/-- Bytes are recovered from their number. -/
theorem bytes_value (bs : Bytes) : bytes bs.length (value bs) = bs := by
  induction bs with
  | nil => rfl
  | cons b bs ih =>
    have hb : b.toNat < 256 := b.toNat_lt
    have h1 : UInt8.ofNat (b.toNat + 256 * value bs) = b := by
      apply UInt8.toNat_inj.1
      rw [UInt8.toNat_ofNat']
      omega
    have h2 : (b.toNat + 256 * value bs) / 256 = value bs := by omega
    simp [bytes, value, h1, h2, ih]

theorem value_lt (bs : Bytes) : value bs < Nat.pow 256 bs.length := by
  induction bs with
  | nil => exact Nat.one_pos
  | cons b bs ih =>
    have hb : b.toNat < 256 := b.toNat_lt
    have hpow : Nat.pow 256 (bs.length + 1) = 256 * Nat.pow 256 bs.length := Nat.mul_comm _ _
    rw [value, List.length_cons, hpow]
    omega

/-- Different bytes write different numbers. -/
theorem value_injective {bs cs : Bytes} (hlen : bs.length = cs.length)
    (h : value bs = value cs) : bs = cs := by
  rw [← bytes_value bs, hlen, h, bytes_value]

end Word

end BlockDoc
