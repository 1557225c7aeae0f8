/-
# Short bursts of changes

Taking a bit through the register is linear over exclusive or, and it loses nothing: the highest
coefficient of the polynomial tells which bit was shifted out.  So registers that differ stay
different as long as the same bytes are taken through them (`foldl_addByte_injective`).

What is left is the place where the messages differ.  Up to four bytes fit into the register, and
taking them through it one by one is putting them into it at once and shifting it empty
(`foldl_addByte`).  Two messages that differ within four neighbouring bytes therefore have
different checks (`ofBytes_burst`), however long they are.
-/
import BlockDoc.Checksum
import Mathlib.Data.Nat.Bitwise

namespace BlockDoc.Crc

variable {r s : UInt32}

/-! ## 1. One bit -/

theorem low_eq_one_iff : r &&& 1 = 1 ↔ r.toNat % 2 = 1 := by
  rw [← UInt32.toNat_inj, UInt32.toNat_and]
  exact Eq.congr_left (Nat.and_one_is_mod _)

/-- What the lowest bit brings in when it is shifted out. -/
def feedback (r : UInt32) : UInt32 := if r &&& 1 = 1 then polynomial else 0

theorem shift_eq (r : UInt32) : shift r = (r >>> 1) ^^^ feedback r := by
  rw [shift, feedback]
  split
  next => rfl
  next => rw [UInt32.xor_zero]

theorem feedback_xor (r s : UInt32) : feedback (r ^^^ s) = feedback r ^^^ feedback s := by
  simp only [feedback, low_eq_one_iff, UInt32.toNat_xor, Nat.xor_mod_two_eq_one]
  by_cases hr : r.toNat % 2 = 1 <;> by_cases hs : s.toNat % 2 = 1 <;> simp [hr, hs]

/-- **Taking a bit through the register is linear.** -/
theorem shift_xor (r s : UInt32) : shift (r ^^^ s) = shift r ^^^ shift s := by
  rw [shift_eq, shift_eq, shift_eq, feedback_xor, UInt32.shiftRight_xor]
  ac_rfl

theorem toNat_half (r : UInt32) : (r >>> 1).toNat = r.toNat / 2 := by
  rw [UInt32.toNat_shiftRight, Nat.shiftRight_eq_div_pow]
  rfl

/-- A bit that is not set leaves only the other bits behind. -/
theorem toNat_shift_of_even (h : r.toNat % 2 = 0) : (shift r).toNat = r.toNat / 2 := by
  have hlow : ¬ r &&& 1 = 1 := fun hone => by
    rw [low_eq_one_iff] at hone
    omega
  rw [shift, if_neg hlow, toNat_half]

/-- **Taking a bit through the register loses nothing.** -/
theorem eq_zero_of_shift (h : shift r = 0) : r = 0 := by
  have hlt := r.toNat_lt
  rcases Nat.mod_two_eq_zero_or_one r.toNat with heven | hodd
  · have hhalf := toNat_shift_of_even heven
    rw [h, UInt32.toNat_zero] at hhalf
    exact UInt32.toNat_inj.mp (by rw [UInt32.toNat_zero]; omega)
  · -- the polynomial has the highest bit, which no shifted register has
    rw [shift, if_pos (low_eq_one_iff.mpr hodd), UInt32.xor_eq_zero_iff] at h
    have hhalf := toNat_half r
    rw [h] at hhalf
    have hpoly : polynomial.toNat = 0xEDB88320 := rfl
    omega

/-! ## 2. Several bits and bytes -/

theorem shifts_xor (n : Nat) (r s : UInt32) : shifts n (r ^^^ s) = shifts n r ^^^ shifts n s := by
  induction n generalizing r s with
  | zero => rfl
  | succ n ih => rw [shifts, shifts, shifts, shift_xor, ih]

theorem eq_zero_of_shifts {n : Nat} (h : shifts n r = 0) : r = 0 := by
  induction n generalizing r with
  | zero => exact h
  | succ n ih => exact eq_zero_of_shift (ih h)

theorem shifts_injective {n : Nat} (h : shifts n r = shifts n s) : r = s := by
  rw [← UInt32.xor_eq_zero_iff, ← shifts_xor] at h
  exact UInt32.xor_eq_zero_iff.mp (eq_zero_of_shifts h)

theorem shifts_add (m n : Nat) (r : UInt32) : shifts (m + n) r = shifts n (shifts m r) := by
  induction m generalizing r with
  | zero => rw [Nat.zero_add, shifts]
  | succ m ih => rw [Nat.succ_add, shifts, shifts, ih]

/-- Bits that are not set leave only the other bits behind. -/
theorem toNat_shifts_of_dvd {n : Nat} (h : 2 ^ n ∣ r.toNat) :
    (shifts n r).toNat = r.toNat / 2 ^ n := by
  induction n generalizing r with
  | zero => rw [shifts, Nat.pow_zero, Nat.div_one]
  | succ n ih =>
    obtain ⟨k, hk⟩ := h
    rw [Nat.pow_succ'] at hk ⊢
    have hhalf : (shift r).toNat = 2 ^ n * k := by
      rw [toNat_shift_of_even (by rw [hk, Nat.mul_assoc, Nat.mul_mod_right]), hk, Nat.mul_assoc,
        Nat.mul_div_cancel_left _ (by decide)]
    rw [shifts, ih ⟨k, hhalf⟩, hhalf, hk, Nat.mul_assoc, Nat.mul_div_mul_left _ _ (by decide)]

theorem addByte_injective {b : UInt8} (h : addByte r b = addByte s b) : r = s :=
  (UInt32.xor_left_inj _).mp (shifts_injective h)

/-- **Registers that differ stay different** while the same bytes are taken through them. -/
theorem foldl_addByte_injective {bs : Bytes} (h : bs.foldl addByte r = bs.foldl addByte s) :
    r = s := by
  induction bs generalizing r s with
  | nil => exact h
  | cons b bs ih => exact addByte_injective (ih h)

/-! ## 3. Bytes that fit into the register -/

/-- The lowest byte of a number stands apart from the others. -/
theorem ofNat_lowest (b : UInt8) (n : Nat) :
    UInt32.ofNat (b.toNat + 256 * n) = b.toUInt32 ^^^ UInt32.ofNat (256 * n) := by
  have hxor : b.toNat + 256 * n = b.toNat ^^^ (256 * n) := by
    refine Nat.eq_of_testBit_eq fun i => ?_
    have hb : b.toNat < 2 ^ 8 := b.toNat_lt
    have hadd := Nat.testBit_two_pow_mul_add n hb i
    rw [Nat.add_comm, hadd, Nat.testBit_xor, Nat.testBit_two_pow_mul (i := 8)]
    split
    next hi => simp [Nat.not_le_of_lt hi]
    next hi =>
      have hhigh : b.toNat.testBit i = false :=
        Nat.testBit_lt_two_pow (Nat.lt_of_lt_of_le hb (Nat.pow_le_pow_right (by decide) (by omega)))
      simp [hhigh, Nat.le_of_not_lt hi]
  rw [hxor, UInt32.ofNat_xor, UInt32.ofNat_uInt8ToNat]

/-- **Bytes that fit into the register** may be put into it at once. -/
theorem foldl_addByte {bs : Bytes} (h : bs.length ≤ 4) (r : UInt32) :
    bs.foldl addByte r = shifts (8 * bs.length) (r ^^^ UInt32.ofNat (Word.value bs)) := by
  induction bs generalizing r with
  | nil => exact UInt32.xor_zero.symm
  | cons b bs ih =>
    rw [List.length_cons] at h
    have hlt : Word.value bs < 2 ^ 24 :=
      Nat.lt_of_lt_of_le (Word.value_lt bs) (Nat.pow_le_pow_right (by decide) (by omega) :
        256 ^ bs.length ≤ 256 ^ 3)
    -- the other bytes only move to the place of the first
    have hmove : shifts 8 (UInt32.ofNat (256 * Word.value bs)) = UInt32.ofNat (Word.value bs) := by
      have htoNat : (UInt32.ofNat (256 * Word.value bs)).toNat = 2 ^ 8 * Word.value bs := by
        rw [UInt32.toNat_ofNat']
        exact Nat.mod_eq_of_lt (by omega)
      refine UInt32.toNat_inj.mp ?_
      rw [toNat_shifts_of_dvd ⟨_, htoNat⟩, htoNat, Nat.mul_div_cancel_left _ (by decide),
        UInt32.toNat_ofNat', Nat.mod_eq_of_lt (by omega)]
    rw [List.foldl_cons, ih (by omega), addByte, Word.value, ofNat_lowest, List.length_cons,
      Nat.mul_succ, Nat.add_comm, shifts_add, ← UInt32.xor_assoc, shifts_xor 8 (r ^^^ b.toUInt32),
      hmove]

/-- **Two messages that differ within four neighbouring bytes have different checks**, whatever
stands before and after these bytes. -/
theorem ofBytes_burst {front bs cs back : Bytes} (hlen : bs.length = cs.length)
    (h4 : bs.length ≤ 4) (hne : bs ≠ cs) :
    ofBytes (front ++ (bs ++ back)) ≠ ofBytes (front ++ (cs ++ back)) := by
  intro h
  simp only [ofBytes, UInt32.xor_left_inj, List.foldl_append] at h
  have hplace := foldl_addByte_injective h
  have h4' : cs.length ≤ 4 := hlen ▸ h4
  rw [foldl_addByte h4, foldl_addByte h4', ← hlen] at hplace
  have hword := (UInt32.xor_right_inj _).mp (shifts_injective hplace)
  have hlt : ∀ {xs : Bytes}, xs.length ≤ 4 → Word.value xs < 2 ^ 32 := fun {xs} hxs =>
    Nat.lt_of_lt_of_le (Word.value_lt xs) (Nat.pow_le_pow_right (by decide) hxs :
      256 ^ xs.length ≤ 256 ^ 4)
  have hvalue := congrArg UInt32.toNat hword
  rw [UInt32.toNat_ofNat', UInt32.toNat_ofNat', Nat.mod_eq_of_lt (hlt h4),
    Nat.mod_eq_of_lt (hlt h4')] at hvalue
  exact hne (Word.value_injective hlen hvalue)

end BlockDoc.Crc
