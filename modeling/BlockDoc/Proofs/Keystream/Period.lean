/-
# The period of a generator

The modulus is prime, and the multiplier generates all residues that are not zero.  One certificate
shows both: the multiplier to the power `period`, which is one less than the modulus, is one, and
to no power `period / q` with a prime `q` that divides `period` (`multiplier_pow_ne_one`).

A state is the seed times a power of the multiplier.  From the second step on the states lie
between one and the modulus, so they are equal if their residues are; and unless the seed is a
multiple of the modulus, its residue can be taken off again, so the powers must be equal
(`state_eq_iff`).  A generator that starts from a multiple of the modulus stays at the modulus
from the first step on (`state_of_dvd`).
-/
import BlockDoc.Proofs.Keystream.Residue
import Mathlib.GroupTheory.OrderOfElement
import Mathlib.NumberTheory.LucasPrimality
import Mathlib.Data.List.Prime
import Mathlib.Tactic.NormNum.Prime
import Mathlib.Tactic.ReduceModChar

namespace BlockDoc.Keystream

/-! ## 1. The order of the multiplier -/

/-- The residues modulo the modulus. -/
abbrev Residue : Type := ZMod 0x7FFFFFFF

/-- How many residues are not zero. -/
def period : Nat := 0x7FFFFFFE

/-- The primes that make up the period. -/
def periodFactors : List Nat := [2, 3, 3, 7, 11, 31, 151, 331]

theorem prod_periodFactors : periodFactors.prod = period := rfl

theorem prime_of_mem_periodFactors : ∀ q ∈ periodFactors, q.Prime := by
  simp only [periodFactors, List.forall_mem_cons]
  norm_num

/-- There are no other primes in the period. -/
theorem mem_periodFactors {q : Nat} (hq : q.Prime) (h : q ∣ period) : q ∈ periodFactors := by
  rw [← prod_periodFactors] at h
  obtain ⟨f, hf, hdvd⟩ := (Prime.dvd_prod_iff hq.prime).mp h
  rw [(Nat.prime_dvd_prime_iff_eq hq (prime_of_mem_periodFactors f hf)).mp hdvd]
  exact hf

theorem multiplier_eq : (multiplier : Residue) = (16807 : ZMod 2147483647) := by
  rw [multiplier, Int.cast_ofNat]

theorem multiplier_pow_period : (multiplier : Residue) ^ period = 1 := by
  have hone : (16807 : ZMod 2147483647) ^ 2147483646 = 1 := by reduce_mod_char
  rw [multiplier_eq]
  exact hone

/-- **No smaller power of the multiplier is one**, as far as the period is divided by a prime. -/
theorem multiplier_pow_ne_one {q : Nat} (hq : q.Prime) (h : q ∣ period) :
    (multiplier : Residue) ^ (period / q) ≠ 1 := by
  have hall : ∀ q ∈ periodFactors, (16807 : ZMod 2147483647) ^ (2147483646 / q) ≠ 1 := by
    simp only [periodFactors, List.forall_mem_cons, List.not_mem_nil, false_imp_iff, implies_true,
      and_true, Nat.reduceDiv]
    reduce_mod_char
    decide
  rw [multiplier_eq]
  exact hall q (mem_periodFactors hq h)

/-- **The modulus is prime.** -/
theorem prime_modulus : Nat.Prime 0x7FFFFFFF :=
  lucas_primality _ (multiplier : Residue) multiplier_pow_period fun _ => multiplier_pow_ne_one

/-- **The multiplier generates all residues but zero.** -/
theorem orderOf_multiplier : orderOf (multiplier : Residue) = period :=
  orderOf_eq_of_pow_and_pow_div_prime (by decide) multiplier_pow_period fun _ =>
    multiplier_pow_ne_one

/-- Powers of the multiplier are equal if their exponents differ by periods. -/
theorem multiplier_pow_eq_iff {m n : Nat} :
    (multiplier : Residue) ^ m = (multiplier : Residue) ^ n ↔ m ≡ n [MOD period] := by
  have hfinite : IsOfFinOrder (multiplier : Residue) :=
    isOfFinOrder_iff_pow_eq_one.mpr ⟨period, by decide, multiplier_pow_period⟩
  rw [hfinite.pow_eq_pow_iff_modEq, orderOf_multiplier]

namespace Generator

/-! ## 2. States -/

variable {seed : Int32}

/-- The residue of a state. -/
theorem residue_state (seed : Int32) (n : Nat) :
    ((((ofSeed seed).after n).state : Int) : Residue) =
      (multiplier : Residue) ^ n * (seed.toInt : Residue) := by
  have h := (ZMod.intCast_eq_intCast_iff _ _ 0x7FFFFFFF).mpr (state_modEq seed n)
  rwa [Int.cast_mul, Int.cast_pow] at h

/-- Numbers in range are equal if their residues are. -/
theorem eq_of_residue {x y : Int} (hx : InRange x) (hy : InRange y)
    (h : (x : Residue) = (y : Residue)) : x = y := by
  have hdvd : modulus ∣ y - x := ((ZMod.intCast_eq_intCast_iff _ _ 0x7FFFFFFF).mp h).dvd
  unfold InRange at hx hy
  simp only [modulus] at hx hy hdvd
  omega

/-- **States return after a whole period** and not before, from the second one on. -/
theorem state_eq_iff (hseed : ¬ modulus ∣ seed.toInt) (m n : Nat) :
    ((ofSeed seed).after (m + 2)).state = ((ofSeed seed).after (n + 2)).state ↔
      m ≡ n [MOD period] := by
  have : Fact (Nat.Prime 0x7FFFFFFF) := ⟨prime_modulus⟩
  have hunit : (seed.toInt : Residue) ≠ 0 := by
    intro hzero
    exact hseed ((ZMod.intCast_zmod_eq_zero_iff_dvd _ 0x7FFFFFFF).mp hzero)
  have hpow : (multiplier : Residue) ^ (m + 2) * seed.toInt =
      (multiplier : Residue) ^ (n + 2) * seed.toInt ↔ m ≡ n [MOD period] := by
    rw [mul_left_inj' hunit, multiplier_pow_eq_iff, Nat.ModEq.add_iff_right rfl]
  rw [← hpow, ← residue_state, ← residue_state]
  constructor
  · intro h
    rw [h]
  · exact eq_of_residue (state_after_inRange seed m) (state_after_inRange seed n)

/-- **A multiple of the modulus** leads to the modulus, and no further. -/
theorem state_of_dvd (hseed : modulus ∣ seed.toInt) (n : Nat) :
    ((ofSeed seed).after (n + 1)).state = modulus := by
  cases n with
  | zero =>
    -- there are only three multiples among the seeds
    have hfirst : ((ofSeed seed).after 1).state = advance seed.toInt := rfl
    have hmin : -2 ^ 31 ≤ seed.toInt := seed.le_toInt
    have hmax : seed.toInt < 2 ^ 31 := seed.toInt_lt
    have hcases : seed.toInt = -0x7FFFFFFF ∨ seed.toInt = 0 ∨ seed.toInt = 0x7FFFFFFF := by
      simp only [modulus] at hseed
      omega
    rw [hfirst]
    rcases hcases with h | h | h <;> rw [h] <;> decide
  | succ n =>
    refine eq_of_residue (state_after_inRange seed n) ⟨by decide, le_refl modulus⟩ ?_
    have hzero : (seed.toInt : Residue) = 0 :=
      (ZMod.intCast_zmod_eq_zero_iff_dvd _ 0x7FFFFFFF).mpr hseed
    have hmodulus : (modulus : Residue) = 0 :=
      (ZMod.intCast_zmod_eq_zero_iff_dvd _ 0x7FFFFFFF).mpr (dvd_refl modulus)
    rw [residue_state, hzero, mul_zero, hmodulus]

/-! ## 3. Numbers -/

/-- Numbers are equal if the states behind them are. -/
theorem number_eq_iff_state (seed : Int32) (m n : Nat) :
    (ofSeed seed).number m = (ofSeed seed).number n ↔
      ((ofSeed seed).after (m + 1)).state = ((ofSeed seed).after (n + 1)).state := by
  rw [← UInt32.toNat_inj, ← toNat_number, ← toNat_number]
  omega

/-- **The period is as long as it can be.**  Unless the seed is a multiple of the modulus, two
numbers behind the first one are equal if and only if whole periods lie between them.  From a
multiple of the modulus all numbers are the greatest one. -/
theorem full_period (seed : Int32) :
    (¬ modulus ∣ seed.toInt → ∀ m n,
      ((ofSeed seed).number (m + 1) = (ofSeed seed).number (n + 1) ↔ m ≡ n [MOD period])) ∧
    (modulus ∣ seed.toInt → ∀ n, (ofSeed seed).number n = 0x7FFFFFFE) := by
  constructor
  · intro hseed m n
    rw [number_eq_iff_state]
    exact state_eq_iff hseed m n
  · intro hseed n
    have hnumber := toNat_number seed n
    rw [state_of_dvd hseed] at hnumber
    rw [← UInt32.toNat_inj]
    simp only [modulus] at hnumber
    have hgreatest : (0x7FFFFFFE : UInt32).toNat = 0x7FFFFFFE := rfl
    omega

/-- From the seed 1 a number returns after a period and not before; from the least multiple of the
modulus all numbers are the same. -/
theorem full_period_one :
    ¬ modulus ∣ (1 : Int32).toInt ∧
    (∀ m n, (ofSeed 1).number (m + 1) = (ofSeed 1).number (n + 1) ↔ m ≡ n [MOD period]) ∧
    modulus ∣ (-0x7FFFFFFF : Int32).toInt ∧
    ∀ n, (ofSeed (-0x7FFFFFFF)).number n = 0x7FFFFFFE := by
  have hone : ¬ modulus ∣ (1 : Int32).toInt := by decide
  have hleast : modulus ∣ (-0x7FFFFFFF : Int32).toInt := by decide
  exact ⟨hone, (full_period 1).1 hone, hleast, (full_period (-0x7FFFFFFF)).2 hleast⟩

end Generator

end BlockDoc.Keystream
