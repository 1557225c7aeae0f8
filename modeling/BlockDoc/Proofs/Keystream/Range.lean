/-
# The range of a generator

The states of a generator are meant to lie between one and the modulus, and its numbers below the
modulus.  A step adds the modulus to a result below one, but it takes nothing off from a result
above the modulus.  So the question is when a result is too large.

* After a state that is not negative it never is (`advance_inRange`).  The quotient of the state is
  not negative either, so it can only make the result smaller, and not by more than the modulus.
* A negative state lies below zero by some quotients and a distance of one to a quotient.  The step
  leads to the modulus, less a multiplier for the distance and more a remainder for each of those
  quotients (`advance_below`).  This is never below one, and it is above the modulus if the distance
  is short enough (`Overshoots`).

No state behind a step is negative.  So only the first state can be out of range, and it is for some
negative seeds; the second state is in range again (`state_range`).
-/
import BlockDoc.Keystream
import Mathlib.Data.Int.Order.Basic
import Mathlib.Logic.Function.Iterate
import Mathlib.Order.Basic

namespace BlockDoc.Keystream

/-! ## 1. One step -/

/-- A state as it is meant to be. -/
def InRange (state : Int) : Prop := 1 ≤ state ∧ state ≤ modulus

/-- A negative state from which a step leads above the modulus.  It is so many quotients below zero,
and such a short distance below the last of them, that the remainders outweigh the multipliers. -/
def Overshoots (state : Int) : Prop :=
  state < 0 ∧
    ((-state - 1) % quotient + 1) * multiplier < (-state - 1) / quotient * remainder

instance : DecidablePred Overshoots := fun _ => inferInstanceAs (Decidable (_ ∧ _))

namespace Generator

theorem advance_eq (state : Int) :
    advance state = if state % quotient * multiplier - state / quotient * remainder < 1
      then state % quotient * multiplier - state / quotient * remainder + modulus
      else state % quotient * multiplier - state / quotient * remainder := rfl

/-- **A step from a state that is not negative** leads to a state as it is meant to be. -/
theorem advance_inRange {state : Int} (hpos : 0 ≤ state) (hfits : state < 0x100000000) :
    InRange (advance state) := by
  have hquotient : 0 < quotient := by decide
  -- the multiplied remainder of the state is below the modulus, and so is what is taken off from it
  have hlow : 0 ≤ state % quotient := Int.emod_nonneg state hquotient.ne'
  have hlow' : state % quotient < quotient := Int.emod_lt_of_pos state hquotient
  have hhigh : 0 ≤ state / quotient := Int.ediv_nonneg hpos hquotient.le
  have hhigh' : state / quotient < 33615 :=
    Int.ediv_lt_of_lt_mul hquotient (hfits.trans (by decide))
  rw [advance_eq]
  generalize state % quotient = low at *
  generalize state / quotient = high at *
  simp only [InRange, modulus, multiplier, quotient, remainder] at *
  omega

/-- **A step from a negative state**, `m` quotients and a distance `j` below zero.  The modulus is
never added. -/
theorem advance_below {m j : Int} (hm : 0 ≤ m) (hj : 1 ≤ j) (hj' : j ≤ quotient) :
    advance (-(m * quotient + j)) = modulus + m * remainder - j * multiplier := by
  have hdiv : -(m * quotient + j) / quotient = -(m + 1) := by
    simp only [quotient] at hj' ⊢
    omega
  have hmod : -(m * quotient + j) % quotient = quotient - j := by
    simp only [quotient] at hj' ⊢
    omega
  rw [advance_eq, hdiv, hmod]
  simp only [modulus, multiplier, quotient, remainder] at hj' ⊢
  omega

/-- **A step from a seed** leads to a state as it is meant to be unless the seed overshoots.  The
state fits into 32 bits all the same. -/
theorem advance_seed (seed : Int32) :
    1 ≤ advance seed.toInt ∧ advance seed.toInt < 0x100000000 ∧
      (advance seed.toInt ≤ modulus ↔ ¬ Overshoots seed.toInt) := by
  have hmin : -2 ^ 31 ≤ seed.toInt := seed.le_toInt
  have hmax : seed.toInt < 2 ^ 31 := seed.toInt_lt
  generalize seed.toInt = state at *
  by_cases hneg : state < 0
  · obtain ⟨m, j, hm, hj, hj', rfl, rfl, hstate⟩ : ∃ m j, 0 ≤ m ∧ 1 ≤ j ∧ j ≤ quotient ∧
        m = (-state - 1) / quotient ∧ j = (-state - 1) % quotient + 1 ∧
        state = -(m * quotient + j) := by
      simp only [quotient]
      exact ⟨_, _, by omega, by omega, by omega, rfl, rfl, by omega⟩
    have hadvance := advance_below hm hj hj'
    rw [← hstate] at hadvance
    rw [hadvance, Overshoots]
    simp only [modulus, multiplier, quotient, remainder] at *
    omega
  · obtain ⟨hone, hle⟩ := advance_inRange (Int.not_lt.mp hneg) (hmax.trans (by decide))
    exact ⟨hone, hle.trans_lt (by decide), fun _ h => hneg h.1, fun _ => hle⟩

/-! ## 2. A whole run -/

/-- The generator after so many numbers. -/
def after (n : Nat) (g : Generator) : Generator := (fun g => g.next.2)^[n] g

variable {g : Generator}

theorem after_succ (n : Nat) : g.after (n + 1) = (g.after n).next.2 :=
  Function.iterate_succ_apply' _ n g

theorem state_after_succ (n : Nat) : (g.after (n + 1)).state = advance (g.after n).state :=
  congrArg state (after_succ n)

/-- The number of a step is the state behind it less one. -/
theorem toNat_next (hpos : 1 ≤ advance g.state) (hfits : advance g.state < 0x100000000) :
    (g.next.1.toNat : Int) = advance g.state - 1 := by
  have hvalue : g.next.1 = UInt32.ofInt (advance g.state - 1) := rfl
  rw [hvalue, UInt32.ofInt, UInt32.toNat_ofNat']
  omega

/-- **From the second state on, all are as they are meant to be.** -/
theorem state_after_inRange (seed : Int32) (n : Nat) :
    InRange ((ofSeed seed).after (n + 2)).state := by
  induction n with
  | zero =>
    obtain ⟨hone, hfits, -⟩ := advance_seed seed
    exact advance_inRange (le_trans (by decide) hone) hfits
  | succ n ih =>
    obtain ⟨hone, hle⟩ := ih
    rw [state_after_succ]
    exact advance_inRange (le_trans (by decide) hone) (hle.trans_lt (by decide))

/-- **The range of a generator.**  For every seed, every state behind a step is one at least, and
the number of the step is the state less one, nothing being lost.  The state is at most the modulus,
and the number below it, except behind the first step from a seed that overshoots. -/
theorem state_range (seed : Int32) (n : Nat) :
    1 ≤ ((ofSeed seed).after (n + 1)).state ∧
    ((((ofSeed seed).after n).next.1.toNat : Int) = ((ofSeed seed).after (n + 1)).state - 1) ∧
    (((ofSeed seed).after (n + 1)).state ≤ modulus ↔ ¬ (n = 0 ∧ Overshoots seed.toInt)) ∧
    ((((ofSeed seed).after n).next.1.toNat : Int) < modulus ↔
      ¬ (n = 0 ∧ Overshoots seed.toInt)) := by
  have hstate : 1 ≤ ((ofSeed seed).after (n + 1)).state ∧
      ((ofSeed seed).after (n + 1)).state < 0x100000000 ∧
      (((ofSeed seed).after (n + 1)).state ≤ modulus ↔ ¬ (n = 0 ∧ Overshoots seed.toInt)) := by
    cases n with
    | zero =>
      have hfirst : ((ofSeed seed).after 1).state = advance seed.toInt := rfl
      rw [hfirst]
      simpa using advance_seed seed
    | succ n =>
      obtain ⟨hone, hle⟩ := state_after_inRange seed n
      exact ⟨hone, hle.trans_lt (by decide), fun _ h => absurd h.1 n.succ_ne_zero, fun _ => hle⟩
  obtain ⟨hone, hfits, hrange⟩ := hstate
  have hnumber := toNat_next (g := (ofSeed seed).after n)
    (by rwa [← state_after_succ]) (by rwa [← state_after_succ])
  rw [← state_after_succ] at hnumber
  refine ⟨hone, hnumber, hrange, ?_⟩
  rw [hnumber, ← hrange]
  omega

/-- **The first state can be out of range**, and its number with it: for the negative seed that is
closest to zero among those that overshoot, and for the one that goes furthest. -/
theorem state_exceeds_modulus :
    ((ofSeed (-766639)).after 1).state = modulus + 209 ∧
    ((ofSeed (-766639)).next.1.toNat : Int) = modulus + 208 ∧
    ((ofSeed (-2147480812)).after 1).state = modulus + 47647845 ∧
    ((ofSeed (-2147480812)).next.1.toNat : Int) = modulus + 47647844 := by
  decide

end Generator

end BlockDoc.Keystream
