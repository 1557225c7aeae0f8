/-
# What a generator computes

A step multiplies the state modulo the modulus, although it never forms the product.  The modulus
is the multiplier times the quotient, and the remainder; so what the step forms is the product less
one modulus for every quotient in the state (`advance_modEq`).  No bounds are needed for this:
negative states, and states above the modulus that come from them, are multiplied like all others.
So the state after `n` steps is the seed times the `n`-th power of the multiplier
(`state_modEq`).

Bounds are needed for the results on the way, which are words of 64 bits with a sign.  `next?` is a
step that checks every one of them, and the number at the end as well.  A state is never below the
least seed and always fits into 32 bits, so no check fails (`next?_eq`).
-/
import BlockDoc.Proofs.Keystream.Range
import Mathlib.Data.Int.ModEq
import Mathlib.Tactic.Ring

namespace BlockDoc.Keystream

/-! ## 1. Words -/

/-- The numbers that a word of 64 bits with a sign can hold. -/
def IsWord (x : Int) : Prop := -0x8000000000000000 ≤ x ∧ x < 0x8000000000000000

instance : DecidablePred IsWord := fun _ => inferInstanceAs (Decidable (_ ∧ _))

/-- A result, if a word can hold it. -/
def word? (x : Int) : Option Int := if IsWord x then some x else none

variable {x : Int}

theorem word?_eq (h : IsWord x) : word? x = some x := if_pos h

theorem word?_bind (h : IsWord x) {α : Type} (f : Int → Option α) :
    (word? x).bind f = f x := by
  rw [word?_eq h, Option.bind_some]

namespace Generator

/-! ## 2. Steps with checked results -/

/-- The state after a step, if a word can hold every result on the way. -/
def advance? (state : Int) : Option Int := do
  let high ← word? (state / quotient)
  let low ← word? (state % quotient)
  let product ← word? (low * multiplier)
  let excess ← word? (high * remainder)
  let next ← word? (product - excess)
  if next < 1 then word? (next + modulus) else some next

/-- The next number, if a word can hold every result on the way, and 32 bits without a sign the
number. -/
def next? (g : Generator) : Option (UInt32 × Generator) := do
  let state ← advance? g.state
  let number ← word? (state - 1)
  if 0 ≤ number ∧ number < 0x100000000 then some (UInt32.ofInt number, ⟨state⟩) else none

/-- **No result of a step is too large** for a word. -/
theorem advance?_eq {state : Int} (hlow : -0x80000000 ≤ state) (hhigh : state < 0x100000000) :
    advance? state = some (advance state) := by
  have hquotient : 0 < quotient := by decide
  -- the two parts of the state have bounds of their own, and all else is made from them
  have hrest : 0 ≤ state % quotient := Int.emod_nonneg state hquotient.ne'
  have hrest' : state % quotient < quotient := Int.emod_lt_of_pos state hquotient
  have hpart : -16808 ≤ state / quotient :=
    Int.le_ediv_of_mul_le hquotient (le_trans (by decide) hlow)
  have hpart' : state / quotient < 33615 :=
    Int.ediv_lt_of_lt_mul hquotient (hhigh.trans (by decide))
  rw [advance_eq]
  simp only [advance?, Option.bind_eq_bind]
  generalize state % quotient = low at *
  generalize state / quotient = high at *
  have hword : IsWord high ∧ IsWord low ∧ IsWord (low * multiplier) ∧ IsWord (high * remainder) ∧
      IsWord (low * multiplier - high * remainder) ∧
      IsWord (low * multiplier - high * remainder + modulus) := by
    simp only [IsWord, modulus, multiplier, quotient, remainder] at *
    omega
  obtain ⟨h₁, h₂, h₃, h₄, h₅, h₆⟩ := hword
  rw [word?_bind h₁, word?_bind h₂, word?_bind h₃, word?_bind h₄, word?_bind h₅, word?_eq h₆]
  split <;> rfl

/-- No result of a step is lost, and the number is not cut to fit. -/
theorem next?_eq {g : Generator} (hlow : -0x80000000 ≤ g.state) (hhigh : g.state < 0x100000000)
    (hpos : 1 ≤ advance g.state) (hfits : advance g.state < 0x100000000) :
    g.next? = some g.next := by
  have hword : IsWord (advance g.state - 1) := by
    unfold IsWord
    omega
  simp only [next?, Option.bind_eq_bind]
  rw [advance?_eq hlow hhigh, Option.bind_some, word?_bind hword, if_pos (by omega)]
  rfl

/-! ## 3. Residues -/

/-- **A step multiplies the state**, whatever the state is. -/
theorem advance_modEq (state : Int) : advance state ≡ multiplier * state [ZMOD modulus] := by
  have hparts : state = quotient * (state / quotient) + state % quotient :=
    (Int.mul_ediv_add_emod state quotient).symm
  rw [advance_eq]
  generalize state / quotient = high at *
  generalize state % quotient = low at *
  have hstep : low * multiplier - high * remainder ≡ multiplier * state [ZMOD modulus] := by
    refine Int.modEq_iff_dvd.mpr ⟨high, ?_⟩
    rw [hparts, modulus_eq]
    ring
  split
  · exact (Int.add_modEq_right).trans hstep
  · exact hstep

/-- **A state is the seed times a power of the multiplier.** -/
theorem state_modEq (seed : Int32) (n : Nat) :
    ((ofSeed seed).after n).state ≡ multiplier ^ n * seed.toInt [ZMOD modulus] := by
  induction n with
  | zero =>
    rw [pow_zero, one_mul]
    rfl
  | succ n ih =>
    rw [state_after_succ]
    calc advance ((ofSeed seed).after n).state
        ≡ multiplier * ((ofSeed seed).after n).state [ZMOD modulus] := advance_modEq _
      _ ≡ multiplier * (multiplier ^ n * seed.toInt) [ZMOD modulus] := ih.mul_left _
      _ = multiplier ^ (n + 1) * seed.toInt := by ring

/-! ## 4. A whole run -/

/-- The number behind `n` others. -/
def number (n : Nat) (g : Generator) : UInt32 := (g.after n).next.1

/-- The first numbers, one by one. -/
theorem take_eq (n : Nat) (g : Generator) :
    take n g = (List.range n).map fun i => number i g := by
  induction n generalizing g with
  | zero => rfl
  | succ n ih =>
    have hstep : take (n + 1) g = g.next.1 :: take n g.next.2 := rfl
    rw [hstep, ih, List.range_succ_eq_map, List.map_cons, List.map_map]
    rfl

/-- **The states of a run** are no less than the least seed and fit into 32 bits; those behind a
step are one at least. -/
theorem state_bounds (seed : Int32) (n : Nat) :
    -0x80000000 ≤ ((ofSeed seed).after n).state ∧
    ((ofSeed seed).after n).state < 0x100000000 ∧
    (1 ≤ n → 1 ≤ ((ofSeed seed).after n).state) := by
  match n with
  | 0 =>
    have hmin : -2 ^ 31 ≤ seed.toInt := seed.le_toInt
    have hmax : seed.toInt < 2 ^ 31 := seed.toInt_lt
    exact ⟨hmin, hmax.trans (by decide), fun h => absurd h (by decide)⟩
  | 1 =>
    obtain ⟨hone, hfits, -⟩ := advance_seed seed
    exact ⟨le_trans (by decide) hone, hfits, fun _ => hone⟩
  | n + 2 =>
    obtain ⟨hone, hle⟩ := state_after_inRange seed n
    exact ⟨le_trans (by decide) hone, hle.trans_lt (by decide), fun _ => hone⟩

/-- The number of a step and the state behind it. -/
theorem toNat_number (seed : Int32) (n : Nat) :
    (((ofSeed seed).number n).toNat : Int) + 1 = ((ofSeed seed).after (n + 1)).state := by
  obtain ⟨-, hfits, hone⟩ := state_bounds seed (n + 1)
  rw [state_after_succ] at hfits hone ⊢
  rw [number, toNat_next (hone n.succ_pos) hfits, Int.sub_add_cancel]

/-- **A generator multiplies its seed.**  For every seed and every `n`, the number behind `n` others
is one less than the seed times a power of the multiplier, modulo the modulus.  No result on the way
to it is too large for a word, and the number is the state behind it less one, nothing being
lost. -/
theorem number_modEq (seed : Int32) (n : Nat) :
    (take (n + 1) (ofSeed seed))[n]? = some ((ofSeed seed).number n) ∧
    ((((ofSeed seed).number n).toNat : Int) + 1 ≡
        multiplier ^ (n + 1) * seed.toInt [ZMOD modulus]) ∧
    ((ofSeed seed).after n).next? =
      some ((ofSeed seed).number n, (ofSeed seed).after (n + 1)) ∧
    (((ofSeed seed).number n).toNat : Int) = ((ofSeed seed).after (n + 1)).state - 1 := by
  have hnumber := toNat_number seed n
  obtain ⟨hlow, hhigh, -⟩ := state_bounds seed n
  obtain ⟨-, hfits, hone⟩ := state_bounds seed (n + 1)
  rw [state_after_succ] at hfits hone
  refine ⟨?_, ?_, ?_, ?_⟩
  · rw [take_eq, List.getElem?_map, List.getElem?_range n.lt_succ_self, Option.map_some]
  · rw [hnumber]
    exact state_modEq seed (n + 1)
  · rw [next?_eq hlow hhigh (hone n.succ_pos) hfits, after_succ]
    rfl
  · rw [← hnumber, Int.add_sub_cancel]

end Generator

end BlockDoc.Keystream
