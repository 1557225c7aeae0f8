/-
# What a cipher does to a message

A cipher adds to each byte of a message the byte of the keystream at the same place
(`apply_eq`), and takes as many bytes from the keystream as the message has.  So a cipher that
starts from the same seed takes the keystream off again (`apply_apply`), different messages of
one length stay different (`apply_ne`), and a message may be taken in pieces (`apply_append`).
-/
import BlockDoc.Keystream

namespace BlockDoc

/-! ## 1. Adding bytes -/

namespace Bytes

/-- Add bytes place by place, as far as both reach. -/
def xor (as bs : Bytes) : Bytes := List.zipWith (· ^^^ ·) as bs

variable {as bs : Bytes}

@[simp] theorem length_xor (as bs : Bytes) : (xor as bs).length = min as.length bs.length :=
  List.length_zipWith

/-- **What was added is taken off** by adding it again. -/
theorem xor_xor (h : as.length ≤ bs.length) : xor (xor as bs) bs = as := by
  induction as generalizing bs with
  | nil => rfl
  | cons a as ih =>
    cases bs with
    | nil => simp at h
    | cons b bs =>
      have hrest : xor (xor as bs) bs = as := ih (by simpa using h)
      simp only [xor, List.zipWith_cons_cons, List.cons.injEq] at hrest ⊢
      exact ⟨by rw [UInt8.xor_assoc, UInt8.xor_self, UInt8.xor_zero], hrest⟩

/-- Adding something else than zeros changes the bytes. -/
theorem xor_ne (hlen : bs.length = as.length) (h : ∃ b ∈ bs, b ≠ 0) : xor as bs ≠ as := by
  induction as generalizing bs with
  | nil =>
    obtain ⟨b, hb, -⟩ := h
    rw [List.length_eq_zero_iff.mp hlen] at hb
    exact absurd hb List.not_mem_nil
  | cons a as ih =>
    cases bs with
    | nil => simp at hlen
    | cons b bs =>
      intro heq
      simp only [xor, List.zipWith_cons_cons, List.cons.injEq] at heq
      have hzero : b = 0 := by
        rw [← UInt8.zero_xor (a := b), ← UInt8.xor_self (a := a), UInt8.xor_assoc, heq.1]
      obtain ⟨c, hc, hne⟩ := h
      rcases List.mem_cons.mp hc with rfl | hc
      · exact hne hzero
      · exact ih (by simpa using hlen) ⟨c, hc, hne⟩ heq.2

end Bytes

/-! ## 2. The keystream -/

namespace Keystream.Cipher

/-- The next `n` bytes of the keystream. -/
def keystream : Nat → Cipher → Bytes
  | 0, _ => []
  | n + 1, c => c.next.1 :: keystream n c.next.2

/-- The cipher after `n` bytes of the keystream. -/
def skip : Nat → Cipher → Cipher
  | 0, c => c
  | n + 1, c => skip n c.next.2

@[simp] theorem length_keystream (n : Nat) (c : Cipher) : (keystream n c).length = n := by
  induction n generalizing c with
  | zero => rfl
  | succ n ih => rw [keystream, List.length_cons, ih]

theorem applyBehind_eq (c : Cipher) (done : Array UInt8) (bs : Bytes) :
    c.applyBehind done bs =
      (done ++ (Bytes.xor bs (keystream bs.length c)).toArray, skip bs.length c) := by
  induction bs generalizing c done with
  | nil => simp [applyBehind, Bytes.xor, skip]
  | cons b bs ih =>
    have hstep : c.applyBehind done (b :: bs) =
        c.next.2.applyBehind (done.push (b ^^^ c.next.1)) bs := rfl
    rw [hstep, ih]
    simp [Bytes.xor, keystream, skip]

/-- **A cipher adds the keystream**, one byte of it to each byte of the message. -/
theorem apply_eq (c : Cipher) (bs : Bytes) :
    c.apply bs = (Bytes.xor bs (keystream bs.length c), skip bs.length c) := by
  simp [apply, applyBehind_eq]

@[simp] theorem length_apply (c : Cipher) (bs : Bytes) : (c.apply bs).1.length = bs.length := by
  simp [apply_eq]

/-- **Enciphering twice gives back the message.** -/
@[simp] theorem apply_apply (c : Cipher) (bs : Bytes) : (c.apply (c.apply bs).1).1 = bs := by
  rw [apply_eq c (c.apply bs).1, length_apply, apply_eq]
  exact Bytes.xor_xor (by simp)

/-- Different messages stay different. -/
theorem apply_ne {c : Cipher} {as bs : Bytes} (h : as ≠ bs) : (c.apply as).1 ≠ (c.apply bs).1 := by
  intro heq
  have hback := congrArg (fun cs => (c.apply cs).1) heq
  rw [apply_apply, apply_apply] at hback
  exact h hback

/-- **A message may be taken in pieces**: the cipher goes on where it stopped. -/
theorem apply_append (c : Cipher) (as bs : Bytes) :
    c.apply (as ++ bs) =
      ((c.apply as).1 ++ ((c.apply as).2.apply bs).1, ((c.apply as).2.apply bs).2) := by
  induction as generalizing c with
  | nil => simp [apply_eq, Bytes.xor, keystream, skip]
  | cons a as ih =>
    have hrest := ih c.next.2
    simp only [apply_eq, Bytes.xor] at hrest ⊢
    simp only [List.cons_append, List.length_cons, keystream, skip, List.zipWith_cons_cons,
      Prod.mk.injEq, List.cons.injEq, true_and] at hrest ⊢
    exact hrest

/-- What is left of the keystream depends only on how much of it was used. -/
theorem apply_snd_congr {c : Cipher} {as bs : Bytes} (h : as.length = bs.length) :
    (c.apply as).2 = (c.apply bs).2 := by
  rw [apply_eq, apply_eq, h]

end Keystream.Cipher

end BlockDoc
