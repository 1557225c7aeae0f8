/-
# A message in chunks

A cipher that works in place changes one cell of its buffer after the other, and takes one byte of
the keystream for each (`applyCells_eq`).  So it does the same as one that makes new bytes
(`perform_eq`), and whatever operations are done in turn, they do to the chunks together what one
operation does to the whole message (`performAll_eq`): the bytes of the keystream go to the bytes of
the message in order, and a chunk without bytes takes none.

What is left after that depends on the bytes alone and not on where the chunks end.  A cipher that
starts from the same seed therefore takes the keystream off again, however the result is cut.
-/
import BlockDoc.Proofs.Keystream.Cipher
import BlockDoc.Proofs.Keystream.Range

namespace BlockDoc.Keystream.Cipher

/-! ## 1. Where the keystream comes from -/

/-- The keystream is made from the low bytes of the numbers. -/
theorem keystream_eq_take (n : Nat) (c : Cipher) :
    keystream n c = (c.generator.take n).map UInt32.toUInt8 := by
  induction n generalizing c with
  | zero => rfl
  | succ n ih =>
    have hstep : c.generator.take (n + 1) =
        c.generator.next.1 :: c.next.2.generator.take n := rfl
    rw [keystream, ih, hstep, List.map_cons]
    rfl

/-- A byte of the keystream takes one number. -/
theorem generator_skip (n : Nat) (c : Cipher) : (skip n c).generator = c.generator.after n := by
  induction n generalizing c with
  | zero => rfl
  | succ n ih =>
    rw [skip, ih]
    rfl

/-! ## 2. One operation -/

/-- **Cells are changed in place**, each by its byte of the keystream, and all others are kept. -/
theorem applyCells_eq (c : Cipher) (done bs rest : Bytes) :
    c.applyCells (done ++ bs ++ rest).toArray done.length bs.length =
      ((done ++ Bytes.xor bs (keystream bs.length c) ++ rest).toArray, skip bs.length c) := by
  induction bs generalizing c done with
  | nil => rfl
  | cons b bs ih =>
    have hcell : (done ++ b :: bs ++ rest).toArray.modify done.length (· ^^^ c.next.1) =
        (done ++ [b ^^^ c.next.1] ++ bs ++ rest).toArray := by
      simp [List.modify_eq_take_drop]
    have hstep : c.applyCells (done ++ b :: bs ++ rest).toArray done.length (b :: bs).length =
        c.next.2.applyCells
          ((done ++ b :: bs ++ rest).toArray.modify done.length (· ^^^ c.next.1))
          (done.length + 1) bs.length := rfl
    have hnext := ih c.next.2 (done ++ [b ^^^ c.next.1])
    rw [List.length_append, List.length_singleton] at hnext
    rw [hstep, hcell, hnext]
    simp [Bytes.xor, keystream, skip]

/-- **All operations add the keystream**, one byte of it to each byte. -/
theorem perform_eq (c : Cipher) (op : Operation) (bs : Bytes) :
    c.perform op bs = (Bytes.xor bs (keystream bs.length c), skip bs.length c) := by
  cases op with
  | encrypt => exact apply_eq c bs
  | decrypt => exact apply_eq c bs
  | inPlace =>
    have h := applyCells_eq c [] bs []
    simp only [List.nil_append, List.append_nil, List.length_nil] at h
    simp only [perform, applyInPlace, List.size_toArray, h]

/-! ## 3. Several operations -/

/-- The bytes of several operations, one chunk behind the other. -/
def message (calls : List (Operation × Bytes)) : Bytes := calls.flatMap Prod.snd

/-- The bytes behind several operations, one chunk behind the other. -/
def result (c : Cipher) (calls : List (Operation × Bytes)) : Bytes := (c.performAll calls).1.flatten

/-- **Operations in turn do to their chunks what one operation does to the message.** -/
theorem performAll_eq (c : Cipher) (calls : List (Operation × Bytes)) :
    c.result calls = (c.apply (message calls)).1 ∧
      (c.performAll calls).2 = (c.apply (message calls)).2 := by
  induction calls generalizing c with
  | nil => exact ⟨rfl, rfl⟩
  | cons call calls ih =>
    obtain ⟨op, bs⟩ := call
    have hmessage : message ((op, bs) :: calls) = bs ++ message calls := List.flatMap_cons
    have hop : c.perform op bs = c.apply bs := by rw [perform_eq, apply_eq]
    obtain ⟨hresult, hrest⟩ := ih (c.apply bs).2
    rw [hmessage, apply_append]
    constructor
    · rw [← hresult, ← hop]
      rfl
    · rw [← hrest, ← hop]
      rfl

/-- Every operation leaves as many bytes as it was given. -/
theorem map_length_performAll (c : Cipher) (calls : List (Operation × Bytes)) :
    (c.performAll calls).1.map List.length = calls.map fun call => call.2.length := by
  induction calls generalizing c with
  | nil => rfl
  | cons call calls ih =>
    obtain ⟨op, bs⟩ := call
    have hlen : (c.perform op bs).1.length = bs.length := by
      rw [perform_eq, Bytes.length_xor, length_keystream, Nat.min_self]
    rw [List.map_cons, ← hlen, ← ih (c.perform op bs).2]
    rfl

/-- **A message may be cut into chunks as one likes.**  Whatever a cipher is asked to do with some
chunks in turn, the results together are the message with the keystream added to it.  The keystream
is made from the low bytes of the numbers of the seed, one for each byte of the message, and as many
numbers are used up.  If a cipher with the same seed is given these results, cut in any other way
and by any operations, it gives back the message. -/
theorem result_eq (seed : Int32) (calls : List (Operation × Bytes)) :
    ((ofSeed seed).result calls = Bytes.xor (message calls)
      (((Generator.ofSeed seed).take (message calls).length).map UInt32.toUInt8)) ∧
    (((ofSeed seed).performAll calls).2.generator =
      (Generator.ofSeed seed).after (message calls).length) ∧
    (((ofSeed seed).performAll calls).1.map List.length = calls.map fun call => call.2.length) ∧
    ∀ calls', message calls' = (ofSeed seed).result calls →
      (ofSeed seed).result calls' = message calls := by
  have hgenerator : (ofSeed seed).generator = Generator.ofSeed seed := rfl
  obtain ⟨hresult, hrest⟩ := performAll_eq (ofSeed seed) calls
  refine ⟨?_, ?_, map_length_performAll _ calls, ?_⟩
  · rw [hresult, apply_eq, keystream_eq_take, hgenerator]
  · rw [hrest, apply_eq, generator_skip, hgenerator]
  · intro calls' hcut
    rw [(performAll_eq _ calls').1, hcut, hresult, apply_apply]

/-- Three chunks, one of them without bytes, and their results cut into two. -/
theorem result_eq_recut :
    (ofSeed 1).result [(.encrypt, [1, 2]), (.inPlace, []), (.decrypt, [3])] = [167, 242, 219] ∧
    message [(.inPlace, [167]), (.decrypt, [242, 219])] = [167, 242, 219] ∧
    (ofSeed 1).result [(.inPlace, [167]), (.decrypt, [242, 219])] = [1, 2, 3] := by
  have hresult : (ofSeed 1).result [(.encrypt, [1, 2]), (.inPlace, []), (.decrypt, [3])] =
      [167, 242, 219] := by decide
  have hback := (result_eq 1 [(.encrypt, [1, 2]), (.inPlace, []), (.decrypt, [3])]).2.2.2
    [(.inPlace, [167]), (.decrypt, [242, 219])] hresult.symm
  exact ⟨hresult, rfl, hback⟩

end BlockDoc.Keystream.Cipher
