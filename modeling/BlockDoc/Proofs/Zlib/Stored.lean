/-
# Stored streams are expanded to what they hold

A source of bits stands `i` bits behind the start of some bytes (`Ahead`).  At the start of a
byte, reading the bits of several bytes gives the number that they write (`bits_word`), and
reading whole bytes gives these bytes (`bytes_ahead`).  So a stored block is expanded to its
content, the stored blocks of a message are expanded one behind the other to the message
(`blocks_storedBlocks`), and the sum at the end is that of the message (`inflate_deflate`).
-/
import BlockDoc.Zlib.Inflate
import BlockDoc.Zlib.Store
import Mathlib.Algebra.Group.Nat.Defs
import Mathlib.Data.List.Basic

namespace BlockDoc.Zlib

/-! ## 1. Sources -/

namespace BitSource

/-- A source stands `i` bits behind the start of some bytes. -/
structure Ahead (s : BitSource) (i : Nat) (bs : Bytes) : Prop where
  /-- The bytes are the last of the data. -/
  exists_front : ∃ front, s.position = 8 * front.length + i ∧ s.data.data.toList = front ++ bs

variable {s : BitSource} {i n : Nat} {b : UInt8} {bs rest : Bytes}

theorem ahead_ofBytes (bs : Bytes) : (ofBytes bs).Ahead 0 bs := ⟨[], rfl, rfl⟩

/-- Behind its bits a byte is done. -/
theorem Ahead.next (h : s.Ahead 8 (b :: bs)) : s.Ahead 0 bs := by
  obtain ⟨front, hpos, hdata⟩ := h.exists_front
  exact ⟨front ++ [b], by simp; omega, by simp [hdata]⟩

/-- The rest of a byte is skipped. -/
theorem Ahead.align (h : s.Ahead i (b :: bs)) (h0 : 0 < i) (h8 : i ≤ 8) : s.align.Ahead 0 bs := by
  obtain ⟨front, hpos, hdata⟩ := h.exists_front
  refine Ahead.next (b := b) ⟨front, ?_, hdata⟩
  change (s.position + 7) / 8 * 8 = _
  omega

theorem Ahead.align_start (h : s.Ahead 0 bs) : s.align = s := by
  obtain ⟨front, hpos, -⟩ := h.exists_front
  have hround : (8 * front.length + 0 + 7) / 8 * 8 = 8 * front.length + 0 := by omega
  rw [BitSource.align, hpos, hround, ← hpos]

theorem size_eq {front : Bytes} (hdata : s.data.data.toList = front ++ bs) :
    s.data.size = front.length + bs.length := by
  rw [← List.length_append, ← hdata]
  rfl

/-- There are eight bits for each byte ahead. -/
theorem Ahead.length_le (h : s.Ahead 0 bs) : bs.length ≤ s.remaining := by
  obtain ⟨front, hpos, hdata⟩ := h.exists_front
  rw [remaining, size_eq hdata, hpos]
  omega

theorem bit_ahead (h : s.Ahead i (b :: bs)) (hi : i < 8) :
    ∃ s', s.bit = .ok (b.toNat / 2 ^ i % 2, s') ∧ s'.Ahead (i + 1) (b :: bs) := by
  obtain ⟨front, hpos, hdata⟩ := h.exists_front
  have hplace : s.position / 8 = front.length := by omega
  have hbit : s.position % 8 = i := by omega
  have hlt : s.position / 8 < s.data.size := by
    rw [hplace, size_eq hdata, List.length_cons]
    omega
  have hbyte : s.data[s.position / 8] = b := by
    rw [ByteArray.getElem_eq_getElem_data, ← Array.getElem_toList]
    simp [hdata, hplace]
  refine ⟨{ s with position := s.position + 1 }, ?_, front, ?_, hdata⟩
  · rw [bit, dif_pos hlt, hbyte, hbit, Nat.shiftRight_eq_div_pow]
  · rw [hpos, Nat.add_assoc]

/-- Several bits of a byte. -/
theorem bits_ahead (h : s.Ahead i (b :: bs)) (hi : i + n ≤ 8) :
    ∃ s', s.bits n = .ok (b.toNat / 2 ^ i % 2 ^ n, s') ∧ s'.Ahead (i + n) (b :: bs) := by
  induction n generalizing s i with
  | zero => exact ⟨s, by simp [bits, Nat.mod_one], h⟩
  | succ n ih =>
    obtain ⟨s₁, hbit, h₁⟩ := bit_ahead h (by omega)
    obtain ⟨s₂, hbits, h₂⟩ := ih h₁ (by omega)
    refine ⟨s₂, ?_, by rwa [Nat.add_comm n, ← Nat.add_assoc]⟩
    have hsplit : b.toNat / 2 ^ i % 2 + 2 * (b.toNat / 2 ^ (i + 1) % 2 ^ n) =
        b.toNat / 2 ^ i % 2 ^ (n + 1) := by
      rw [Nat.pow_succ' (n := n), Nat.mod_mul, Nat.div_div_eq_div_mul, Nat.pow_succ]
    rw [bits, hbit, ← hsplit]
    simp only [bind, Except.bind, hbits]

/-- Bits are read one part after the other. -/
theorem bits_add {m : Nat} {s s₁ s₂ : BitSource} {v w : Nat} (hm : s.bits m = .ok (v, s₁))
    (hn : s₁.bits n = .ok (w, s₂)) : s.bits (m + n) = .ok (v + 2 ^ m * w, s₂) := by
  induction m generalizing s v with
  | zero =>
    obtain ⟨rfl, rfl⟩ : 0 = v ∧ s = s₁ := by simpa [bits] using hm
    rw [Nat.zero_add, hn]
    simp
  | succ m ih =>
    obtain ⟨⟨b, t⟩, hbit, hm⟩ := bind_eq_ok.1 hm
    obtain ⟨⟨u, t'⟩, hrest, hm⟩ := bind_eq_ok.1 hm
    obtain ⟨rfl, rfl⟩ : b + 2 * u = v ∧ t' = s₁ := by simpa using hm
    rw [Nat.succ_add, bits, hbit]
    simp only [bind, Except.bind, ih hrest]
    rw [Nat.pow_succ', Nat.mul_add, Nat.mul_assoc, Nat.add_assoc]

/-- **The bits of several bytes** are the number that these bytes write. -/
theorem bits_word (h : s.Ahead 0 (bs ++ rest)) :
    ∃ s', s.bits (8 * bs.length) = .ok (Word.value bs, s') ∧ s'.Ahead 0 rest := by
  induction bs generalizing s with
  | nil => exact ⟨s, rfl, h⟩
  | cons b bs ih =>
    obtain ⟨s₁, hbyte, h₁⟩ := bits_ahead (n := 8) h (by decide)
    obtain ⟨s₂, hrest, h₂⟩ := ih h₁.next
    have hb : b.toNat / 2 ^ 0 % 2 ^ 8 = b.toNat := by
      rw [Nat.pow_zero, Nat.div_one]
      exact Nat.mod_eq_of_lt b.toNat_lt
    rw [hb] at hbyte
    refine ⟨s₂, ?_, h₂⟩
    rw [List.length_cons, Nat.mul_succ, Nat.add_comm]
    exact bits_add hbyte hrest

/-- **Whole bytes** are taken as they are. -/
theorem bytes_ahead (h : s.Ahead 0 (bs ++ rest)) :
    ∃ s', s.bytes bs.length = .ok (bs.toArray, s') ∧ s'.Ahead 0 rest := by
  obtain ⟨front, hpos, hdata⟩ := h.exists_front
  have hstart : s.align.position / 8 = front.length := by
    rw [h.align_start, hpos]
    omega
  have hsize := size_eq hdata
  rw [List.length_append] at hsize
  have hextract : (s.data.extract front.length (front.length + bs.length)).data = bs.toArray := by
    apply Array.toList_inj.mp
    rw [ByteArray.data_extract, Array.toList_extract, hdata]
    simp [List.extract_eq_take_drop]
  refine ⟨{ s with position := (front.length + bs.length) * 8 }, ?_, front ++ bs, ?_, ?_⟩
  · simp only [bytes, hstart, hextract]
    rw [if_pos (by omega)]
  · rw [List.length_append, Nat.mul_comm]
    rfl
  · rw [hdata, List.append_assoc]

end BitSource

/-! ## 2. Blocks -/

/-- **A stored block** is expanded to its content. -/
theorem blockOfType_stored {s : BitSource} {flag : UInt8} {content rest : Bytes}
    (hmax : content.length ≤ maxStored) (out : Array UInt8)
    (h : s.Ahead 3 (flag :: (Word.bytes 2 content.length ++
      Word.bytes 2 (0xFFFF - content.length) ++ content ++ rest))) :
    ∃ s', blockOfType 0 s out = .ok (out ++ content.toArray, s') ∧ s'.Ahead 0 rest := by
  rw [maxStored] at hmax
  have hstart := h.align (by decide) (by decide)
  simp only [List.append_assoc] at hstart
  obtain ⟨s₁, hsize, h₁⟩ := BitSource.bits_word hstart
  obtain ⟨s₂, hcheck, h₂⟩ := BitSource.bits_word h₁
  obtain ⟨s₃, hbytes, h₃⟩ := BitSource.bytes_ahead h₂
  simp only [Word.length_bytes, Word.value_bytes] at hsize hcheck
  have hpow : Nat.pow 256 2 = 65536 := rfl
  rw [hpow, Nat.mod_eq_of_lt (by omega)] at hsize hcheck
  refine ⟨s₃, ?_, h₃⟩
  have hsum : content.length + (0xFFFF - content.length) = 0xFFFF := by omega
  simp only [blockOfType, storedBlock, bind, Except.bind, hsize, hcheck, hsum, hbytes]
  rfl

/-- A stored block in a sequence of blocks. -/
theorem blocks_storedBytes {s : BitSource} {content rest : Bytes}
    (hmax : content.length ≤ maxStored) (last : Bool) (fuel : Nat) (out : Array UInt8)
    (h : s.Ahead 0 (storedBytes last content ++ rest)) :
    ∃ s', s'.Ahead 0 rest ∧ blocks (fuel + 1) s out =
      if last then .ok (out ++ content.toArray, s') else blocks fuel s' (out ++ content.toArray) := by
  obtain ⟨s₁, hlast, h₁⟩ := BitSource.bits_ahead (n := 1) h (by decide)
  obtain ⟨s₂, htype, h₂⟩ := BitSource.bits_ahead (n := 2) h₁ (by decide)
  obtain ⟨s₃, hblock, h₃⟩ := blockOfType_stored hmax out h₂
  refine ⟨s₃, h₃, ?_⟩
  have hlow : (if last then 1 else 0 : UInt8).toNat / 2 ^ 0 % 2 ^ 1 = if last then 1 else 0 := by
    cases last <;> rfl
  have hhigh : (if last then 1 else 0 : UInt8).toNat / 2 ^ (0 + 1) % 2 ^ 2 = 0 := by
    cases last <;> rfl
  rw [hlow] at hlast
  rw [hhigh] at htype
  simp only [blocks, bind, Except.bind, hlast, htype, hblock]
  cases last <;> rfl

/-- **The stored blocks of some bytes** are expanded to these bytes. -/
theorem blocks_storedBlocks (content rest : Bytes) {s : BitSource} {fuel : Nat} (out : Array UInt8)
    (hfuel : content.length < fuel) (h : s.Ahead 0 (storedBlocks content ++ rest)) :
    ∃ s', blocks fuel s out = .ok (out ++ content.toArray, s') ∧ s'.Ahead 0 rest := by
  induction content using storedBlocks.induct generalizing s fuel out with
  | case1 content hlast =>
    obtain ⟨fuel, rfl⟩ : ∃ n, fuel = n + 1 := ⟨fuel - 1, by omega⟩
    rw [storedBlocks, if_pos hlast] at h
    obtain ⟨s', h', heq⟩ := blocks_storedBytes hlast true fuel out h
    exact ⟨s', heq, h'⟩
  | case2 content hmore ih =>
    obtain ⟨fuel, rfl⟩ : ∃ n, fuel = n + 1 := ⟨fuel - 1, by omega⟩
    rw [storedBlocks, if_neg hmore, List.append_assoc] at h
    obtain ⟨s₁, h₁, heq⟩ := blocks_storedBytes (List.length_take_le _ _) false fuel out h
    have hless : (content.drop maxStored).length < fuel := by
      rw [maxStored] at hmore ⊢
      rw [List.length_drop]
      omega
    obtain ⟨s₂, hrest, h₂⟩ := ih (out ++ (content.take maxStored).toArray) hless h₁
    refine ⟨s₂, ?_, h₂⟩
    have hjoin : (content.take maxStored).toArray ++ (content.drop maxStored).toArray =
        content.toArray := by
      simp [List.take_append_drop]
    rw [heq, if_neg Bool.false_ne_true, hrest, Array.append_assoc, hjoin]

/-- Stored blocks are no shorter than what they hold. -/
theorem length_le_storedBlocks (content : Bytes) :
    content.length ≤ (storedBlocks content).length := by
  induction content using storedBlocks.induct with
  | case1 content hlast =>
    rw [storedBlocks, if_pos hlast]
    simp only [storedBytes, List.length_cons, List.length_append]
    omega
  | case2 content hmore ih =>
    rw [storedBlocks, if_neg hmore]
    simp only [storedBytes, List.length_cons, List.length_append, List.length_take,
      List.length_drop] at ih ⊢
    omega

/-! ## 3. Streams -/

/-- The sum fits into four bytes: both of its halves are kept below the modulus. -/
theorem adler_lt (bs : Bytes) : adler bs < Nat.pow 256 4 := by
  have hpow : Nat.pow 256 4 = 4294967296 := rfl
  unfold adler
  split
  next a b hsum =>
    have hhalves : (a, b).1 < adlerModulus ∧ (a, b).2 < adlerModulus := by
      rw [← hsum]
      exact List.foldlRecOn (motive := fun s : Nat × Nat => s.1 < adlerModulus ∧ s.2 < adlerModulus)
        bs _ (by decide) fun _ _ _ _ => ⟨Nat.mod_lt _ (by decide), Nat.mod_lt _ (by decide)⟩
    simp only [adlerModulus] at hhalves
    omega

/-- **A stored stream is expanded to what it holds**, whatever follows it. -/
theorem inflate_deflate_append (content rest : Bytes) :
    inflate (deflate content ++ rest) = .ok content := by
  have hstream : deflate content ++ rest = 0x78 :: 0x01 ::
      (storedBlocks content ++ ((Word.bytes 4 (adler content)).reverse ++ rest)) := by
    simp [deflate]
  rw [hstream]
  have hstart := BitSource.ahead_ofBytes (0x78 :: 0x01 ::
    (storedBlocks content ++ ((Word.bytes 4 (adler content)).reverse ++ rest)))
  obtain ⟨s₁, hmethod, h₁⟩ := BitSource.bits_ahead (n := 8) hstart (by decide)
  obtain ⟨s₂, hflags, h₂⟩ := BitSource.bits_ahead (n := 8) h₁.next (by decide)
  have hfuel : content.length < s₂.remaining + 1 := by
    have hlen := h₂.next.length_le
    have hblocks := length_le_storedBlocks content
    rw [List.length_append] at hlen
    omega
  obtain ⟨s₃, hblocks, h₃⟩ := blocks_storedBlocks content _ #[] hfuel h₂.next
  obtain ⟨s₄, hsum, -⟩ := BitSource.bytes_ahead h₃
  have hheader : isHeader (UInt8.toNat 0x78 / 2 ^ 0 % 2 ^ 8) (UInt8.toNat 0x01 / 2 ^ 0 % 2 ^ 8) =
      true := by decide
  rw [List.length_reverse, Word.length_bytes] at hsum
  simp only [inflate, bind, Except.bind, hmethod, hflags, hheader, hblocks, hsum]
  simp [Word.value_bytes, Nat.mod_eq_of_lt (adler_lt content)]

theorem inflate_deflate (content : Bytes) : inflate (deflate content) = .ok content := by
  rw [← List.append_nil (deflate content), inflate_deflate_append]

end BlockDoc.Zlib
