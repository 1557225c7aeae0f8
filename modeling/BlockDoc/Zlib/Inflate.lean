/-
# Expanding a compressed stream

A stream is a header of two bytes, a sequence of blocks, and the sum of Adler of what the
blocks expand to.  A block is stored as it is, or coded with two prefix codes: one for literal
bytes and the lengths of repetitions, one for how far back a repetition reaches.  The codes are
fixed, or described in front of the block in a code of their own.  A repetition may reach back
beyond the first byte: what is expanded counts as preceded by zeros.

There are two ways to fail.  A stream that ends too early is incomplete; one that breaks a rule
is corrupt.  What counts is which comes first.
-/
import BlockDoc.Checksum
import BlockDoc.Zlib.PrefixCode

namespace BlockDoc.Zlib

/-! ## 1. Codes -/

/-- The shortest repetition of each length symbol, from symbol 257 on, and how many bits are
added to it. -/
def lengthTable : Array (Nat × Nat) := #[
  (3, 0), (4, 0), (5, 0), (6, 0), (7, 0), (8, 0), (9, 0), (10, 0), (11, 1), (13, 1), (15, 1),
  (17, 1), (19, 2), (23, 2), (27, 2), (31, 2), (35, 3), (43, 3), (51, 3), (59, 3), (67, 4),
  (83, 4), (99, 4), (115, 4), (131, 5), (163, 5), (195, 5), (227, 5), (258, 0)]

/-- The shortest distance of each distance symbol, and how many bits are added to it. -/
def distanceTable : Array (Nat × Nat) := #[
  (1, 0), (2, 0), (3, 0), (4, 0), (5, 1), (7, 1), (9, 2), (13, 2), (17, 3), (25, 3), (33, 4),
  (49, 4), (65, 5), (97, 5), (129, 6), (193, 6), (257, 7), (385, 7), (513, 8), (769, 8),
  (1025, 9), (1537, 9), (2049, 10), (3073, 10), (4097, 11), (6145, 11), (8193, 12), (12289, 12),
  (16385, 13), (24577, 13)]

/-- The codes of a block. -/
structure BlockCodes where
  /-- Literal bytes, the end of the block (256), and the lengths of repetitions. -/
  literals : PrefixCode
  /-- The distances of repetitions. -/
  distances : PrefixCode

/-- The codes of a block that describes none. -/
def fixedCodes : BlockCodes where
  literals := .ofLengths
    (List.replicate 144 8 ++ List.replicate 112 9 ++ List.replicate 24 7 ++ List.replicate 8 8)
  distances := .ofLengths (List.replicate 32 5)

/-- The symbols of the code for word lengths, in the order in which their own lengths come. -/
def lengthSymbolOrder : List Nat :=
  [16, 17, 18, 0, 8, 7, 9, 6, 10, 5, 11, 4, 12, 3, 13, 2, 14, 1, 15]

/-- Take `n` numbers of three bits. -/
def takeTriples : Nat → BitSource → Except InflateFailure (List Nat × BitSource)
  | 0, s => .ok ([], s)
  | n + 1, s => do
    let (v, s) ← s.bits 3
    let (vs, s) ← takeTriples n s
    .ok (v :: vs, s)

/-- The lengths of the symbols of the code for word lengths. -/
def lengthSymbolLengths (given : List Nat) : List Nat :=
  (List.range 19).map fun symbol =>
    ((lengthSymbolOrder.zip given).find? fun p => p.1 == symbol).elim 0 Prod.snd

/-- What a symbol of the code for word lengths stands for: some lengths to be added behind
those that are known, the latest of which is `last?`. -/
def expandLengthSymbol (last? : Option Nat) (symbol : Nat) (s : BitSource) :
    Except InflateFailure (List Nat × BitSource) :=
  if symbol < 16 then .ok ([symbol], s)
  else if symbol = 16 then
    match last? with
    | none => .error .corrupt
    | some last => do
      let (n, s) ← s.bits 2
      .ok (List.replicate (n + 3) last, s)
  else if symbol = 17 then do
    let (n, s) ← s.bits 3
    .ok (List.replicate (n + 3) 0, s)
  else do
    let (n, s) ← s.bits 7
    .ok (List.replicate (n + 11) 0, s)

theorem remaining_expandLengthSymbol {last? : Option Nat} {symbol : Nat} {s rest : BitSource}
    {vs : List Nat} (h : expandLengthSymbol last? symbol s = .ok (vs, rest)) :
    rest.remaining ≤ s.remaining := by
  unfold expandLengthSymbol at h
  split at h
  · obtain ⟨-, rfl⟩ : [symbol] = vs ∧ s = rest := by simpa using h
    exact Nat.le_refl _
  · split at h
    · split at h
      · simp at h
      · obtain ⟨⟨n, last⟩, hb, h⟩ := bind_eq_ok.1 h
        obtain ⟨-, rfl⟩ : _ ∧ last = rest := by simpa using h
        exact BitSource.remaining_bits hb
    · split at h
      · obtain ⟨⟨n, last⟩, hb, h⟩ := bind_eq_ok.1 h
        obtain ⟨-, rfl⟩ : _ ∧ last = rest := by simpa using h
        exact BitSource.remaining_bits hb
      · obtain ⟨⟨n, last⟩, hb, h⟩ := bind_eq_ok.1 h
        obtain ⟨-, rfl⟩ : _ ∧ last = rest := by simpa using h
        exact BitSource.remaining_bits hb

/-- Read word lengths until there are `total` of them; a repetition must not go beyond. -/
def takeLengths (code : PrefixCode) (total : Nat) (known : Array Nat) (s : BitSource) :
    Except InflateFailure (List Nat × BitSource) :=
  if known.size ≥ total then
    if known.size = total then .ok (known.toList, s) else .error .corrupt
  else
    match _h : code.decode s with
    | .error e => .error e
    | .ok (symbol, s') =>
      match _h' : expandLengthSymbol known.back? symbol s' with
      | .error e => .error e
      | .ok (vs, s'') => takeLengths code total (known.appendList vs) s''
termination_by s.remaining
decreasing_by
  have h1 := PrefixCode.remaining_decode _h
  have h2 := remaining_expandLengthSymbol _h'
  omega

/-- Read the codes that a block describes. -/
def takeCodes (s : BitSource) : Except InflateFailure (BlockCodes × BitSource) := do
  let (literalCount, s) ← s.bits 5
  let (distanceCount, s) ← s.bits 5
  let (symbolCount, s) ← s.bits 4
  let literalCount := literalCount + 257
  let distanceCount := distanceCount + 1
  if literalCount > 286 || distanceCount > 30 then .error .corrupt
  else
    let (given, s) ← takeTriples (symbolCount + 4) s
    let code := PrefixCode.ofLengths (lengthSymbolLengths given)
    if !code.isComplete then .error .corrupt
    else
      let (lengths, s) ← takeLengths code (literalCount + distanceCount) #[] s
      let literals := PrefixCode.ofLengths (lengths.take literalCount)
      let distances := PrefixCode.ofLengths (lengths.drop literalCount)
      if literals.isUsable && distances.isUsable then .ok (⟨literals, distances⟩, s)
      else .error .corrupt

/-! ## 2. Blocks -/

/-- The byte that stands `distance` bytes before the end.  The output counts as preceded by
zeros, so every distance leads to a byte. -/
def byteBack (distance : Nat) (out : Array UInt8) : UInt8 :=
  if distance ≤ out.size then out.getD (out.size - distance) 0 else 0

/-- Repeat `length` bytes from `distance` bytes back; the bytes may overlap their copy. -/
def copyBack (distance : Nat) : Nat → Array UInt8 → Array UInt8
  | 0, out => out
  | length + 1, out => copyBack distance length (out.push (byteBack distance out))

/-- Read the distance of a repetition. -/
def takeDistance (codes : BlockCodes) (s : BitSource) :
    Except InflateFailure (Nat × BitSource) := do
  let (symbol, s) ← codes.distances.decode s
  match distanceTable[symbol]? with
  | none => .error .corrupt
  | some (base, extra) => do
    let (more, s) ← s.bits extra
    .ok (base + more, s)

/-- What a symbol of a coded block says. -/
inductive Instruction where
  /-- A byte. -/
  | literal (b : UInt8)
  /-- The end of the block. -/
  | stop
  /-- A repetition. -/
  | copy (length distance : Nat)
  deriving DecidableEq

/-- Read an instruction of a coded block. -/
def takeInstruction (codes : BlockCodes) (s : BitSource) :
    Except InflateFailure (Instruction × BitSource) := do
  let (symbol, s) ← codes.literals.decode s
  if symbol < 256 then .ok (.literal (UInt8.ofNat symbol), s)
  else if symbol = 256 then .ok (.stop, s)
  else match lengthTable[symbol - 257]? with
    | none => .error .corrupt
    | some (base, extra) => do
      let (more, s) ← s.bits extra
      let (distance, s) ← takeDistance codes s
      .ok (.copy (base + more) distance, s)

theorem remaining_takeDistance {codes : BlockCodes} {s rest : BitSource} {n : Nat}
    (h : takeDistance codes s = .ok (n, rest)) : rest.remaining ≤ s.remaining := by
  obtain ⟨⟨symbol, mid⟩, hd, h⟩ := bind_eq_ok.1 h
  have hmid := PrefixCode.remaining_decode hd
  dsimp only at h
  split at h
  · simp at h
  · obtain ⟨⟨more, last⟩, hb, h⟩ := bind_eq_ok.1 h
    obtain ⟨-, rfl⟩ : _ ∧ last = rest := by simpa using h
    have := BitSource.remaining_bits hb
    omega

/-- Every instruction has a bit. -/
theorem remaining_takeInstruction {codes : BlockCodes} {s rest : BitSource} {i : Instruction}
    (h : takeInstruction codes s = .ok (i, rest)) : rest.remaining < s.remaining := by
  obtain ⟨⟨symbol, mid⟩, hd, h⟩ := bind_eq_ok.1 h
  have hmid := PrefixCode.remaining_decode hd
  dsimp only at h
  split at h
  · obtain ⟨-, rfl⟩ : _ ∧ mid = rest := by simpa using h
    exact hmid
  · split at h
    · obtain ⟨-, rfl⟩ : _ ∧ mid = rest := by simpa using h
      exact hmid
    · split at h
      · simp at h
      · obtain ⟨⟨more, s1⟩, hb, h⟩ := bind_eq_ok.1 h
        obtain ⟨⟨distance, s2⟩, ht, h⟩ := bind_eq_ok.1 h
        obtain ⟨-, rfl⟩ : _ ∧ s2 = rest := by simpa using h
        have h1 : s1.remaining ≤ mid.remaining := BitSource.remaining_bits hb
        have h2 : s2.remaining ≤ s1.remaining := remaining_takeDistance ht
        omega

/-- Expand a coded block behind what was expanded before. -/
def codedBlock (codes : BlockCodes) (s : BitSource) (out : Array UInt8) :
    Except InflateFailure (Array UInt8 × BitSource) :=
  match _h : takeInstruction codes s with
  | .error e => .error e
  | .ok (.literal b, s') => codedBlock codes s' (out.push b)
  | .ok (.stop, s') => .ok (out, s')
  | .ok (.copy length distance, s') => codedBlock codes s' (copyBack distance length out)
termination_by s.remaining
decreasing_by
  · exact remaining_takeInstruction _h
  · exact remaining_takeInstruction _h

/-- Expand a stored block behind what was expanded before. -/
def storedBlock (s : BitSource) (out : Array UInt8) :
    Except InflateFailure (Array UInt8 × BitSource) := do
  let (size, s) ← s.align.bits 16
  let (check, s) ← s.bits 16
  if size + check ≠ 0xFFFF then .error .corrupt
  else
    let (bytes, s) ← s.bytes size
    .ok (out ++ bytes, s)

/-- Expand a block of the given type. -/
def blockOfType (type : Nat) (s : BitSource) (out : Array UInt8) :
    Except InflateFailure (Array UInt8 × BitSource) :=
  match type with
  | 0 => storedBlock s out
  | 1 => codedBlock fixedCodes s out
  | 2 => do
    let (codes, s) ← takeCodes s
    codedBlock codes s out
  | _ => .error .corrupt

/-- Expand blocks up to the last.  There are no more blocks than bits, so `fuel` may be the
number of bits that are left. -/
def blocks : Nat → BitSource → Array UInt8 → Except InflateFailure (Array UInt8 × BitSource)
  | 0, _, _ => .error .incomplete
  | fuel + 1, s, out => do
    let (last, s) ← s.bits 1
    let (type, s) ← s.bits 2
    let (out, s) ← blockOfType type s out
    if last = 1 then .ok (out, s) else blocks fuel s out

/-! ## 3. Streams -/

/-- Whether two bytes are the header of a stream: its method is known, its window is no larger
than 32768 bytes, it needs no dictionary, and it is divisible by 31. -/
def isHeader (method flags : Nat) : Bool :=
  method % 16 == 8 && method / 16 ≤ 7 && flags / 32 % 2 == 0 && (method * 256 + flags) % 31 == 0

/-- Expand a stream.  What follows it is ignored. -/
def inflate (bytes : Bytes) : Except InflateFailure Bytes := do
  let s := BitSource.ofBytes bytes
  let (method, s) ← s.bits 8
  let (flags, s) ← s.bits 8
  if !isHeader method flags then .error .corrupt
  else
    let (out, s) ← blocks (s.remaining + 1) s #[]
    let (sum, _) ← s.bytes 4
    if Word.value sum.toList.reverse = adler out.toList then .ok out.toList
    else .error .corrupt

end BlockDoc.Zlib
