/-
# Prefix codes

A prefix code is given by the length of the word of each symbol; a length of zero means that
the symbol has no word.  Words of one length are handed out in the order of the symbols, and
shorter words come first.  Reading a word therefore needs only the symbols of each length: the
words of one length are a block of numbers, and what lies behind the block belongs to longer
words.
-/
import BlockDoc.Zlib.Bits

namespace BlockDoc.Zlib

/-- The longest word of a code. -/
def maxWordLength : Nat := 15

/-- A prefix code. -/
structure PrefixCode where
  /-- The symbols with words of length 1, 2 and so on, each time in ascending order. -/
  levels : List (Array Nat)

namespace PrefixCode

/-- The code in which symbol `n` has a word of length `lengths[n]`. -/
def ofLengths (lengths : List Nat) : PrefixCode :=
  ⟨(List.range maxWordLength).map fun k =>
    (lengths.zipIdx.filterMap fun (length, symbol) =>
      if length = k + 1 then some symbol else none).toArray⟩

/-- How many symbols have a word. -/
def used (c : PrefixCode) : Nat := c.levels.foldl (fun n level => n + level.size) 0

/-- The share of all words of the longest length that begin with a word of the code, counted
in such words; the levels from words of length `length` on. -/
def coverFrom (length : Nat) : List (Array Nat) → Nat
  | [] => 0
  | level :: rest => (level.size <<< (maxWordLength - length)) + coverFrom (length + 1) rest

/-- Whether every sequence of bits begins with exactly one word. -/
def isComplete (c : PrefixCode) : Bool := coverFrom 1 c.levels == 1 <<< maxWordLength

/-- Whether a code may stand in a stream: it is complete, or has no word but a single one of one
bit at most. -/
def isUsable (c : PrefixCode) : Bool :=
  c.isComplete || (c.used ≤ 1 && c.levels.tail.all Array.isEmpty)

/-- How many sequences of bits, each one bit shorter than the words of the first level, begin
the words of some levels. -/
def branches : List (Array Nat) → Nat
  | [] => 0
  | level :: rest => (level.size + branches rest + 1) / 2

/-- Read a word and give its symbol, where `offset` is the distance of the bits read so far
from the first word of their length.  Bits that begin no word break the rules at once, however
many are left. -/
def decodeFrom (offset : Nat) (s : BitSource) :
    List (Array Nat) → Except InflateFailure (Nat × BitSource)
  | [] => .error .corrupt
  | level :: rest => do
    let (b, s) ← s.bit
    let code := 2 * offset + b
    if h : code < level.size then .ok (level[code], s)
    else if code - level.size < branches rest then decodeFrom (code - level.size) s rest
    else .error .corrupt

/-- Read a word and give its symbol. -/
def decode (c : PrefixCode) (s : BitSource) : Except InflateFailure (Nat × BitSource) :=
  decodeFrom 0 s c.levels

theorem remaining_decodeFrom {offset : Nat} {s rest : BitSource} {levels : List (Array Nat)}
    {n : Nat} (h : decodeFrom offset s levels = .ok (n, rest)) :
    rest.remaining < s.remaining := by
  induction levels generalizing offset s with
  | nil => simp [decodeFrom] at h
  | cons level levels ih =>
    obtain ⟨⟨b, mid⟩, hb, h⟩ := bind_eq_ok.1 h
    have hmid := BitSource.remaining_bit hb
    dsimp only at h
    split at h
    · obtain ⟨-, rfl⟩ : _ ∧ mid = rest := by simpa using h
      exact hmid
    · split at h
      · exact Nat.lt_trans (ih h) hmid
      · simp at h

/-- Every word has a bit. -/
theorem remaining_decode {c : PrefixCode} {s rest : BitSource} {n : Nat}
    (h : c.decode s = .ok (n, rest)) : rest.remaining < s.remaining :=
  remaining_decodeFrom h

end PrefixCode

end BlockDoc.Zlib
