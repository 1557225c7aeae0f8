/-
# Decoding documents

    document := flag, count (4 bytes), entry × count
    entry    := [group index (4 bytes), group count (4 bytes)]
                kind, name, text | document

The two group words stand in front of an entry only in the grouped layout, and there only if
the document around it is sorted.  They repeat what the names say and are skipped.

The reader keeps the documents that are still open on a stack, so deep nesting costs memory and
nothing else.  A name is read before the kind in front of it is judged, and the depth of a
block before its header is read.
-/
import BlockDoc.Document.Basic
import BlockDoc.Binary.Input

namespace BlockDoc

namespace Binary

/-- Which words stand in front of an entry. -/
inductive Layout where
  /-- None. -/
  | plain
  /-- In a sorted document, the place of the entry in its run of equal names. -/
  | grouped
  deriving DecidableEq

/-- Whether the entries of a document with this flag carry their places. -/
def Layout.hasPlaces (layout : Layout) (sorted : Bool) : Bool :=
  match layout with
  | .plain => false
  | .grouped => sorted

/-- What the reader takes in one step inside a document. -/
inductive Piece where
  /-- A parameter. -/
  | param (name text : String)
  /-- A block up to and including its header. -/
  | block (name : String) (sorted : Bool) (count : Nat)
  deriving DecidableEq

namespace Input

/-- Read the flag and the entry count of a document. -/
def header (region : Region) (inp : Input) : Except Error ((Bool × Nat) × Input) := do
  let (sorted, rest) ← inp.flag region
  let (count, rest) ← rest.word 4 region
  .ok ((sorted, count), rest)

/-- Skip the group words of an entry. -/
def place (layout : Layout) (sorted : Bool) (inp : Input) : Except Error Input :=
  if layout.hasPlaces sorted then do
    let (_, rest) ← inp.word 4 .groupHeader
    let (_, rest) ← rest.word 4 .groupHeader
    .ok rest
  else .ok inp

/-- Read an entry of a document at level `level`, a block only up to its first entry. -/
def piece (layout : Layout) (limit level : Nat) (sorted : Bool) (inp : Input) :
    Except Error (Piece × Input) := do
  let inp ← inp.place layout sorted
  let (kind, inp) ← inp.word 1 .entryKind
  let (name, inp) ← inp.wideString
  match Kind.ofByte? (UInt8.ofNat kind) with
  | some .param => do
    let (text, inp) ← inp.wideString
    .ok (.param name text, inp)
  | some .block =>
    if level ≥ limit then .error (.nestingTooDeep limit)
    else do
      let ((sorted, count), inp) ← inp.header .blockHeader
      .ok (.block name sorted count, inp)
  | _ => .error (.invalidKind (UInt8.ofNat kind))

theorem length_of_header {region : Region} {inp rest : Input} {r : Bool × Nat}
    (h : inp.header region = .ok (r, rest)) : rest.bytes.length + 5 = inp.bytes.length := by
  obtain ⟨⟨sorted, mid⟩, hf, h⟩ := bind_eq_ok.1 h
  obtain ⟨⟨count, last⟩, hw, h⟩ := bind_eq_ok.1 h
  obtain ⟨-, rfl⟩ : (sorted, count) = r ∧ last = rest := by simpa using h
  have := length_of_flag hf
  have := length_of_word hw
  omega

theorem length_of_place {layout : Layout} {sorted : Bool} {inp rest : Input}
    (h : inp.place layout sorted = .ok rest) : rest.bytes.length ≤ inp.bytes.length := by
  unfold place at h
  split at h
  · obtain ⟨⟨index, mid⟩, h1, h⟩ := bind_eq_ok.1 h
    obtain ⟨⟨count, last⟩, h2, h⟩ := bind_eq_ok.1 h
    obtain rfl : last = rest := by simpa using h
    have := length_of_word h1
    have := length_of_word h2
    omega
  · obtain rfl : inp = rest := by simpa using h
    exact Nat.le_refl _

/-- Every entry takes bytes. -/
theorem length_of_piece {layout : Layout} {limit level : Nat} {sorted : Bool} {inp rest : Input}
    {p : Piece} (h : inp.piece layout limit level sorted = .ok (p, rest)) :
    rest.bytes.length < inp.bytes.length := by
  obtain ⟨i1, hplace, h⟩ := bind_eq_ok.1 h
  obtain ⟨⟨kind, i2⟩, hkind, h⟩ := bind_eq_ok.1 h
  obtain ⟨⟨name, i3⟩, hname, h⟩ := bind_eq_ok.1 h
  have := length_of_place hplace
  have := length_of_word hkind
  have := length_of_wideString hname
  dsimp only at h
  split at h
  · obtain ⟨⟨text, i4⟩, htext, h⟩ := bind_eq_ok.1 h
    have := length_of_wideString htext
    obtain ⟨-, rfl⟩ : .param name text = p ∧ i4 = rest := by simpa using h
    omega
  · split at h
    · simp at h
    · obtain ⟨⟨⟨flag, count⟩, i4⟩, hheader, h⟩ := bind_eq_ok.1 h
      have := length_of_header hheader
      obtain ⟨-, rfl⟩ : .block name flag count = p ∧ i4 = rest := by simpa using h
      omega
  · simp at h

end Input

/-- A document that is still open while its entries are read. -/
structure Frame where
  /-- What was read so far. -/
  document : Document
  /-- How many entries are missing. -/
  missing : Nat
  /-- The name under which the document goes into the one around it. -/
  name : String
  /-- How many documents are around it. -/
  depth : Nat

/-- Read on inside `top`, with the documents around it on the stack. -/
def readFrames (layout : Layout) (limit : Nat) (top : Frame) (stack : List Frame) (inp : Input) :
    Except Error (Document × Input) :=
  match top.missing with
  | 0 => match stack with
    | [] => .ok (top.document, inp)
    | parent :: outer =>
      let closed := parent.document.set top.name (.block top.document)
      readFrames layout limit { parent with document := closed, missing := parent.missing - 1 }
        outer inp
  | left + 1 =>
    match _h : inp.piece layout limit (top.depth + 1) top.document.sorted with
    | .error e => .error e
    | .ok (.param name text, rest) =>
      readFrames layout limit
        { top with document := top.document.set name (.param text), missing := left } stack rest
    | .ok (.block name sorted count, rest) =>
      readFrames layout limit ⟨.empty sorted, count, name, top.depth + 1⟩ (top :: stack) rest
termination_by (inp.bytes.length, stack.length)
decreasing_by
  · exact Prod.Lex.right _ (Nat.lt_succ_self _)
  · exact Prod.Lex.left _ _ (Input.length_of_piece _h)
  · exact Prod.Lex.left _ _ (Input.length_of_piece _h)

/-- Read one document at the front of an input, with blocks nested below `limit`. -/
def readDocument (layout : Layout) (limit : Nat) (inp : Input) :
    Except Error (Document × Input) := do
  let ((sorted, count), rest) ← inp.header .documentHeader
  readFrames layout limit ⟨.empty sorted, count, "", 0⟩ [] rest

/-- Decode the document at the front of some bytes.  What follows it is ignored. -/
def parse (layout : Layout) (bytes : Bytes) : Except Error Document := do
  let (d, _) ← readDocument layout maxDepth ⟨bytes, 0⟩
  .ok d

end Binary

end BlockDoc
