/-
# Append-only sequences

A sequence is a chain of nodes in an arena.  Every node says which one comes next, and the
sequence knows the two ends of the chain.  It only grows, and always at its end: the new node is
linked behind the last one.

A cursor stands in front of a node, or behind the last one, and moves on along the links.
Copying a cursor and going on with the copy leaves the first one where it was.
-/

namespace BlockDoc

namespace Sequence

/-- A value and the number of the node behind it. -/
structure Node (α : Type u) where
  /-- The value. -/
  value : α
  /-- The next node, if this is not the last one. -/
  next : Option Nat

end Sequence

/-- Values in the order in which they were added. -/
structure Sequence (α : Type u) where
  /-- All nodes. -/
  nodes : Array (Sequence.Node α)
  /-- The first node. -/
  head : Option Nat
  /-- The last node. -/
  tail : Option Nat

namespace Sequence

variable {α : Type u}

/-- The sequence without values. -/
def empty : Sequence α := ⟨#[], none, none⟩

/-- Add a value at the end. -/
def push (s : Sequence α) (a : α) : Sequence α :=
  let id := s.nodes.size
  let nodes := s.nodes.push ⟨a, none⟩
  match s.tail with
  | some last =>
    { s with nodes := nodes.modify last fun n => { n with next := some id }, tail := some id }
  | none => ⟨nodes, some id, some id⟩

/-- The number of values. -/
def size (s : Sequence α) : Nat := s.nodes.size

/-- Whether there is no value. -/
def isEmpty (s : Sequence α) : Bool := s.nodes.isEmpty

/-- A place in a sequence. -/
structure Cursor (α : Type u) where
  /-- The sequence. -/
  sequence : Sequence α
  /-- The node in front of which the cursor stands. -/
  node? : Option Nat

/-- A cursor in front of the first value. -/
def start (s : Sequence α) : Cursor α := ⟨s, s.head⟩

namespace Cursor

/-- The next value and the cursor behind it. -/
def next? (c : Cursor α) : Option (α × Cursor α) :=
  c.node?.bind fun id => c.sequence.nodes[id]?.map fun node =>
    (node.value, { c with node? := node.next })

/-- The cursor after `n` values, or at the end if fewer are left. -/
def skip : Nat → Cursor α → Cursor α
  | 0, c => c
  | n + 1, c => match c.next? with
    | none => c
    | some (_, c') => skip n c'

/-- The values ahead, `limit` of them at most. -/
def take : Nat → Cursor α → List α
  | 0, _ => []
  | limit + 1, c => match c.next? with
    | none => []
    | some (a, c') => a :: take limit c'

/-- The values a cursor has left.  There are no more of them than there are nodes. -/
def rest (c : Cursor α) : List α := c.take c.sequence.nodes.size

end Cursor

/-- The values in the order of the chain. -/
def toList (s : Sequence α) : List α := s.start.rest

end Sequence

end BlockDoc
