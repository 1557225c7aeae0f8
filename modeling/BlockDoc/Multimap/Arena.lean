/-
# Arenas

The parts of a container that refer to each other by number lie in an arena: an array of cells
together with the numbers of the cells that are idle at the moment.  A cell that was given back
is used again before a new one is made, the latest returned one first, so the array never grows
past the largest number of cells that were held at the same time.

A number that belongs to no cell, and everything else that cannot happen in a container built
by its own operations, is answered with a `Fault` in place of a guess: that no fault ever
happens is then a statement about the program and not a hope about it.
-/

namespace BlockDoc.Multimap

/-- What an operation runs into only in a container that breaks its own rules. -/
inductive Fault where
  /-- A number belongs to no cell. -/
  | outOfBounds
  /-- Two red nodes in a row have no node above them. -/
  | redPairAtRoot
  /-- A subtree below the root is one black level short and has no node above it. -/
  | noParent
  /-- A subtree is one black level short and its parent has no other child. -/
  | noSibling
  /-- A rotation has no child to lift. -/
  | nothingToLift
  /-- A chain is shorter than its count says. -/
  | brokenChain
  /-- A walk takes more steps than there are cells. -/
  | endless
  deriving DecidableEq

/-- Numbered cells; those in `free` are idle, the latest returned one first. -/
structure Arena (β : Type) where
  /-- All cells that were ever made. -/
  cells : Array β
  /-- The numbers of the idle cells. -/
  free : List Nat

namespace Arena

variable {β : Type}

/-- An arena that has made no cell yet. -/
def empty : Arena β := ⟨#[], []⟩

/-- The content of a cell. -/
def read (a : Arena β) (i : Nat) : Except Fault β :=
  match a.cells[i]? with
  | some b => .ok b
  | none => .error .outOfBounds

/-- Change the content of a cell. -/
def modify (a : Arena β) (i : Nat) (f : β → β) : Except Fault (Arena β) :=
  if i < a.cells.size then .ok { a with cells := a.cells.modify i f } else .error .outOfBounds

/-- Take a cell with the given content: an idle one if there is one, else a new one. -/
def acquire (a : Arena β) (b : β) : Except Fault (Nat × Arena β) :=
  match a.free with
  | [] => .ok (a.cells.size, { a with cells := a.cells.push b })
  | i :: rest =>
    if i < a.cells.size then .ok (i, { cells := a.cells.setIfInBounds i b, free := rest })
    else .error .outOfBounds

/-- Give a cell back. -/
def release (a : Arena β) (i : Nat) : Arena β := { a with free := i :: a.free }

/-- How many cells are held. -/
def inUse (a : Arena β) : Nat := a.cells.size - a.free.length

end Arena

end BlockDoc.Multimap
