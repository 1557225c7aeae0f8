/-
# Cursors over a multimap

A cursor visits the groups of a tree one at a time and can stop anywhere.  It keeps a stack of
nodes whose turn comes later and, except before a visit in preorder, the subtree it enters next.

In preorder a node is taken off the stack and its children are put there.  In the two other
orders the cursor goes down to the left first and puts what it passes on the stack; in postorder
a node stays there until its right subtree is done, which the node visited last tells.
-/
import BlockDoc.Multimap.Basic

namespace BlockDoc.Multimap

variable {α : Type}

/-- When a node is visited in relation to its subtrees. -/
inductive Traversal where
  /-- Before both. -/
  | preorder
  /-- Between them. -/
  | inorder
  /-- After both. -/
  | postorder
  deriving DecidableEq

/-- A position in a traversal of the groups. -/
structure GroupCursor (α : Type) where
  /-- The map. -/
  map : Multimap α
  /-- The order of the visit. -/
  order : Traversal
  /-- The nodes whose turn comes later, the next one first. -/
  stack : List Nat
  /-- The subtree that is entered next. -/
  below : Option Nat
  /-- The node that was visited last. -/
  last : Option Nat

/-- Put a node and what lies to the left below it on a stack. -/
def descend (f : Forest) : Nat → Option Nat → List Nat → Except Fault (List Nat)
  | _, none, stack => .ok stack
  | 0, some _, _ => .error .endless
  | limit + 1, some i, stack => do
    let n ← f.node i
    descend f limit n.left (i :: stack)

namespace GroupCursor

/-- A cursor in front of the first group of a map. -/
def start (order : Traversal) (m : Multimap α) : GroupCursor α :=
  match order with
  | .preorder => ⟨m, order, m.forest.root.toList, none, none⟩
  | _ => ⟨m, order, [], m.forest.root, none⟩

/-- Visit the next node in preorder. -/
def advancePre (c : GroupCursor α) : Except Fault (Option (Nat × GroupCursor α)) :=
  match c.stack with
  | [] => .ok none
  | i :: rest => do
    let n ← c.map.forest.node i
    .ok (some (i, { c with stack := n.left.toList ++ (n.right.toList ++ rest) }))

/-- Visit the next node in inorder. -/
def advanceIn (c : GroupCursor α) : Except Fault (Option (Nat × GroupCursor α)) := do
  match ← descend c.map.forest c.map.forest.stepLimit c.below c.stack with
  | [] => .ok none
  | i :: rest => do
    let n ← c.map.forest.node i
    .ok (some (i, { c with stack := rest, below := n.right }))

/-- Visit the next node in postorder. -/
def advancePost : Nat → GroupCursor α → Except Fault (Option (Nat × GroupCursor α))
  | 0, _ => .error .endless
  | limit + 1, c => do
    match ← descend c.map.forest c.map.forest.stepLimit c.below c.stack with
    | [] => .ok none
    | i :: rest => do
      let n ← c.map.forest.node i
      if n.right.isSome && c.last != n.right then
        advancePost limit { c with stack := i :: rest, below := n.right }
      else .ok (some (i, { c with stack := rest, below := none, last := some i }))

/-- Visit the next node. -/
def advance (c : GroupCursor α) : Except Fault (Option (Nat × GroupCursor α)) :=
  match c.order with
  | .preorder => c.advancePre
  | .inorder => c.advanceIn
  | .postorder => advancePost c.map.forest.stepLimit c

/-- The next group and the cursor behind it. -/
def next? (c : GroupCursor α) : Option (Group α × GroupCursor α) :=
  match c.advance with
  | .ok (some (i, c')) => c.map.forest.nodes.cells[i]?.map fun n => (c.map.group n, c')
  | _ => none

/-- The groups a cursor has left, `limit` of them at most. -/
def take : Nat → GroupCursor α → List (Group α)
  | 0, _ => []
  | limit + 1, c => match c.next? with
    | none => []
    | some (g, c') => g :: take limit c'

/-- The groups a cursor has left. -/
def rest (c : GroupCursor α) : List (Group α) := take c.map.forest.nodes.cells.size c

/-- The cursor after `n` groups, or at the end if fewer are left. -/
def skip : Nat → GroupCursor α → GroupCursor α
  | 0, c => c
  | n + 1, c => match c.next? with
    | none => c
    | some (_, c') => skip n c'

end GroupCursor

/-- A position among the values of a map: inside the group of `key`, in front of `values`,
and then in front of `groups`. -/
structure PairCursor (α : Type) where
  /-- The key of the current group. -/
  key : String
  /-- What is left of the current group. -/
  values : List α
  /-- The groups after it. -/
  groups : GroupCursor α

namespace PairCursor

/-- A cursor in front of the first value of a map. -/
def start (m : Multimap α) : PairCursor α := ⟨"", [], .start .inorder m⟩

/-- Enter groups until one has a value. -/
def enter : Nat → GroupCursor α → Option ((String × α) × PairCursor α)
  | 0, _ => none
  | limit + 1, groups => match groups.next? with
    | none => none
    | some (g, later) => match g.values with
      | [] => enter limit later
      | v :: vs => some ((g.key, v), ⟨g.key, vs, later⟩)

/-- The next value with its key, and the cursor behind it. -/
def next? (c : PairCursor α) : Option ((String × α) × PairCursor α) :=
  match c.values with
  | v :: vs => some ((c.key, v), { c with values := vs })
  | [] => enter c.groups.map.forest.stepLimit c.groups

/-- The values a cursor has left, with their keys, `limit` of them at most. -/
def take : Nat → PairCursor α → List (String × α)
  | 0, _ => []
  | limit + 1, c => match c.next? with
    | none => []
    | some (p, c') => p :: take limit c'

/-- The values a cursor has left, with their keys. -/
def rest (c : PairCursor α) : List (String × α) := take c.groups.map.links.cells.size c

/-- The cursor after `n` values, or at the end if fewer are left. -/
def skip : Nat → PairCursor α → PairCursor α
  | 0, c => c
  | n + 1, c => match c.next? with
    | none => c
    | some (_, c') => skip n c'

end PairCursor

/-- The groups in ascending order of their keys. -/
def groups (m : Multimap α) : List (Group α) := (GroupCursor.start .inorder m).rest

/-- All values with their keys: keys ascending, duplicates in insertion order. -/
def toList (m : Multimap α) : List (String × α) := (PairCursor.start m).rest

end BlockDoc.Multimap
