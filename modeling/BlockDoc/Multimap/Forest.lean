/-
# Coloured search trees in an arena

The keys of a multimap sit in a red-black tree, one node per distinct key.  A node knows its
parent and its two children by their numbers, and the ends of the chain of values stored under
its key.

Insertion and deletion change a few links and then climb towards the root to repair the
colours.  An insertion may leave a red node under a red one; a deletion may leave a subtree, or
a missing child, that is one black level short of what its place asks for.

A repair looks the same on both sides.  It is written once, for a `Side`, with the words
*near* (the child on that side) and *far* (the other child).  A walk from node to node visits
none of them twice, so it takes fewer steps than there are cells; one that takes more has lost
its way and ends with the fault `endless`.
-/
import BlockDoc.Multimap.Arena

namespace BlockDoc.Multimap

/-! ## 1. Nodes -/

/-- A node of a tree is red or black; a missing node counts as black. -/
inductive Colour where
  | red
  | black
  deriving DecidableEq, Inhabited

/-- The left or the right child of a node. -/
inductive Side where
  | left
  | right
  deriving DecidableEq, Inhabited

/-- The opposite side. -/
def Side.other : Side → Side
  | .left => .right
  | .right => .left

/-- A node of the tree. -/
structure Node where
  /-- The key. -/
  key : String
  /-- The colour. -/
  colour : Colour
  /-- The node above. -/
  parent : Option Nat
  /-- The root of the subtree with the smaller keys. -/
  left : Option Nat
  /-- The root of the subtree with the larger keys. -/
  right : Option Nat
  /-- The first link of the chain of values. -/
  head : Nat
  /-- The last link of the chain of values. -/
  tail : Nat
  /-- The length of the chain of values. -/
  count : Nat
  deriving DecidableEq

namespace Node

/-- The child on side `s`. -/
def child (s : Side) (n : Node) : Option Nat :=
  match s with
  | .left => n.left
  | .right => n.right

/-- The node with another child on side `s`. -/
def setChild (s : Side) (c : Option Nat) (n : Node) : Node :=
  match s with
  | .left => { n with left := c }
  | .right => { n with right := c }

/-- The node with another parent. -/
def setParent (p : Option Nat) (n : Node) : Node := { n with parent := p }

/-- The node in another colour. -/
def setColour (c : Colour) (n : Node) : Node := { n with colour := c }

/-- What is left of a node that is not in the tree any more. -/
def clear (n : Node) : Node :=
  { n with key := "", parent := none, left := none, right := none, count := 0 }

end Node

/-- A tree in an arena. -/
structure Forest where
  /-- The nodes. -/
  nodes : Arena Node
  /-- The root of the tree. -/
  root : Option Nat

/-- Where a key is, or where a node with this key would have to hang. -/
inductive Spot where
  /-- The node with the key. -/
  | found (i : Nat)
  /-- The node above, and the side on which it has no child; `none` in an empty tree. -/
  | vacant (above : Option (Nat × Side))

namespace Forest

/-- The tree without nodes. -/
def empty : Forest := ⟨.empty, none⟩

/-- The node with a number. -/
def node (f : Forest) (i : Nat) : Except Fault Node := f.nodes.read i

/-- Change the node with a number. -/
def edit (f : Forest) (i : Nat) (g : Node → Node) : Except Fault Forest := do
  let nodes ← f.nodes.modify i g
  .ok { f with nodes }

/-- Change a node if there is one. -/
def editIfAny (f : Forest) (o : Option Nat) (g : Node → Node) : Except Fault Forest :=
  match o with
  | none => .ok f
  | some i => f.edit i g

/-- The colour of a node, or of a missing one. -/
def colour (f : Forest) (o : Option Nat) : Except Fault Colour :=
  match o with
  | none => .ok .black
  | some i => do
    let n ← f.node i
    .ok n.colour

/-- How many steps a walk may take. -/
def stepLimit (f : Forest) : Nat := f.nodes.cells.size + 1

/-! ## 2. Looking things up -/

/-- Look for a key below the node `here`, which hangs at `above`. -/
def searchFrom (f : Forest) (key : String) :
    Nat → Option Nat → Option (Nat × Side) → Except Fault Spot
  | _, none, above => .ok (.vacant above)
  | 0, some _, _ => .error .endless
  | limit + 1, some i, _ => do
    let n ← f.node i
    if key < n.key then f.searchFrom key limit n.left (some (i, .left))
    else if n.key < key then f.searchFrom key limit n.right (some (i, .right))
    else .ok (.found i)

/-- Look for a key. -/
def search (f : Forest) (key : String) : Except Fault Spot :=
  f.searchFrom key f.stepLimit f.root none

/-- Follow the children on side `s` to the last one. -/
def outermostFrom (f : Forest) (s : Side) : Nat → Nat → Except Fault Nat
  | 0, _ => .error .endless
  | limit + 1, i => do
    let n ← f.node i
    match n.child s with
    | none => .ok i
    | some j => f.outermostFrom s limit j

/-- The last node on side `s` below a node. -/
def outermost (f : Forest) (s : Side) (i : Nat) : Except Fault Nat :=
  f.outermostFrom s f.stepLimit i

/-! ## 3. Links -/

/-- Let `v` take the place of `u` below the node `above`, or at the root.  The child on side `s`
is tried first. -/
def hang (s : Side) (above : Option Nat) (u : Nat) (v : Option Nat) (f : Forest) :
    Except Fault Forest :=
  match above with
  | none => .ok { f with root := v }
  | some p => do
    let n ← f.node p
    f.edit p (.setChild (if n.child s = some u then s else s.other) v)

/-- Turn `x` down to side `s`: its child on the other side takes its place.  Colours stay with
their nodes, and the order of the keys is kept. -/
def rotate (s : Side) (x : Nat) (f : Forest) : Except Fault Forest := do
  match (← f.node x).child s.other with
  | none => .error .nothingToLift
  | some y =>
    let inner := (← f.node y).child s
    let f ← f.edit x (.setChild s.other inner)
    let f ← f.editIfAny inner (.setParent (some x))
    let above := (← f.node x).parent
    let f ← f.edit y (.setParent above)
    let f ← f.hang s above x (some y)
    let f ← f.edit y (.setChild s (some x))
    f.edit x (.setParent (some y))

/-- Let the subtree at `v` take the place of the one at `u`. -/
def transplant (u : Nat) (v : Option Nat) (f : Forest) : Except Fault Forest := do
  let above := (← f.node u).parent
  let f ← f.hang .left above u v
  f.editIfAny v (.setParent above)

/-! ## 4. Insertion -/

/-- Resolve a red node `z` under a red parent whose other child is not red: one rotation (two,
if `z` lies on the inner side) puts a black node on top, and nothing above can tell the
difference.  The lower of the two red nodes afterwards is returned. -/
def turnOver (s : Side) (z parent grandparent : Nat) (f : Forest) :
    Except Fault (Nat × Forest) := do
  let p ← f.node parent
  let (z, f) ← if p.child s.other = some z then do
      let f ← f.rotate s parent
      .ok (parent, f)
    else .ok (z, f)
  let f ← f.editIfAny (← f.node z).parent (.setColour .black)
  let f ← f.edit grandparent (.setColour .red)
  let f ← f.rotate s.other grandparent
  .ok (z, f)

/-- Climb from a red node `z` until its parent is not red.  If the sibling of a red parent is
red too, both turn black and the grandparent red, which may clash further up. -/
def settleRed : Nat → Nat → Forest → Except Fault Forest
  | 0, _, _ => .error .endless
  | limit + 1, z, f => do
    match (← f.node z).parent with
    | none => .ok f
    | some parent =>
      let p ← f.node parent
      if p.colour = .black then .ok f
      else match p.parent with
        | none => .error .redPairAtRoot
        | some grandparent => do
          let g ← f.node grandparent
          let s : Side := if g.left = some parent then .left else .right
          let uncle := g.child s.other
          if (← f.colour uncle) = .red then
            let f ← f.edit parent (.setColour .black)
            let f ← f.editIfAny uncle (.setColour .black)
            let f ← f.edit grandparent (.setColour .red)
            settleRed limit grandparent f
          else
            let (z, f) ← f.turnOver s z parent grandparent
            settleRed limit z f

/-- Repair the colours after a red node `z` was attached.  The root ends black. -/
def mendInsertion (z : Nat) (f : Forest) : Except Fault Forest := do
  let f ← settleRed f.stepLimit z f
  f.editIfAny f.root (.setColour .black)

/-- Let a node be the child at a vacant spot. -/
def link (above : Option (Nat × Side)) (i : Nat) (f : Forest) : Except Fault Forest :=
  match above with
  | none => .ok { f with root := some i }
  | some (p, s) => f.edit p (.setChild s (some i))

/-- Attach a node at a vacant spot, and repair the colours. -/
def attach (above : Option (Nat × Side)) (i : Nat) (f : Forest) : Except Fault Forest := do
  let f ← f.link above i
  f.mendInsertion i

/-! ## 5. Deletion -/

/-- Rotate a red far child `w` of `p` over `p`.  The far child of `p` is black afterwards. -/
def lowerSibling (s : Side) (p w : Nat) (f : Forest) : Except Fault (Nat × Forest) := do
  if (← f.node w).colour = .red then
    let f ← f.edit w (.setColour .black)
    let f ← f.edit p (.setColour .red)
    let f ← f.rotate s p
    match (← f.node p).child s.other with
    | none => .error .noSibling
    | some w => .ok (w, f)
  else .ok (w, f)

/-- Turn a near child of `w` outwards, if the far one is not red. -/
def turnOutward (s : Side) (p w : Nat) (f : Forest) : Except Fault (Nat × Forest) := do
  let sibling ← f.node w
  if (← f.colour (sibling.child s.other)) = .black then
    let f ← f.editIfAny (sibling.child s) (.setColour .black)
    let f ← f.edit w (.setColour .red)
    let f ← f.rotate s.other w
    match (← f.node p).child s.other with
    | none => .error .noSibling
    | some w => .ok (w, f)
  else .ok (w, f)

/-- Bring a black node over to the short near side of `p` from the far child `w`, which has a
red child. -/
def borrow (s : Side) (p w : Nat) (f : Forest) : Except Fault Forest := do
  let (w, f) ← f.turnOutward s p w
  let colour := (← f.node p).colour
  let f ← f.edit w (.setColour colour)
  let f ← f.edit p (.setColour .black)
  let f ← f.editIfAny ((← f.node w).child s.other) (.setColour .black)
  f.rotate s p

/-- Climb from a subtree `x` that is one black level short until a red node or the root can
make up for it; the node that has to turn black is returned.

The sibling is made black first.  If it has no red child it turns red, which makes the parent
short in turn.  Otherwise a black node is borrowed from that side. -/
def settleShort : Nat → Option Nat → Option Nat → Forest → Except Fault (Option Nat × Forest)
  | 0, _, _, _ => .error .endless
  | limit + 1, x, parent, f => do
    if x = f.root || (← f.colour x) = .red then .ok (x, f)
    else match parent with
      | none => .error .noParent
      | some p => do
        let n ← f.node p
        let s : Side := if n.left = x then .left else .right
        match n.child s.other with
        | none => .error .noSibling
        | some w =>
          let (w, f) ← f.lowerSibling s p w
          let sibling ← f.node w
          if (← f.colour (sibling.child s)) = .black &&
              (← f.colour (sibling.child s.other)) = .black then
            let f ← f.edit w (.setColour .red)
            settleShort limit (some p) (← f.node p).parent f
          else
            let f ← f.borrow s p w
            .ok (f.root, f)

/-- Repair the colours when the subtree `x` below `parent` is one black level short. -/
def mendDeletion (x parent : Option Nat) (f : Forest) : Except Fault Forest := do
  let (x, f) ← settleShort f.stepLimit x parent f
  f.editIfAny x (.setColour .black)

/-- What a node has left behind where it was taken out of the tree. -/
structure Gap where
  /-- The colour that is missing. -/
  colour : Colour
  /-- The subtree that took its place. -/
  child : Option Nat
  /-- The node above that subtree. -/
  above : Option Nat

/-- Take the node `y`, which has no left child, out of the right subtree of another node, and
let what is left of that subtree, with the root `right`, be its right one. -/
def pullUp (y right : Nat) (child : Option Nat) (f : Forest) : Except Fault Forest := do
  let f ← f.transplant y child
  let f ← f.edit y (.setChild .right (some right))
  f.edit right (.setParent (some y))

/-- Let `y` take over the place, the left subtree and the colour of `z`. -/
def takeOver (z y left : Nat) (c : Colour) (f : Forest) : Except Fault Forest := do
  let f ← f.transplant z (some y)
  let f ← f.edit y (.setChild .left (some left))
  let f ← f.edit left (.setParent (some y))
  f.edit y (.setColour c)

/-- Take the node `z` out of the tree.  A node with two children is replaced by the smallest
one of its right subtree. -/
def cut (z : Nat) (f : Forest) : Except Fault (Gap × Forest) := do
  let n ← f.node z
  match n.left, n.right with
  | none, right => do
    let f ← f.transplant z right
    .ok (⟨n.colour, right, n.parent⟩, f)
  | some left, none => do
    let f ← f.transplant z (some left)
    .ok (⟨n.colour, some left, n.parent⟩, f)
  | some left, some right => do
    let y ← f.outermost .left right
    let next ← f.node y
    if next.parent = some z then do
      let f ← f.takeOver z y left n.colour
      .ok (⟨next.colour, next.right, some y⟩, f)
    else do
      let f ← f.pullUp y right next.right
      let f ← f.takeOver z y left n.colour
      .ok (⟨next.colour, next.right, next.parent⟩, f)

/-- Delete the node `z` and give its cell back. -/
def delete (z : Nat) (f : Forest) : Except Fault Forest := do
  let (gap, f) ← f.cut z
  let f ← if gap.colour = .black then f.mendDeletion gap.child gap.above else .ok f
  let f ← f.edit z .clear
  .ok { f with nodes := f.nodes.release z }

end Forest

end BlockDoc.Multimap
