/-
# Multimaps with ordered duplicates

A multimap stores any number of values under a string key.  Keys are iterated in the order of
their code points, and values under one key in the order in which they were inserted.

Every distinct key owns one node of a search tree.  The values under it hang off that node as a
chain of links, so a second value under a known key never changes the shape of the tree.
-/
import BlockDoc.Multimap.Forest

namespace BlockDoc

namespace Multimap

/-- A stored value in its chain. -/
structure Link (α : Type) where
  /-- The value; `none` in an idle cell. -/
  value : Option α
  /-- The next link of the chain. -/
  next : Option Nat

/-- All values that share one key, as a reader sees them. -/
structure Group (α : Type) where
  /-- The shared key. -/
  key : String
  /-- The number of values. -/
  count : Nat
  /-- The values in insertion order. -/
  values : List α
  deriving DecidableEq

end Multimap

/-- A map from strings to sequences of values. -/
structure Multimap (α : Type) where
  /-- The nodes of the search tree. -/
  forest : Multimap.Forest
  /-- The links of the chains. -/
  links : Multimap.Arena (Multimap.Link α)
  /-- The number of values, duplicates included. -/
  size : Nat

namespace Multimap

variable {α : Type}

/-- The map without values. -/
def empty : Multimap α := ⟨.empty, .empty, 0⟩

instance : Inhabited (Multimap α) := ⟨empty⟩

/-! ## 1. Chains -/

/-- The values of a chain from a link on. -/
def valuesFrom (links : Arena (Link α)) : Nat → Option Nat → List α
  | _, none => []
  | 0, some _ => []
  | limit + 1, some i => match links.cells[i]? with
    | none => []
    | some l => l.value.toList ++ valuesFrom links limit l.next

/-- Give the cell of a link back; its value. -/
def freeLink (links : Arena (Link α)) (i : Nat) : Except Fault (Option α × Arena (Link α)) := do
  let l ← links.read i
  let links ← links.modify i fun _ => ⟨none, none⟩
  .ok (l.value, links.release i)

/-- Give the cells of a chain back, from a link on; their values. -/
def freeChain : Nat → Option Nat → Arena (Link α) → Except Fault (List α × Arena (Link α))
  | _, none, links => .ok ([], links)
  | 0, some _, _ => .error .endless
  | limit + 1, some i, links => do
    let l ← links.read i
    let (v, links) ← freeLink links i
    let (vs, links) ← freeChain limit l.next links
    .ok (v.toList ++ vs, links)

/-- The link `n` steps behind the link `i`, and the one in front of it. -/
def walkChain (links : Arena (Link α)) :
    Nat → Option Nat → Nat → Except Fault (Option Nat × Nat)
  | 0, before, i => .ok (before, i)
  | n + 1, _, i => do
    let l ← links.read i
    match l.next with
    | none => .error .brokenChain
    | some j => walkChain links n (some i) j

/-! ## 2. Reading -/

/-- Whether the map holds no value. -/
def isEmpty (m : Multimap α) : Bool := m.size == 0

/-- The number of distinct keys. -/
def keyCount (m : Multimap α) : Nat := m.forest.nodes.inUse

/-- What a node shows to a reader. -/
def group (m : Multimap α) (n : Node) : Group α :=
  ⟨n.key, n.count, valuesFrom m.links (m.links.cells.size + 1) (some n.head)⟩

/-- The number of the node with a key. -/
def findNode? (m : Multimap α) (key : String) : Option Nat :=
  match m.forest.search key with
  | .ok (.found i) => some i
  | _ => none

/-- The node with a key. -/
def node? (m : Multimap α) (key : String) : Option Node :=
  (m.findNode? key).bind fun i => m.forest.nodes.cells[i]?

/-- The group of values under `key`. -/
def find? (m : Multimap α) (key : String) : Option (Group α) := (m.node? key).map m.group

/-- The values under `key` in insertion order. -/
def get (m : Multimap α) (key : String) : List α := (m.find? key).elim [] Group.values

/-- The oldest value under `key`. -/
def first? (m : Multimap α) (key : String) : Option α := (m.get key).head?

/-- Whether there is a value under `key`. -/
def contains (m : Multimap α) (key : String) : Bool := (m.findNode? key).isSome

/-- The number of values under `key`. -/
def count (m : Multimap α) (key : String) : Nat := (m.node? key).elim 0 Node.count

/-- The key of the last node on side `s`. -/
def outermostKey? (m : Multimap α) (s : Side) : Option String :=
  m.forest.root.bind fun root => match m.forest.outermost s root with
    | .ok i => m.forest.nodes.cells[i]?.map Node.key
    | .error _ => none

/-- The smallest key. -/
def firstKey? (m : Multimap α) : Option String := m.outermostKey? .left

/-- The largest key. -/
def lastKey? (m : Multimap α) : Option String := m.outermostKey? .right

/-! ## 3. Changing

Each change comes in two forms.  The checked form reports a `Fault`; the plain form leaves the
map as it was in that case. -/

/-- Add the link `link` at the end of the chain of the node `i`. -/
def extend (m : Multimap α) (i link : Nat) : Except Fault (Multimap α) := do
  let n ← m.forest.node i
  let links ← m.links.modify n.tail fun l => { l with next := some link }
  let forest ← m.forest.edit i fun n => { n with tail := link, count := n.count + 1 }
  .ok { m with forest, links }

/-- Make a node with the chain that is the link `link`, and put it into the tree. -/
def found (m : Multimap α) (key : String) (above : Option (Nat × Side)) (link : Nat) :
    Except Fault (Multimap α) := do
  let (i, nodes) ← m.forest.nodes.acquire
    ⟨key, .red, above.map Prod.fst, none, none, link, link, 1⟩
  let forest ← Forest.attach above i { m.forest with nodes }
  .ok { m with forest }

/-- Add a value at the end of the group under `key`, which is made if it is missing. -/
def insertChecked (m : Multimap α) (key : String) (value : α) :
    Except Fault (Multimap α) := do
  let (link, links) ← m.links.acquire ⟨some value, none⟩
  let m := { m with links, size := m.size + 1 }
  match ← m.forest.search key with
  | .found i => m.extend i link
  | .vacant above => m.found key above link

/-- Add a value at the end of the group under `key`, which is made if it is missing. -/
def insert (m : Multimap α) (key : String) (value : α) : Multimap α :=
  match m.insertChecked key value with
  | .ok m' => m'
  | .error _ => m

/-- Take the link `i` with the link `before` in front of it out of the chain of the node `k`. -/
def unchain (m : Multimap α) (k : Nat) (before : Option Nat) (i : Nat) :
    Except Fault (Multimap α) := do
  let next := (← m.links.read i).next
  match before, next with
  | none, none => .error .brokenChain
  | none, some j => do
    let forest ← m.forest.edit k fun n => { n with head := j }
    .ok { m with forest }
  | some b, next => do
    let links ← m.links.modify b fun l => { l with next }
    let forest ← if next.isNone then m.forest.edit k fun n => { n with tail := b }
      else .ok m.forest
    .ok { m with forest, links }

/-- Remove the value at position `index` of the group under `key`.  The last value takes its
group along.  An absent key or position changes nothing. -/
def removeChecked (m : Multimap α) (key : String) (index : Nat) :
    Except Fault (Option α × Multimap α) := do
  match ← m.forest.search key with
  | .vacant _ => .ok (none, m)
  | .found i => do
    let n ← m.forest.node i
    if index ≥ n.count then .ok (none, m)
    else if n.count = 1 then do
      let (value, links) ← freeLink m.links n.head
      let forest ← m.forest.delete i
      .ok (value, { forest, links, size := m.size - 1 })
    else do
      let (before, link) ← walkChain m.links index none n.head
      let m ← m.unchain i before link
      let forest ← m.forest.edit i fun n => { n with count := n.count - 1 }
      let (value, links) ← freeLink m.links link
      .ok (value, { forest, links, size := m.size - 1 })

/-- Remove the value at position `index` of the group under `key`.  The last value takes its
group along.  An absent key or position changes nothing. -/
def remove (m : Multimap α) (key : String) (index : Nat) : Option α × Multimap α :=
  match m.removeChecked key index with
  | .ok r => r
  | .error _ => (none, m)

/-- Remove the whole group under `key`; the removed values in insertion order. -/
def removeAllChecked (m : Multimap α) (key : String) :
    Except Fault (List α × Multimap α) := do
  match ← m.forest.search key with
  | .vacant _ => .ok ([], m)
  | .found i => do
    let n ← m.forest.node i
    let (values, links) ← freeChain (m.links.cells.size + 1) (some n.head) m.links
    let forest ← m.forest.delete i
    .ok (values, { forest, links, size := m.size - n.count })

/-- Remove the whole group under `key`; the removed values in insertion order. -/
def removeAll (m : Multimap α) (key : String) : List α × Multimap α :=
  match m.removeAllChecked key with
  | .ok r => r
  | .error _ => ([], m)

end Multimap

end BlockDoc
