/-
# Outlines

An outline is a document with its order fixed: a plain tree of items, without an index.  All
that only reads a document (comparing, dumping, encoding) reads an outline, and recursion over
a document is recursion over this tree.

A document is outlined in two moves: every entry is outlined as it was added, and the items
are then put into the order that the index gives.
-/
import BlockDoc.Document.Basic

namespace BlockDoc

/-- An entry in an outline. -/
inductive Item where
  /-- An entry without content. -/
  | undef (name comment : String)
  /-- A parameter. -/
  | param (name text comment : String)
  /-- A block with its flag and its items. -/
  | block (name : String) (sorted : Bool) (items : List Item) (comment : String)

mutual

/-- Items are compared part by part. -/
def Item.decEq : (a b : Item) → Decidable (a = b)
  | .undef n c, .undef n' c' => decidable_of_iff (n = n' ∧ c = c') (by simp)
  | .param n t c, .param n' t' c' => decidable_of_iff (n = n' ∧ t = t' ∧ c = c') (by simp)
  | .block n s is c, .block n' s' is' c' =>
    have := itemsDecEq is is'
    decidable_of_iff (n = n' ∧ s = s' ∧ is = is' ∧ c = c') (by simp)
  | .undef _ _, .param _ _ _ => isFalse (by simp)
  | .undef _ _, .block _ _ _ _ => isFalse (by simp)
  | .param _ _ _, .undef _ _ => isFalse (by simp)
  | .param _ _ _, .block _ _ _ _ => isFalse (by simp)
  | .block _ _ _ _, .undef _ _ => isFalse (by simp)
  | .block _ _ _ _, .param _ _ _ => isFalse (by simp)

/-- Sequences of items are compared item by item. -/
def itemsDecEq : (a b : List Item) → Decidable (a = b)
  | [], [] => isTrue rfl
  | [], _ :: _ => isFalse (by simp)
  | _ :: _, [] => isFalse (by simp)
  | a :: as, b :: bs =>
    have := a.decEq b
    have := itemsDecEq as bs
    decidable_of_iff (a = b ∧ as = bs) (by simp)

end

instance : DecidableEq Item := Item.decEq

/-- A document with its order fixed. -/
structure Outline where
  /-- The flag of the document. -/
  sorted : Bool
  /-- The items in order. -/
  items : List Item
  deriving DecidableEq

/-- The name of an item. -/
def Item.name : Item → String
  | .undef name _ => name
  | .param name _ _ => name
  | .block name _ _ _ => name

/-- The items of a document in the order of the given positions. -/
def Document.arrange (o : Order) (d : Document) (items : List Item) : List Item :=
  let items := items.toArray
  (d.positions o).filterMap (items[·]?)

mutual

/-- The outline of an entry. -/
def Entry.item (o : Order) : Entry → Item
  | ⟨name, .undef, comment⟩ => .undef name comment
  | ⟨name, .param text, comment⟩ => .param name text comment
  | ⟨name, .block d, comment⟩ => .block name d.sorted (Document.items o d) comment

/-- The items of a document. -/
def Document.items (o : Order) : Document → List Item
  | ⟨sorted, ⟨entries⟩, order, index⟩ =>
    Document.arrange o ⟨sorted, ⟨entries⟩, order, index⟩ (entryItems o entries)

/-- The outlines of several entries. -/
def entryItems (o : Order) : List Entry → List Item
  | [] => []
  | e :: rest => e.item o :: entryItems o rest

end

/-- A document with its order fixed. -/
def Document.outline (o : Order) (d : Document) : Outline := ⟨d.sorted, d.items o⟩

/-- Documents are equal when they read the same, each in its own order.  The order in which a
sorted document was written does not count. -/
instance : BEq Document := ⟨fun a b => decide (a.outline .chosen = b.outline .chosen)⟩

/-- Entries are equal when name, content and comment are. -/
instance : BEq Entry := ⟨fun a b => decide (a.item .chosen = b.item .chosen)⟩

end BlockDoc
