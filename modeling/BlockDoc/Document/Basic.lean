/-
# Documents

A document is a sequence of named entries.  An entry holds a text (a parameter), a nested
document (a block), or nothing yet.  Names may repeat, and nothing is ever removed.

The entries are stored once, each under its number, and indexed twice: by a sequence of the
numbers in the order in which the entries were added, and by a multimap from each name to the
numbers of the entries that carry it.  A flag says in which of the two orders the document is
read by default.
-/
import BlockDoc.Multimap.Cursor
import BlockDoc.Sequence

namespace BlockDoc

/-! ## 1. Types -/

mutual

/-- What an entry holds. -/
inductive Value where
  /-- Nothing yet. -/
  | undef
  /-- A text. -/
  | param (text : String)
  /-- A nested document. -/
  | block (document : Document)

/-- A named element of a document. -/
structure Entry where
  /-- The name, which other entries may share. -/
  name : String
  /-- The content. -/
  value : Value
  /-- A remark without meaning. -/
  comment : String

/-- A sequence of entries with an index by name. -/
structure Document where
  /-- Whether the document is read by name, and not as it was written. -/
  sorted : Bool
  /-- The entries by their numbers. -/
  entries : Array Entry
  /-- The numbers of the entries in the order in which they were added. -/
  order : Sequence Nat
  /-- The numbers of the entries under each name. -/
  index : Multimap Nat

end

instance : Inhabited Value := ⟨.undef⟩

/-- The kinds of content, which are also written as a byte. -/
inductive Kind where
  | undef
  | param
  | block
  deriving DecidableEq

/-- The byte that stands for a kind. -/
def Kind.toByte : Kind → UInt8
  | .undef => 0
  | .param => 1
  | .block => 2

/-- The kind that a byte stands for. -/
def Kind.ofByte? : UInt8 → Option Kind
  | 0 => some .undef
  | 1 => some .param
  | 2 => some .block
  | _ => none

@[simp] theorem Kind.ofByte?_toByte (k : Kind) : Kind.ofByte? k.toByte = some k := by
  cases k <;> rfl

/-- The kind of a content. -/
def Value.kind : Value → Kind
  | .undef => .undef
  | .param _ => .param
  | .block _ => .block

/-- The text of a parameter. -/
def Value.text? : Value → Option String
  | .param text => some text
  | _ => none

/-- The document of a block. -/
def Value.document? : Value → Option Document
  | .block d => some d
  | _ => none

/-- The nesting limit if nothing else is said: every block lies below fewer than this many
documents. -/
def maxDepth : Nat := 1024

/-! ## 2. Building -/

namespace Document

/-- A document without entries. -/
def empty (sorted : Bool := true) : Document := ⟨sorted, #[], .empty, .empty⟩

instance : Inhabited Document := ⟨empty⟩

/-- Add an entry behind all others. -/
def push (d : Document) (e : Entry) : Document :=
  let slot := d.entries.size
  { d with
    entries := d.entries.push e
    order := d.order.push slot
    index := d.index.insert e.name slot }

/-- Add an entry without a comment. -/
def set (d : Document) (name : String) (value : Value) : Document := d.push ⟨name, value, ""⟩

/-- Choose the default order. -/
def setSorted (d : Document) (sorted : Bool) : Document := { d with sorted }

/-! ## 3. Reading -/

/-- The number of entries, duplicates included. -/
def size (d : Document) : Nat := d.entries.size

/-- Whether there is no entry. -/
def isEmpty (d : Document) : Bool := d.entries.isEmpty

/-- The entries called `name`, oldest first. -/
def named (d : Document) (name : String) : List Entry :=
  (d.index.get name).filterMap (d.entries[·]?)

/-- The oldest entry called `name`. -/
def first? (d : Document) (name : String) : Option Entry :=
  (d.index.first? name).bind (d.entries[·]?)

/-- How many entries are called `name`. -/
def count (d : Document) (name : String) : Nat := d.index.count name

/-- Whether an entry is called `name`. -/
def contains (d : Document) (name : String) : Bool := d.index.contains name

end Document

/-! ## 4. Orders -/

/-- An order in which to read a document and the blocks in it. -/
inductive Order where
  /-- Each document as its own flag says. -/
  | chosen
  /-- As the entries were added. -/
  | insertion
  /-- By name; equal names as they were added. -/
  | byName
  deriving DecidableEq

/-- Whether a document with the given flag is read by name. -/
def Order.isByName (o : Order) (sorted : Bool) : Bool :=
  match o with
  | .chosen => sorted
  | .insertion => false
  | .byName => true

/-- The place of an entry in its run of equal names. -/
structure Place where
  /-- How many entries of the run come before. -/
  index : Nat
  /-- The length of the run. -/
  count : Nat
  deriving DecidableEq

/-- The place of an entry that is not counted in runs. -/
def Place.alone : Place := ⟨0, 1⟩

namespace Document

/-- The entry numbers in the given order. -/
def positions (o : Order) (d : Document) : List Nat :=
  if o.isByName d.sorted then d.index.toList.map Prod.snd else d.order.toList

/-- The entries in the given order. -/
def toList (o : Order) (d : Document) : List Entry :=
  (d.positions o).filterMap (d.entries[·]?)

/-- The entries in the default order with their places.  Only a sorted document has runs; in
any other every entry stands alone. -/
def grouped (d : Document) : List (Entry × Place) :=
  if d.sorted then
    d.index.groups.flatMap fun g =>
      g.values.zipIdx.filterMap fun (n, i) => d.entries[n]?.map (·, ⟨i, g.count⟩)
  else
    (d.toList .insertion).map (·, .alone)

end Document

end BlockDoc
