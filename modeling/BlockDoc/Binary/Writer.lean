/-
# Encoding documents

The writer turns an outline into the bytes that the reader takes: the plain layout keeps the
order in which entries were added, the grouped layout takes the default order, in which equal
names of a sorted document stand together.

An entry without content and a block that is nested too deep cannot be written.  What was
written before such an entry stays written, and in a sorted document of the grouped layout the
words of its place belong to that.  The result therefore holds both the bytes and the error.
-/
import BlockDoc.Document.Outline
import BlockDoc.Binary.Reader

namespace BlockDoc.Binary

/-- The order in which a layout stores entries. -/
def Layout.order : Layout → Order
  | .plain => .insertion
  | .grouped => .chosen

/-! ## 1. Places in runs -/

/-- The place of an item after an item with the given name and place. -/
def placeAfter (last : Option (String × Place)) (name : String) (rest : List Item) : Place :=
  match last with
  | none => ⟨0, 1 + (rest.takeWhile fun it => it.name == name).length⟩
  | some (before, p) =>
    if before = name then ⟨p.index + 1, p.count⟩
    else ⟨0, 1 + (rest.takeWhile fun it => it.name == name).length⟩

/-- Items with their places in runs of equal names, after an item with the given name and
place. -/
def placeItemsAfter (last : Option (String × Place)) : List Item → List (Item × Place)
  | [] => []
  | it :: rest =>
    let place := placeAfter last it.name rest
    (it, place) :: placeItemsAfter (some (it.name, place)) rest

/-- Items with their places in runs of equal names. -/
def placeItems (items : List Item) : List (Item × Place) := placeItemsAfter none items

@[simp] theorem map_fst_placeItemsAfter (last : Option (String × Place)) (items : List Item) :
    (placeItemsAfter last items).map Prod.fst = items := by
  induction items generalizing last with
  | nil => rfl
  | cons it rest ih => simp [placeItemsAfter, ih]

@[simp] theorem map_fst_placeItems (items : List Item) :
    (placeItems items).map Prod.fst = items := map_fst_placeItemsAfter none items

/-! ## 2. The bytes of the parts -/

/-- The flag and the entry count of a document. -/
def headerBytes (sorted : Bool) (count : Nat) : Bytes :=
  (if sorted then 1 else 0) :: Word.bytes 4 count

/-- A text in sixteen-bit units with a zero unit at its end. -/
def wideBytes (s : String) : Bytes :=
  (Text.units s.toList).flatMap (Word.bytes 2) ++ Word.bytes 2 0

/-- The words of a place.  The length of a run is told at its first entry only. -/
def placeBytes (layout : Layout) (sorted : Bool) (p : Place) : Bytes :=
  if layout.hasPlaces sorted then
    Word.bytes 4 p.index ++ Word.bytes 4 (if p.index = 0 then p.count else 0)
  else []

/-! ## 3. The walk -/

mutual

/-- How many steps an item takes. -/
def Item.weight : Item → Nat
  | .undef _ _ => 1
  | .param _ _ _ => 1
  | .block _ _ items _ => itemsWeight items + 2

/-- How many steps several items take. -/
def itemsWeight : List Item → Nat
  | [] => 0
  | it :: rest => Item.weight it + itemsWeight rest

end

/-- A document whose items are being written. -/
structure Level where
  /-- The flag of the document. -/
  sorted : Bool
  /-- The items still to be written. -/
  items : List (Item × Place)
  /-- How many documents are around it. -/
  depth : Nat

/-- How many steps a level takes. -/
def Level.weight (l : Level) : Nat := itemsWeight (l.items.map Prod.fst) + 1

/-- How many steps several levels take. -/
def levelsWeight : List Level → Nat
  | [] => 0
  | l :: rest => l.weight + levelsWeight rest

/-- The bytes of an entry after its place, a block only up to its first entry; or why the entry
cannot be written at this level. -/
def entryBytes (limit level : Nat) : Item → Except Error Bytes
  | .undef name _ => .error (.undefinedEntry name)
  | .param name text _ => .ok (Kind.toByte .param :: (wideBytes name ++ wideBytes text))
  | .block name sorted items _ =>
    if level ≥ limit then .error (.nestingTooDeep limit)
    else .ok (Kind.toByte .block :: (wideBytes name ++ headerBytes sorted items.length))

/-- What has to be written below an entry of a document that has `depth` documents around it. -/
def levelsBelow (depth : Nat) : Item → List Level
  | .block _ sorted items _ => [⟨sorted, placeItems items, depth + 1⟩]
  | _ => []

theorem weight_levelsBelow (depth : Nat) (it : Item) (outer : List Level) :
    levelsWeight (levelsBelow depth it ++ outer) < Item.weight it + levelsWeight outer := by
  cases it with
  | undef => simp [levelsBelow, Item.weight]
  | param => simp [levelsBelow, Item.weight]
  | block name sorted items comment =>
    simp only [levelsBelow, List.cons_append, List.nil_append, levelsWeight, Item.weight,
      Level.weight, map_fst_placeItems]
    omega

/-- Write the levels of a stack, the innermost first, behind what was written before. -/
def writeLevels (layout : Layout) (limit : Nat) (stack : List Level) (out : Array UInt8) :
    Array UInt8 × Except Error Unit :=
  match stack with
  | [] => (out, .ok ())
  | ⟨_, [], _⟩ :: outer => writeLevels layout limit outer out
  | ⟨sorted, (it, place) :: rest, depth⟩ :: outer =>
    let out := out.appendList (placeBytes layout sorted place)
    match entryBytes limit (depth + 1) it with
    | .error e => (out, .error e)
    | .ok bytes =>
      writeLevels layout limit (levelsBelow depth it ++ ⟨sorted, rest, depth⟩ :: outer)
        (out.appendList bytes)
termination_by levelsWeight stack
decreasing_by
  · simp [levelsWeight, Level.weight]
  · have h := weight_levelsBelow depth it (⟨sorted, rest, depth⟩ :: outer)
    simp [levelsWeight, Level.weight, itemsWeight] at h ⊢
    omega

/-- The bytes of an outline as far as it can be written, and why no further. -/
def writeOutline (layout : Layout) (limit : Nat) (o : Outline) : Bytes × Except Error Unit :=
  let (out, result) :=
    writeLevels layout limit [⟨o.sorted, placeItems o.items, 0⟩]
      (headerBytes o.sorted o.items.length).toArray
  (out.toList, result)

/-- The bytes of a document as far as it can be written, and why no further. -/
def writeDocument (layout : Layout) (limit : Nat) (d : Document) : Bytes × Except Error Unit :=
  writeOutline layout limit (d.outline layout.order)

/-- Encode a document. -/
def build (layout : Layout) (d : Document) : Except Error Bytes :=
  match writeDocument layout maxDepth d with
  | (bytes, .ok ()) => .ok bytes
  | (_, .error e) => .error e

end BlockDoc.Binary
