/-
# The encoding of an outline

The writer has one way to encode an outline (`encoding`), the reader takes many: it compares a
flag with one only, and skips the words of a place.  What it takes for an outline is a sequence
of slots (`slots`), each of which says which bytes may stand there, and the encoding is one way
to fill them (`fills_encoding`).  Arranging an outline moves its slots around, but there are as
many as before (`length_encoding_arranged`).  Every entry takes a byte at least, so the size of an
encoding bounds the number of entries of every block (`counted_of_encoding`).
-/
import BlockDoc.Binary.Writer
import BlockDoc.Proofs.Document.Tree
import Mathlib.Data.List.Forall2

namespace BlockDoc.Binary

variable {layout : Layout}

/-! ## 1. Slots -/

/-- A place in an encoding, with what may stand there. -/
inductive Slot where
  /-- This byte. -/
  | content (b : UInt8)
  /-- A flag: one if it is set, any other byte if it is not. -/
  | flag (sorted : Bool)
  /-- Any byte, as part of the place of an entry. -/
  | place
  deriving DecidableEq

/-- A byte may stand in a slot. -/
def Slot.Accepts : Slot → UInt8 → Prop
  | .content b, c => c = b
  | .flag sorted, c => (c == 1) = sorted
  | .place, _ => True

instance : DecidableRel Slot.Accepts
  | .content b, c => inferInstanceAs (Decidable (c = b))
  | .flag sorted, c => inferInstanceAs (Decidable ((c == 1) = sorted))
  | .place, _ => inferInstanceAs (Decidable True)

/-- Some bytes may stand in some slots, one in each. -/
def Fills (slots : List Slot) (bs : Bytes) : Prop := List.Forall₂ Slot.Accepts slots bs

instance (slots : List Slot) (bs : Bytes) : Decidable (Fills slots bs) :=
  inferInstanceAs (Decidable (List.Forall₂ _ _ _))

theorem Fills.length_eq {slots : List Slot} {bs : Bytes} (h : Fills slots bs) :
    slots.length = bs.length := List.Forall₂.length_eq h

/-- Slots one behind the other are filled by bytes one behind the other. -/
theorem fills_append {s t : List Slot} {bs : Bytes} :
    Fills (s ++ t) bs ↔ ∃ as cs, bs = as ++ cs ∧ Fills s as ∧ Fills t cs := by
  constructor
  · intro h
    refine ⟨bs.take s.length, bs.drop s.length, (List.take_append_drop _ _).symm, ?_, ?_⟩
    · have htake := List.forall₂_take s.length h
      rwa [List.take_left] at htake
    · have hdrop := List.forall₂_drop s.length h
      rwa [List.drop_left] at hdrop
  · rintro ⟨as, cs, rfl, hs, ht⟩
    exact List.rel_append hs ht

@[simp] theorem fills_nil {bs : Bytes} : Fills [] bs ↔ bs = [] := List.forall₂_nil_left_iff

/-- Given bytes are filled by themselves alone. -/
@[simp] theorem fills_content {as bs : Bytes} : Fills (as.map .content) bs ↔ bs = as := by
  rw [Fills, List.forall₂_map_left_iff]
  induction as generalizing bs with
  | nil => exact List.forall₂_nil_left_iff
  | cons a as ih =>
    rw [List.forall₂_cons_left_iff]
    constructor
    · rintro ⟨c, cs, rfl, hcs, rfl⟩
      rw [ih.mp hcs]
    · rintro rfl
      exact ⟨a, as, rfl, ih.mpr rfl, rfl⟩

/-- The slots of a place. -/
def placeSlots (layout : Layout) (sorted : Bool) : List Slot :=
  List.replicate (if layout.hasPlaces sorted then 8 else 0) .place

@[simp] theorem fills_placeSlots {sorted : Bool} {bs : Bytes} :
    Fills (placeSlots layout sorted) bs ↔
      bs.length = if layout.hasPlaces sorted then 8 else 0 := by
  rw [placeSlots]
  generalize (if layout.hasPlaces sorted then 8 else 0) = n
  constructor
  · intro h
    rw [← h.length_eq, List.length_replicate]
  · rintro rfl
    induction bs with
    | nil => exact .nil
    | cons b bs ih => exact .cons trivial ih

/-- The slots of the flag and the entry count of a document. -/
def headerSlots (sorted : Bool) (count : Nat) : List Slot :=
  .flag sorted :: (Word.bytes 4 count).map .content

theorem fills_headerSlots {sorted : Bool} {count : Nat} {bs : Bytes} :
    Fills (headerSlots sorted count) bs ↔
      ∃ b, (b == 1) = sorted ∧ bs = b :: Word.bytes 4 count := by
  rw [headerSlots, Fills, List.forall₂_cons_left_iff]
  constructor
  · rintro ⟨b, cs, hb, hcs, rfl⟩
    exact ⟨b, hb, by rw [fills_content.mp hcs]⟩
  · rintro ⟨b, hb, rfl⟩
    exact ⟨b, _, hb, fills_content.mpr rfl, rfl⟩

/-! ## 2. The encoding -/

mutual

/-- The encoding of an item behind its place. -/
def itemEncoding (layout : Layout) : Item → Bytes
  | .undef _ _ => []
  | .param name text _ => Kind.toByte .param :: (wideBytes name ++ wideBytes text)
  | .block name sorted items _ =>
    Kind.toByte .block :: (wideBytes name ++ (headerBytes sorted items.length ++
      itemsEncoding layout sorted none items))

/-- The encoding of the items of a document, after an item with the given name and place. -/
def itemsEncoding (layout : Layout) (sorted : Bool) :
    Option (String × Place) → List Item → Bytes
  | _, [] => []
  | last, it :: rest =>
    let place := placeAfter last it.name rest
    placeBytes layout sorted place ++ (itemEncoding layout it ++
      itemsEncoding layout sorted (some (it.name, place)) rest)

end

/-- The encoding of an outline. -/
def encoding (layout : Layout) (o : Outline) : Bytes :=
  headerBytes o.sorted o.items.length ++ itemsEncoding layout o.sorted none o.items

/-- The slots of a piece behind the place of its entry. -/
def Piece.slots : Piece → List Slot
  | .param name text =>
    (Kind.toByte .param :: wideBytes name).map .content ++ (wideBytes text).map .content
  | .block name sorted count =>
    (Kind.toByte .block :: wideBytes name).map .content ++ headerSlots sorted count

mutual

/-- The slots of an item behind its place. -/
def itemSlots (layout : Layout) : Item → List Slot
  | .undef _ _ => []
  | .param name text _ => Piece.slots (.param name text)
  | .block name sorted items _ =>
    Piece.slots (.block name sorted items.length) ++ itemsSlots layout sorted items

/-- The slots of the items of a document. -/
def itemsSlots (layout : Layout) (sorted : Bool) : List Item → List Slot
  | [] => []
  | it :: rest =>
    placeSlots layout sorted ++ (itemSlots layout it ++ itemsSlots layout sorted rest)

end

/-- The slots of an outline. -/
def slots (layout : Layout) (o : Outline) : List Slot :=
  headerSlots o.sorted o.items.length ++ itemsSlots layout o.sorted o.items

/-! ## 3. The encoding fills the slots -/

theorem fills_headerBytes (sorted : Bool) (count : Nat) :
    Fills (headerSlots sorted count) (headerBytes sorted count) :=
  fills_headerSlots.mpr ⟨_, by cases sorted <;> rfl, rfl⟩

theorem fills_placeBytes (sorted : Bool) (p : Place) :
    Fills (placeSlots layout sorted) (placeBytes layout sorted p) := by
  rw [fills_placeSlots, placeBytes]
  split <;> simp

theorem fills_itemsEncoding {items : List Item}
    (h : ∀ it ∈ items, Fills (itemSlots layout it) (itemEncoding layout it)) (sorted : Bool)
    (last : Option (String × Place)) :
    Fills (itemsSlots layout sorted items) (itemsEncoding layout sorted last items) := by
  induction items generalizing last with
  | nil => exact .nil
  | cons it items ih =>
    rw [itemsSlots, itemsEncoding]
    exact List.rel_append (fills_placeBytes _ _) (List.rel_append (h it List.mem_cons_self)
      (ih (fun x hx => h x (List.mem_cons_of_mem _ hx)) _))

theorem fills_itemEncoding (it : Item) : Fills (itemSlots layout it) (itemEncoding layout it) := by
  induction it with
  | undef name comment => exact .nil
  | param name text comment =>
    rw [itemSlots, Piece.slots, itemEncoding, ← List.cons_append]
    exact List.rel_append (fills_content.mpr rfl) (fills_content.mpr rfl)
  | block name sorted items comment ih =>
    rw [itemSlots, Piece.slots, itemEncoding, ← List.cons_append, List.append_assoc]
    exact List.rel_append (fills_content.mpr rfl)
      (List.rel_append (fills_headerBytes _ _) (fills_itemsEncoding ih _ _))

/-- **The encoding of an outline fills its slots.** -/
theorem fills_encoding (layout : Layout) (o : Outline) :
    Fills (slots layout o) (encoding layout o) :=
  List.rel_append (fills_headerBytes _ _)
    (fills_itemsEncoding (fun it _ => fills_itemEncoding it) _ _)

/-! ## 4. Sizes -/

theorem itemsSlots_eq (sorted : Bool) (items : List Item) :
    itemsSlots layout sorted items =
      items.flatMap fun it => placeSlots layout sorted ++ itemSlots layout it := by
  induction items with
  | nil => rfl
  | cons it items ih => rw [itemsSlots, ih, List.flatMap_cons, List.append_assoc]

/-- Putting items into order keeps the number of their slots. -/
theorem length_itemsSlots_arranged {items : List Item}
    (h : ∀ it ∈ items, (itemSlots layout it.arranged).length = (itemSlots layout it).length)
    (sorted : Bool) :
    (itemsSlots layout sorted (orderItems sorted (arrangedItems items))).length =
      (itemsSlots layout sorted items).length := by
  rw [itemsSlots_eq, itemsSlots_eq, ((orderItems_perm _ _).flatMap_right _).length_eq,
    arrangedItems_eq]
  induction items with
  | nil => rfl
  | cons it items ih =>
    have hrest := ih fun x hx => h x (List.mem_cons_of_mem _ hx)
    rw [List.map_cons, List.flatMap_cons, List.flatMap_cons, List.length_append,
      List.length_append, hrest, List.length_append, List.length_append, h it List.mem_cons_self]

theorem length_headerSlots (sorted : Bool) (count : Nat) : (headerSlots sorted count).length = 5 := by
  simp [headerSlots]

theorem length_itemSlots_arranged (it : Item) :
    (itemSlots layout it.arranged).length = (itemSlots layout it).length := by
  induction it with
  | undef name comment => rfl
  | param name text comment => rfl
  | block name sorted items comment ih =>
    simp only [Item.arranged, itemSlots, Piece.slots, List.length_append, length_headerSlots,
      length_itemsSlots_arranged ih]

theorem length_slots_arranged (layout : Layout) (o : Outline) :
    (slots layout o.arranged).length = (slots layout o).length := by
  simp only [slots, Outline.arranged, List.length_append, length_headerSlots,
    length_itemsSlots_arranged fun it _ => length_itemSlots_arranged it]

/-- **Arranging an outline keeps the size of its encoding.** -/
theorem length_encoding_arranged (layout : Layout) (o : Outline) :
    (encoding layout o.arranged).length = (encoding layout o).length := by
  rw [← (fills_encoding layout o.arranged).length_eq, length_slots_arranged,
    (fills_encoding layout o).length_eq]

/-! ## 5. Every entry takes a byte -/

theorem length_itemEncoding_pos {it : Item} (h : it.isUndef = false) :
    0 < (itemEncoding layout it).length := by
  cases it with
  | undef name comment => cases h
  | param name text comment => exact Nat.succ_pos _
  | block name sorted items comment => exact Nat.succ_pos _

/-- Entries with a content take a byte each. -/
theorem length_le_itemsEncoding {items : List Item} (h : ∀ it ∈ items, it.isUndef = false)
    (sorted : Bool) (last : Option (String × Place)) :
    items.length ≤ (itemsEncoding layout sorted last items).length := by
  induction items generalizing last with
  | nil => exact Nat.zero_le _
  | cons it items ih =>
    have hit : 0 < (itemEncoding layout it).length :=
      length_itemEncoding_pos (h it List.mem_cons_self)
    have hrest := ih (fun x hx => h x (List.mem_cons_of_mem _ hx))
      (some (it.name, placeAfter last it.name items))
    simp only [itemsEncoding, List.length_append, List.length_cons]
    omega

/-- The encoding of an item is part of that of the items around it. -/
theorem length_itemEncoding_le {items : List Item} {it : Item} (h : it ∈ items) (sorted : Bool)
    (last : Option (String × Place)) :
    (itemEncoding layout it).length ≤ (itemsEncoding layout sorted last items).length := by
  induction items generalizing last with
  | nil => exact absurd h List.not_mem_nil
  | cons it' items ih =>
    simp only [itemsEncoding, List.length_append]
    rcases List.mem_cons.mp h with rfl | h
    · omega
    · have hrest := ih h (some (it'.name, placeAfter last it'.name items))
      omega

/-- **Every block has a byte of the encoding for each of its entries**, if they have a content. -/
theorem length_children_le (it : Item) (h : ∀ x ∈ it.preorder, x.isUndef = false) :
    ∀ x ∈ it.preorder, x.children.length ≤ (itemEncoding layout it).length := by
  induction it with
  | undef name comment => exact absurd (h _ (Item.mem_preorder_self _)) (by simp [Item.isUndef])
  | param name text comment =>
    intro x hx
    rw [Item.preorder, List.mem_singleton] at hx
    subst hx
    exact Nat.zero_le _
  | block name sorted items comment ih =>
    have hitems : ∀ x ∈ itemsPreorder items, x.isUndef = false := fun x hx =>
      h x (List.mem_cons_of_mem _ hx)
    have hencoding : (itemsEncoding layout sorted none items).length ≤
        (itemEncoding layout (.block name sorted items comment)).length := by
      simp only [itemEncoding, List.length_cons, List.length_append]
      omega
    intro x hx
    refine Nat.le_trans ?_ hencoding
    rcases List.mem_cons.mp hx with rfl | hx
    · exact length_le_itemsEncoding (fun it hit =>
        hitems it (mem_itemsPreorder.mpr ⟨it, hit, Item.mem_preorder_self it⟩)) sorted none
    · obtain ⟨it, hit, hx⟩ := mem_itemsPreorder.mp hx
      refine Nat.le_trans (ih it hit (fun y hy => ?_) x hx) (length_itemEncoding_le hit sorted none)
      exact hitems y (mem_itemsPreorder.mpr ⟨it, hit, hy⟩)

/-- **A short encoding has short blocks.** -/
theorem counted_of_encoding {o : Outline} (h : ∀ x ∈ o.preorder, x.isUndef = false) :
    o.items.length ≤ (encoding layout o).length ∧
      ∀ x ∈ o.preorder, x.children.length ≤ (encoding layout o).length := by
  have hdefined : ∀ it ∈ o.items, ∀ x ∈ it.preorder, x.isUndef = false := fun it hit x hx =>
    h x (mem_itemsPreorder.mpr ⟨it, hit, hx⟩)
  have hencoding : (itemsEncoding layout o.sorted none o.items).length ≤
      (encoding layout o).length := by
    simp only [encoding, List.length_append]
    omega
  constructor
  · exact (length_le_itemsEncoding (fun it hit => hdefined it hit it (Item.mem_preorder_self it))
      o.sorted none).trans hencoding
  · intro x hx
    obtain ⟨it, hit, hx⟩ := mem_itemsPreorder.mp hx
    exact ((length_children_le it (hdefined it hit) x hx).trans
      (length_itemEncoding_le hit o.sorted none)).trans hencoding

end BlockDoc.Binary
