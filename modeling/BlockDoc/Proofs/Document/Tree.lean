/-
# Outlines as trees

An outline is a tree of items, and a statement about "every entry of a document, at any level"
is one about the items in `preorder`.  Four changes of such a tree are used later: leaving the
comments out (`bare`), putting every sorted block into the order of its names (`arranged`),
leaving out the entries without content (`defined`), and building a document from it
(`Document.ofItems`).
-/
import BlockDoc.Document.Outline
import Mathlib.Data.String.Basic

namespace BlockDoc

/-! ## 1. Items -/

/-- Induction over an item and all items below it. -/
@[elab_as_elim, induction_eliminator]
theorem Item.induction {P : Item → Prop} (undef : ∀ name comment, P (.undef name comment))
    (param : ∀ name text comment, P (.param name text comment))
    (block : ∀ name sorted items comment, (∀ it ∈ items, P it) →
      P (.block name sorted items comment)) (it : Item) : P it :=
  @Item.rec P (fun items => ∀ it ∈ items, P it) undef param block
    (fun _ h => absurd h List.not_mem_nil)
    (fun _ _ hhead htail _ h => (List.mem_cons.mp h).elim (fun e => e ▸ hhead) (htail _)) it

namespace Item

/-- Whether there is no content. -/
def isUndef : Item → Bool
  | undef _ _ => true
  | _ => false

/-- The name, and the text of a parameter. -/
def texts : Item → List String
  | undef name _ => [name]
  | param name text _ => [name, text]
  | block name _ _ _ => [name]

/-- The comment. -/
def comment : Item → String
  | undef _ comment => comment
  | param _ _ comment => comment
  | block _ _ _ comment => comment

/-- The items of a block. -/
def children : Item → List Item
  | block _ _ items _ => items
  | _ => []

end Item

mutual

/-- An item and all items below it, from top to bottom. -/
def Item.preorder : Item → List Item
  | .undef name comment => [.undef name comment]
  | .param name text comment => [.param name text comment]
  | .block name sorted items comment =>
    .block name sorted items comment :: itemsPreorder items

/-- Several items and all items below them, from top to bottom. -/
def itemsPreorder : List Item → List Item
  | [] => []
  | it :: rest => it.preorder ++ itemsPreorder rest

end

mutual

/-- How many blocks lie inside each other in an item. -/
def Item.depth : Item → Nat
  | .undef _ _ => 0
  | .param _ _ _ => 0
  | .block _ _ items _ => itemsDepth items + 1

/-- How many blocks lie inside each other in some items. -/
def itemsDepth : List Item → Nat
  | [] => 0
  | it :: rest => max it.depth (itemsDepth rest)

end

mutual

/-- An item without comments. -/
def Item.bare : Item → Item
  | .undef name _ => .undef name ""
  | .param name text _ => .param name text ""
  | .block name sorted items _ => .block name sorted (bareItems items) ""

/-- Several items without comments. -/
def bareItems : List Item → List Item
  | [] => []
  | it :: rest => it.bare :: bareItems rest

end

/-- Items in the order of their names; equal names stay in their order. -/
def sortItems (items : List Item) : List Item := items.mergeSort fun a b => a.name ≤ b.name

/-- Items in the order of a document with the given flag. -/
def orderItems (sorted : Bool) (items : List Item) : List Item :=
  if sorted then sortItems items else items

mutual

/-- An item with every block below it in its default order. -/
def Item.arranged : Item → Item
  | .undef name comment => .undef name comment
  | .param name text comment => .param name text comment
  | .block name sorted items comment =>
    .block name sorted (orderItems sorted (arrangedItems items)) comment

/-- Several items with every block below them in its default order. -/
def arrangedItems : List Item → List Item
  | [] => []
  | it :: rest => it.arranged :: arrangedItems rest

end

theorem itemsPreorder_eq (items : List Item) :
    itemsPreorder items = items.flatMap Item.preorder := by
  induction items with
  | nil => rfl
  | cons it rest ih => rw [itemsPreorder, ih, List.flatMap_cons]

theorem mem_itemsPreorder {items : List Item} {x : Item} :
    x ∈ itemsPreorder items ↔ ∃ it ∈ items, x ∈ it.preorder := by
  rw [itemsPreorder_eq, List.mem_flatMap]

theorem Item.mem_preorder_self (it : Item) : it ∈ it.preorder := by
  cases it <;> simp [Item.preorder]

theorem bareItems_eq (items : List Item) : bareItems items = items.map Item.bare := by
  induction items with
  | nil => rfl
  | cons it rest ih => rw [bareItems, ih, List.map_cons]

theorem arrangedItems_eq (items : List Item) :
    arrangedItems items = items.map Item.arranged := by
  induction items with
  | nil => rfl
  | cons it rest ih => rw [arrangedItems, ih, List.map_cons]

theorem Item.mem_preorder_block {name : String} {sorted : Bool} {items : List Item}
    {comment : String} {x : Item} : x ∈ (Item.block name sorted items comment).preorder ↔
      x = .block name sorted items comment ∨ x ∈ itemsPreorder items :=
  List.mem_cons

theorem Item.depth_block (name : String) (sorted : Bool) (items : List Item) (comment : String) :
    (Item.block name sorted items comment).depth = itemsDepth items + 1 :=
  rfl

theorem Item.bare_block (name : String) (sorted : Bool) (items : List Item) (comment : String) :
    (Item.block name sorted items comment).bare = .block name sorted (items.map Item.bare) "" := by
  rw [← bareItems_eq]
  rfl

theorem Item.arranged_block (name : String) (sorted : Bool) (items : List Item)
    (comment : String) : (Item.block name sorted items comment).arranged =
      .block name sorted (orderItems sorted (items.map Item.arranged)) comment := by
  rw [← arrangedItems_eq]
  rfl

theorem itemsDepth_le_iff {items : List Item} {n : Nat} :
    itemsDepth items ≤ n ↔ ∀ it ∈ items, it.depth ≤ n := by
  induction items with
  | nil => simp [itemsDepth]
  | cons it rest ih => simp [itemsDepth, ih]

theorem itemsDepth_append (items items' : List Item) :
    itemsDepth (items ++ items') = max (itemsDepth items) (itemsDepth items') := by
  induction items with
  | nil => exact (Nat.zero_max _).symm
  | cons it rest ih => rw [List.cons_append, itemsDepth, itemsDepth, ih, Nat.max_assoc]

/-- Below changed items are those below the items themselves, changed. -/
theorem mem_itemsPreorder_map {f : Item → Item} {items : List Item} {x : Item}
    (hf : ∀ it ∈ items, (x ∈ (f it).preorder ↔ ∃ y ∈ it.preorder, x = f y)) :
    x ∈ itemsPreorder (items.map f) ↔ ∃ y ∈ itemsPreorder items, x = f y := by
  simp only [mem_itemsPreorder]
  constructor
  · rintro ⟨_, hmem, hx⟩
    obtain ⟨it, hit, rfl⟩ := List.mem_map.mp hmem
    obtain ⟨y, hy, rfl⟩ := (hf it hit).mp hx
    exact ⟨y, ⟨it, hit, hy⟩, rfl⟩
  · rintro ⟨y, ⟨it, hit, hy⟩, rfl⟩
    exact ⟨f it, List.mem_map_of_mem hit, (hf it hit).mpr ⟨y, hy, rfl⟩⟩

theorem itemsDepth_map {f : Item → Item} {items : List Item}
    (hf : ∀ it ∈ items, (f it).depth = it.depth) :
    itemsDepth (items.map f) = itemsDepth items := by
  induction items with
  | nil => rfl
  | cons it rest ih =>
    rw [List.map_cons, itemsDepth, itemsDepth, hf it List.mem_cons_self,
      ih fun it hit => hf it (List.mem_cons_of_mem _ hit)]

@[simp] theorem Item.name_bare (it : Item) : it.bare.name = it.name := by
  cases it <;> rfl

@[simp] theorem Item.name_arranged (it : Item) : it.arranged.name = it.name := by
  cases it <;> rfl

@[simp] theorem Item.isUndef_arranged (it : Item) : it.arranged.isUndef = it.isUndef := by
  cases it <;> rfl

@[simp] theorem Item.comment_arranged (it : Item) : it.arranged.comment = it.comment := by
  cases it <;> rfl

@[simp] theorem Item.texts_arranged (it : Item) : it.arranged.texts = it.texts := by
  cases it <;> rfl

@[simp] theorem Item.texts_bare (it : Item) : it.bare.texts = it.texts := by
  cases it <;> rfl

/-! ## 2. Orders -/

theorem sortItems_perm (items : List Item) : (sortItems items).Perm items :=
  List.mergeSort_perm _ _

theorem orderItems_perm (sorted : Bool) (items : List Item) :
    (orderItems sorted items).Perm items := by
  cases sorted
  · exact List.Perm.refl _
  · exact sortItems_perm items

theorem mem_itemsPreorder_orderItems {sorted : Bool} {items : List Item} {x : Item} :
    x ∈ itemsPreorder (orderItems sorted items) ↔ x ∈ itemsPreorder items := by
  simp only [mem_itemsPreorder, (orderItems_perm _ _).mem_iff]

theorem itemsDepth_orderItems (sorted : Bool) (items : List Item) :
    itemsDepth (orderItems sorted items) = itemsDepth items :=
  eq_of_forall_ge_iff fun n => by
    simp only [itemsDepth_le_iff, (orderItems_perm _ _).mem_iff]

/-- A change that keeps the names keeps the order. -/
theorem map_sortItems {f : Item → Item} (hf : ∀ it, (f it).name = it.name) (items : List Item) :
    (sortItems items).map f = sortItems (items.map f) :=
  List.map_mergeSort fun a _ b _ => by rw [hf, hf]

theorem map_orderItems {f : Item → Item} (hf : ∀ it, (f it).name = it.name) (sorted : Bool)
    (items : List Item) : (orderItems sorted items).map f = orderItems sorted (items.map f) := by
  cases sorted
  · rfl
  · exact map_sortItems hf items

theorem nameLe_trans (a b c : Item) (h : decide (a.name ≤ b.name) = true)
    (h' : decide (b.name ≤ c.name) = true) : decide (a.name ≤ c.name) = true := by
  rw [decide_eq_true_eq] at h h' ⊢
  exact le_trans h h'

theorem nameLe_total (a b : Item) :
    (decide (a.name ≤ b.name) || decide (b.name ≤ a.name)) = true := by
  simpa using le_total a.name b.name

/-- Sorting sorted items changes nothing. -/
theorem sortItems_sortItems (items : List Item) : sortItems (sortItems items) = sortItems items :=
  List.mergeSort_of_pairwise (List.pairwise_mergeSort nameLe_trans nameLe_total items)

theorem orderItems_orderItems (sorted : Bool) (items : List Item) :
    orderItems sorted (orderItems sorted items) = orderItems sorted items := by
  cases sorted
  · rfl
  · exact sortItems_sortItems items

/-- **Putting a tree into its default order twice changes nothing more.** -/
@[simp] theorem Item.arranged_arranged (it : Item) : it.arranged.arranged = it.arranged := by
  induction it with
  | undef name comment => rfl
  | param name text comment => rfl
  | block name sorted items comment ih =>
    have hmap : (items.map Item.arranged).map Item.arranged = items.map Item.arranged := by
      rw [List.map_map]
      exact List.map_congr_left fun it hit => ih it hit
    rw [Item.arranged_block, Item.arranged_block, map_orderItems Item.name_arranged, hmap,
      orderItems_orderItems]

/-- Comments do not matter to the order. -/
theorem Item.bare_arranged (it : Item) : it.arranged.bare = it.bare.arranged := by
  induction it with
  | undef name comment => rfl
  | param name text comment => rfl
  | block name sorted items comment ih =>
    have hmap : (items.map Item.arranged).map Item.bare =
        (items.map Item.bare).map Item.arranged := by
      rw [List.map_map, List.map_map]
      exact List.map_congr_left fun it hit => ih it hit
    rw [Item.arranged_block, Item.bare_block, Item.bare_block, Item.arranged_block,
      map_orderItems Item.name_bare, hmap]

@[simp] theorem Item.bare_bare (it : Item) : it.bare.bare = it.bare := by
  induction it with
  | undef name comment => rfl
  | param name text comment => rfl
  | block name sorted items comment ih =>
    have hmap : (items.map Item.bare).map Item.bare = items.map Item.bare := by
      rw [List.map_map]
      exact List.map_congr_left fun it hit => ih it hit
    rw [Item.bare_block, Item.bare_block, hmap]

/-- Without comments there are none to leave out. -/
theorem Item.bare_eq_self {it : Item} (h : ∀ x ∈ it.preorder, x.comment = "") : it.bare = it := by
  induction it with
  | undef name comment =>
    obtain rfl : comment = "" := h _ (Item.mem_preorder_self _)
    rfl
  | param name text comment =>
    obtain rfl : comment = "" := h _ (Item.mem_preorder_self _)
    rfl
  | block name sorted items comment ih =>
    obtain rfl : comment = "" := h _ (Item.mem_preorder_self _)
    have hitems : ∀ it ∈ items, it.bare = it := fun it hit => ih it hit fun x hx =>
      h x (Item.mem_preorder_block.mpr (.inr (mem_itemsPreorder.mpr ⟨it, hit, hx⟩)))
    rw [Item.bare_block, List.map_congr_left hitems, List.map_id']

/-- The items below an arranged item are those below it, arranged. -/
theorem Item.mem_preorder_arranged (it : Item) {x : Item} :
    x ∈ it.arranged.preorder ↔ ∃ y ∈ it.preorder, x = y.arranged := by
  induction it generalizing x with
  | undef name comment => simp [Item.arranged, Item.preorder]
  | param name text comment => simp [Item.arranged, Item.preorder]
  | block name sorted items comment ih =>
    rw [Item.arranged_block, Item.mem_preorder_block, mem_itemsPreorder_orderItems,
      mem_itemsPreorder_map fun it hit => ih it hit, ← Item.arranged_block]
    simp only [Item.mem_preorder_block, or_and_right, exists_or, exists_eq_left]

/-- The items below an item without comments are those below it, without comments. -/
theorem Item.mem_preorder_bare (it : Item) {x : Item} :
    x ∈ it.bare.preorder ↔ ∃ y ∈ it.preorder, x = y.bare := by
  induction it generalizing x with
  | undef name comment => simp [Item.bare, Item.preorder]
  | param name text comment => simp [Item.bare, Item.preorder]
  | block name sorted items comment ih =>
    rw [Item.bare_block, Item.mem_preorder_block, mem_itemsPreorder_map fun it hit => ih it hit,
      ← Item.bare_block name sorted items comment]
    simp only [Item.mem_preorder_block, or_and_right, exists_or, exists_eq_left]

@[simp] theorem Item.length_children_arranged (it : Item) :
    it.arranged.children.length = it.children.length := by
  cases it with
  | undef name comment => rfl
  | param name text comment => rfl
  | block name sorted items comment =>
    rw [Item.arranged_block, Item.children, (orderItems_perm _ _).length_eq, List.length_map,
      Item.children]

theorem Item.depth_arranged (it : Item) : it.arranged.depth = it.depth := by
  induction it with
  | undef name comment => rfl
  | param name text comment => rfl
  | block name sorted items comment ih =>
    rw [Item.arranged_block, Item.depth_block, Item.depth_block, itemsDepth_orderItems,
      itemsDepth_map ih]

theorem Item.depth_bare (it : Item) : it.bare.depth = it.depth := by
  induction it with
  | undef name comment => rfl
  | param name text comment => rfl
  | block name sorted items comment ih =>
    rw [Item.bare_block, Item.depth_block, Item.depth_block, itemsDepth_map ih]

/-! ## 3. Outlines -/

namespace Outline

/-- All items from top to bottom. -/
def preorder (o : Outline) : List Item := itemsPreorder o.items

/-- How many blocks lie inside each other. -/
def depth (o : Outline) : Nat := itemsDepth o.items

/-- The outline without comments. -/
def bare (o : Outline) : Outline := ⟨o.sorted, bareItems o.items⟩

/-- The outline with every block, and the whole, in default order. -/
def arranged (o : Outline) : Outline := ⟨o.sorted, orderItems o.sorted (arrangedItems o.items)⟩

variable (o : Outline)

-- An outline is a block without a name, and its items change as those of the block do.

theorem arranged_arranged : o.arranged.arranged = o.arranged := by
  have h := (Item.block "" o.sorted o.items "").arranged_arranged
  simp only [Item.arranged, Item.block.injEq, true_and, and_true] at h
  exact congrArg (Outline.mk o.sorted) h

theorem bare_arranged : o.arranged.bare = o.bare.arranged := by
  have h := (Item.block "" o.sorted o.items "").bare_arranged
  simp only [Item.arranged, Item.bare, Item.block.injEq, true_and, and_true] at h
  exact congrArg (Outline.mk o.sorted) h

theorem bare_bare : o.bare.bare = o.bare := by
  have h := (Item.block "" o.sorted o.items "").bare_bare
  simp only [Item.bare, Item.block.injEq, true_and, and_true] at h
  exact congrArg (Outline.mk o.sorted) h

theorem bare_eq_self (h : ∀ x ∈ o.preorder, x.comment = "") : o.bare = o := by
  have hitems : ∀ it ∈ o.items, it.bare = it := fun it hit =>
    Item.bare_eq_self fun x hx => h x (mem_itemsPreorder.mpr ⟨it, hit, hx⟩)
  rw [bare, bareItems_eq, List.map_congr_left hitems, List.map_id']

/-- The default order shows the same items. -/
theorem mem_preorder_arranged {x : Item} :
    x ∈ o.arranged.preorder ↔ ∃ y ∈ o.preorder, x = y.arranged := by
  rw [preorder, arranged, mem_itemsPreorder_orderItems, arrangedItems_eq]
  exact mem_itemsPreorder_map fun it _ => it.mem_preorder_arranged

/-- Without comments there are the same items. -/
theorem mem_preorder_bare {x : Item} :
    x ∈ o.bare.preorder ↔ ∃ y ∈ o.preorder, x = y.bare := by
  rw [preorder, bare, bareItems_eq]
  exact mem_itemsPreorder_map fun it _ => it.mem_preorder_bare

theorem depth_arranged : o.arranged.depth = o.depth := by
  rw [depth, arranged, itemsDepth_orderItems, arrangedItems_eq]
  exact itemsDepth_map fun it _ => it.depth_arranged

theorem depth_bare : o.bare.depth = o.depth := by
  rw [depth, bare, bareItems_eq]
  exact itemsDepth_map fun it _ => it.depth_bare

end Outline

/-! ## 4. Entries without content left out -/

mutual

/-- An item with the entries without content left out of it, unless it is one of them itself. -/
def Item.defined? : Item → Option Item
  | .undef _ _ => none
  | .param name text comment => some (.param name text comment)
  | .block name sorted items comment => some (.block name sorted (definedItems items) comment)

/-- The items that have a content, at every level. -/
def definedItems : List Item → List Item
  | [] => []
  | it :: rest => it.defined?.toList ++ definedItems rest

end

theorem definedItems_eq (items : List Item) : definedItems items = items.filterMap Item.defined? := by
  induction items with
  | nil => rfl
  | cons it rest ih =>
    rw [definedItems, ih]
    cases hit : it.defined? with
    | none => rw [List.filterMap_cons_none hit, Option.toList_none, List.nil_append]
    | some x => rw [List.filterMap_cons_some hit, Option.toList_some, List.singleton_append]

theorem Item.name_of_defined? {it x : Item} (h : it.defined? = some x) : x.name = it.name := by
  cases it with
  | undef name comment => cases h
  | param name text comment => cases h; rfl
  | block name sorted items comment => cases h; rfl

/-- Nothing is left out where everything has a content. -/
theorem Item.defined?_eq_self {it : Item} (h : ∀ x ∈ it.preorder, x.isUndef = false) :
    it.defined? = some it := by
  induction it with
  | undef name comment => exact absurd (h _ (Item.mem_preorder_self _)) (by simp [Item.isUndef])
  | param name text comment => rfl
  | block name sorted items comment ih =>
    have hitems : ∀ it ∈ items, it.defined? = some it := fun it hit => ih it hit fun x hx =>
      h x (Item.mem_preorder_block.mpr (.inr (mem_itemsPreorder.mpr ⟨it, hit, hx⟩)))
    rw [Item.defined?, definedItems_eq, List.filterMap_congr hitems, List.filterMap_some]

theorem definedItems_eq_self {items : List Item}
    (h : ∀ x ∈ itemsPreorder items, x.isUndef = false) : definedItems items = items := by
  have hitems : ∀ it ∈ items, it.defined? = some it := fun it hit =>
    Item.defined?_eq_self fun x hx => h x (mem_itemsPreorder.mpr ⟨it, hit, hx⟩)
  rw [definedItems_eq, List.filterMap_congr hitems, List.filterMap_some]

/-- Items in their order keep it when some of them are left out. -/
theorem orderItems_definedItems {sorted : Bool} {items : List Item}
    (h : orderItems sorted items = items) :
    orderItems sorted (definedItems items) = definedItems items := by
  cases sorted with
  | false => rfl
  | true =>
    have hpair : items.Pairwise fun a b => decide (a.name ≤ b.name) = true :=
      h ▸ List.pairwise_mergeSort nameLe_trans nameLe_total items
    refine List.mergeSort_of_pairwise ?_
    rw [definedItems_eq, List.pairwise_filterMap]
    refine hpair.imp fun hab x hx y hy => ?_
    rwa [Item.name_of_defined? hx, Item.name_of_defined? hy]

/-- Items are arranged if they are in order and arranged themselves. -/
theorem orderItems_arrangedItems {sorted : Bool} {items : List Item} :
    orderItems sorted (arrangedItems items) = items ↔
      orderItems sorted items = items ∧ ∀ it ∈ items, it.arranged = it := by
  constructor
  · intro h
    refine ⟨?_, fun it hit => ?_⟩
    · rw [← h, orderItems_orderItems]
    · rw [← h, (orderItems_perm _ _).mem_iff, arrangedItems_eq] at hit
      obtain ⟨y, -, rfl⟩ := List.mem_map.mp hit
      exact y.arranged_arranged
  · rintro ⟨horder, hitems⟩
    rw [arrangedItems_eq, List.map_congr_left hitems, List.map_id', horder]

/-- Arranged items stay arranged when some of them are left out. -/
theorem orderItems_arranged_definedItems {sorted : Bool} {items : List Item}
    (h : orderItems sorted (arrangedItems items) = items)
    (hdefined : ∀ it ∈ items, it.arranged = it → ∀ x, it.defined? = some x → x.arranged = x) :
    orderItems sorted (arrangedItems (definedItems items)) = definedItems items := by
  obtain ⟨horder, hitems⟩ := orderItems_arrangedItems.mp h
  refine orderItems_arrangedItems.mpr ⟨orderItems_definedItems horder, fun x hx => ?_⟩
  rw [definedItems_eq] at hx
  obtain ⟨it, hit, hx⟩ := List.mem_filterMap.mp hx
  exact hdefined it hit (hitems it hit) x hx

theorem Item.arranged_of_defined? {it : Item} (h : it.arranged = it) :
    ∀ x, it.defined? = some x → x.arranged = x := by
  induction it with
  | undef name comment => exact fun x hx => by cases hx
  | param name text comment => exact fun x hx => by cases hx; rfl
  | block name sorted items comment ih =>
    intro x hx
    cases hx
    simp only [Item.arranged, Item.block.injEq, true_and, and_true] at h ⊢
    exact orderItems_arranged_definedItems h ih

/-- Leaving comments out and leaving items out do not interfere. -/
theorem Item.defined?_bare (it : Item) : it.bare.defined? = it.defined?.map Item.bare := by
  induction it with
  | undef name comment => rfl
  | param name text comment => rfl
  | block name sorted items comment ih =>
    have hitems : definedItems (bareItems items) = bareItems (definedItems items) := by
      rw [definedItems_eq, definedItems_eq, bareItems_eq, bareItems_eq, List.filterMap_map,
        List.map_filterMap]
      exact List.filterMap_congr ih
    rw [Item.bare, Item.defined?, Item.defined?, Option.map_some, Item.bare, hitems]

/-- The outline with the entries without content left out. -/
def Outline.defined (o : Outline) : Outline := ⟨o.sorted, definedItems o.items⟩

theorem Outline.defined_eq_self {o : Outline} (h : ∀ x ∈ o.preorder, x.isUndef = false) :
    o.defined = o := by
  rw [Outline.defined, definedItems_eq_self h]

theorem Outline.bare_defined (o : Outline) : o.defined.bare = o.bare.defined := by
  simp only [Outline.defined, Outline.bare, definedItems_eq, bareItems_eq, List.filterMap_map,
    List.map_filterMap]
  exact congrArg _ (List.filterMap_congr fun it _ => it.defined?_bare.symm)

/-- **An outline in default order keeps it** when the entries without content are left out. -/
theorem Outline.arranged_defined {o : Outline} (h : o.arranged = o) :
    o.defined.arranged = o.defined := by
  obtain ⟨sorted, items⟩ := o
  simp only [Outline.arranged, Outline.defined, Outline.mk.injEq, true_and] at h ⊢
  exact orderItems_arranged_definedItems h fun it _ => Item.arranged_of_defined?

end BlockDoc
