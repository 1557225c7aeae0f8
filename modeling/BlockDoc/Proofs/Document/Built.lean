/-
# Documents that were built

The entries of a document and its two indexes belong together, but the type does not say so.
`Indexed` says that both indexes cover the same entries: the order leads through the numbers of
all of them, and the index has each number under the name of its entry.  Every operation keeps
this (`Indexed.push`), so it holds of `Built`, every document that the operations can make.

Reading such a document by name is a stable sort, and its two orders are two views of one tree:
the outline in default order is the outline as it was written, arranged
(`Built.outline_chosen`).
-/
import BlockDoc.Proofs.Multimap.Refinement
import BlockDoc.Proofs.Document.Sequence
import BlockDoc.Proofs.Document.Tree

namespace BlockDoc

open Multimap (sortByKey keyLe)

/-! ## 1. Documents and their indexes -/

/-- The documents that building makes, with the same of every document inside. -/
inductive Document.Built : Document → Prop
  | empty (sorted : Bool) : Built (.empty sorted)
  | push {d : Document} {e : Entry} : Built d → (∀ inner, e.value = .block inner → Built inner) →
      Built (d.push e)
  | setSorted {d : Document} (sorted : Bool) : Built d → Built (d.setSorted sorted)

/-- The names of some entries with their numbers. -/
def nameIndex (es : List Entry) : List (String × Nat) := es.zipIdx.map fun p => (p.1.name, p.2)

namespace Document

variable {d : Document} {o : Order}

/-- Setting a value is pushing an entry. -/
theorem Built.set (h : d.Built) (name : String) {v : Value}
    (hv : ∀ inner, v = .block inner → inner.Built) : (d.set name v).Built := h.push hv

@[simp] theorem entries_push (e : Entry) :
    (d.push e).entries.toList = d.entries.toList ++ [e] := Array.toList_push

/-- Both indexes cover the entries. -/
structure Indexed (d : Document) : Prop where
  /-- The order leads through the numbers of all entries. -/
  order : d.order.Holds (List.range d.entries.size)
  /-- The index has the number of every entry under its name. -/
  index : d.index.Refines (nameIndex d.entries.toList)

theorem indexed_empty (sorted : Bool) : (empty sorted).Indexed :=
  ⟨Sequence.holds_empty, Multimap.refines_empty⟩

theorem nameIndex_append (es : List Entry) (e : Entry) :
    nameIndex (es ++ [e]) = nameIndex es ++ [(e.name, es.length)] := by
  rw [nameIndex, nameIndex, List.zipIdx_append, List.map_append]
  simp

/-- **Pushing an entry adds its number to both indexes.** -/
theorem Indexed.push (h : d.Indexed) (e : Entry) : (d.push e).Indexed := by
  constructor
  · have hsize : (d.push e).entries.size = d.entries.size + 1 := Array.size_push e
    rw [hsize, List.range_succ]
    exact h.order.push d.entries.size
  · rw [entries_push, nameIndex_append]
    exact h.index.insert e.name d.entries.size

theorem Indexed.setSorted (h : d.Indexed) (sorted : Bool) : (d.setSorted sorted).Indexed :=
  ⟨h.order, h.index⟩

/-- **Both indexes of a document that was built cover its entries.** -/
theorem Built.indexed (h : d.Built) : d.Indexed := by
  induction h with
  | empty sorted => exact indexed_empty sorted
  | push _ _ ih _ => exact ih.push _
  | setSorted sorted _ ih => exact ih.setSorted sorted

/-- Documents inside a document that was built were built. -/
theorem Built.inner (h : d.Built) {e : Entry} (he : e ∈ d.entries.toList) {inner : Document}
    (hv : e.value = .block inner) : inner.Built := by
  induction h with
  | empty sorted => exact absurd he List.not_mem_nil
  | push _ hinner ih _ =>
    rw [entries_push, List.mem_append, List.mem_singleton] at he
    rcases he with he | rfl
    · exact ih he
    · exact hinner inner hv
  | setSorted sorted _ ih => exact ih he

/-! ## 2. Orders -/

theorem entryItems_eq (es : List Entry) : entryItems o es = es.map (Entry.item o) := by
  induction es with
  | nil => rfl
  | cons e rest ih => rw [entryItems, ih, List.map_cons]

theorem items_eq_arrange (d : Document) :
    d.items o = d.arrange o (d.entries.toList.map (Entry.item o)) := by
  obtain ⟨sorted, ⟨es⟩, order, index⟩ := d
  rw [Document.items, entryItems_eq]

/-- The items of a document are what its entries show, in the order in which they are read. -/
theorem items_eq_map (d : Document) (o : Order) :
    d.items o = (d.toList o).map (Entry.item o) := by
  rw [items_eq_arrange, arrange, toList, List.map_filterMap]
  refine List.filterMap_congr fun n _ => ?_
  simp

theorem name_item (e : Entry) : (e.item o).name = e.name := by
  obtain ⟨name, _ | _ | _, comment⟩ := e <;> rfl

/-- What shows no content is an entry without content. -/
theorem item_eq_undef {e : Entry} {name comment : String} :
    e.item o = .undef name comment ↔ e = ⟨name, .undef, comment⟩ := by
  obtain ⟨_, _ | _ | _, _⟩ := e <;> simp [Entry.item]

/-- What shows a text is a parameter. -/
theorem item_eq_param {e : Entry} {name text comment : String} :
    e.item o = .param name text comment ↔ e = ⟨name, .param text, comment⟩ := by
  obtain ⟨_, _ | _ | _, _⟩ := e <;> simp [Entry.item]

/-- What shows items is a block. -/
theorem item_eq_block {e : Entry} {name comment : String} {sorted : Bool}
    {items : List Item} : e.item o = .block name sorted items comment ↔
      ∃ d : Document, e = ⟨name, .block d, comment⟩ ∧ d.sorted = sorted ∧ d.items o = items := by
  obtain ⟨_, _ | _ | d, _⟩ := e
  · simp [Entry.item]
  · simp [Entry.item]
  · simp only [Entry.item, Item.block.injEq, Entry.mk.injEq, Value.block.injEq]
    constructor
    · rintro ⟨hname, hsorted, hitems, hcomment⟩
      exact ⟨d, ⟨hname, rfl, hcomment⟩, hsorted, hitems⟩
    · rintro ⟨_, ⟨hname, rfl, hcomment⟩, hsorted, hitems⟩
      exact ⟨hname, hsorted, hitems, hcomment⟩

/-- A value by its number. -/
theorem getElem?_of_mem_zipIdx {β : Type} {xs : Array β} {p : β × Nat}
    (h : p ∈ xs.toList.zipIdx) : xs[p.2]? = some p.1 := by
  rw [← Array.getElem?_toList]
  exact List.mem_zipIdx_iff_getElem?.mp h

/-- Picking values by their own numbers. -/
theorem filterMap_zipIdx {β : Type} {xs : Array β} {ps : List (β × Nat)}
    (h : ∀ p ∈ ps, p ∈ xs.toList.zipIdx) :
    (ps.map Prod.snd).filterMap (xs[·]?) = ps.map Prod.fst := by
  induction ps with
  | nil => rfl
  | cons p ps ih =>
    have hp := getElem?_of_mem_zipIdx (h p List.mem_cons_self)
    rw [List.map_cons, List.filterMap_cons_some hp, List.map_cons,
      ih fun q hq => h q (List.mem_cons_of_mem _ hq)]

/-- The numbers of all values pick all values. -/
theorem filterMap_range {β : Type} (xs : Array β) :
    (List.range xs.size).filterMap (xs[·]?) = xs.toList := by
  have h := filterMap_zipIdx fun p (hp : p ∈ xs.toList.zipIdx) => hp
  rwa [List.zipIdx_map_snd, Array.length_toList, ← List.range_eq_range', List.zipIdx_map_fst] at h

/-- The numbers in the order of the names pick the values in the order of their names. -/
theorem filterMap_sorted {β : Type} {f : β → String} {xs : Array β} {es : List Entry}
    (hn : xs.toList.map f = es.map Entry.name) :
    ((sortByKey (nameIndex es)).map Prod.snd).filterMap (xs[·]?) =
      xs.toList.mergeSort fun a b => f a ≤ f b := by
  have hindex : nameIndex es = xs.toList.zipIdx.map fun p => (f p.1, p.2) := by
    have h := congrArg (fun names : List String => names.zipIdx) hn
    simp only [List.zipIdx_map] at h
    exact h.symm
  -- sorting the numbers by name is sorting the numbered values by name
  have hsort : sortByKey (nameIndex es) =
      (xs.toList.zipIdx.mergeSort fun p q => f p.1 ≤ f q.1).map fun p => (f p.1, p.2) := by
    rw [hindex, sortByKey]
    refine (List.map_mergeSort (f := fun p : β × Nat => (f p.1, p.2)) (s := keyLe) ?_).symm
    exact fun _ _ _ _ => rfl
  have hmem : ∀ p ∈ xs.toList.zipIdx.mergeSort fun p q => f p.1 ≤ f q.1,
      p ∈ xs.toList.zipIdx := fun p hp => (List.mergeSort_perm _ _).mem_iff.mp hp
  have hfst : (xs.toList.zipIdx.mergeSort fun p q => f p.1 ≤ f q.1).map Prod.fst =
      xs.toList.mergeSort fun a b => f a ≤ f b := by
    rw [List.map_mergeSort (s := fun a b : β => decide (f a ≤ f b)) fun _ _ _ _ => rfl,
      List.zipIdx_map_fst]
  rw [hsort, List.map_map]
  exact (filterMap_zipIdx hmem).trans hfst

/-- **A document as it was written** shows its entries. -/
theorem Indexed.items_insertion (h : d.Indexed) :
    d.items .insertion = d.entries.toList.map (Entry.item .insertion) := by
  rw [items_eq_arrange, arrange, positions, if_neg (by simp [Order.isByName]), h.order.toList_eq]
  simpa using filterMap_range (d.entries.toList.map (Entry.item .insertion)).toArray

/-- **Every order of a document** is the written one, sorted stably by name or not at all. -/
theorem Indexed.items_eq (h : d.Indexed) (o : Order) :
    d.items o = orderItems (o.isByName d.sorted) (d.entries.toList.map (Entry.item o)) := by
  rw [items_eq_arrange, arrange, positions]
  by_cases hb : o.isByName d.sorted = true
  · rw [if_pos hb, hb, h.index.observes.toList]
    refine filterMap_sorted (f := Item.name) ?_
    rw [List.map_map]
    exact List.map_congr_left fun e _ => name_item e
  · rw [if_neg hb, Bool.eq_false_iff.mpr hb, h.order.toList_eq]
    simpa [orderItems] using filterMap_range (d.entries.toList.map (Entry.item o)).toArray

/-- The entries in default order are those as written, arranged. -/
theorem Built.map_item (h : d.Built) :
    d.entries.toList.map (Entry.item .chosen) =
      arrangedItems (d.entries.toList.map (Entry.item .insertion)) := by
  rw [arrangedItems_eq]
  induction h with
  | empty sorted => rfl
  | @push d e _ hinner ih ihe =>
    rw [entries_push, List.map_append, List.map_append, List.map_append, ih]
    congr 1
    obtain ⟨name, _ | text | inner, comment⟩ := e
    · rfl
    · rfl
    · have hb := (hinner inner rfl).indexed
      have hi := ihe inner rfl
      simp only [List.map_cons, List.map_nil, Entry.item, Item.arranged, arrangedItems_eq,
        hb.items_eq .chosen, hb.items_insertion, hi]
      rfl
  | setSorted sorted _ ih => exact ih

/-- **The default order is an arrangement of the written order.** -/
theorem Built.outline_chosen (h : d.Built) :
    d.outline .chosen = (d.outline .insertion).arranged := by
  simp only [outline, Outline.arranged, h.indexed.items_eq .chosen, h.map_item,
    h.indexed.items_insertion]
  rfl

theorem Built.arranged_chosen (h : d.Built) :
    (d.outline .chosen).arranged = d.outline .chosen := by
  rw [h.outline_chosen, Outline.arranged_arranged]

end Document

/-! ## 3. Documents from items -/

mutual

/-- The content that an item shows. -/
def Item.value : Item → Value
  | .undef _ _ => .undef
  | .param _ text _ => .param text
  | .block _ sorted items _ => .block (Document.addItems (.empty sorted) items)

/-- Add what some items show, without the comments. -/
def Document.addItems : Document → List Item → Document
  | d, [] => d
  | d, it :: rest => Document.addItems (d.set it.name it.value) rest

end

/-- The document with the given items, added in turn. -/
def Document.ofItems (sorted : Bool) (items : List Item) : Document :=
  .addItems (.empty sorted) items

namespace Document

variable {d : Document} {items : List Item}

@[simp] theorem sorted_addItems : (d.addItems items).sorted = d.sorted := by
  induction items generalizing d with
  | nil => rfl
  | cons it items ih => exact ih

theorem addItems_append (d : Document) (items items' : List Item) :
    d.addItems (items ++ items') = (d.addItems items).addItems items' := by
  induction items generalizing d with
  | nil => rfl
  | cons it items ih => exact ih _

/-- The order of a document can be chosen before its entries are added. -/
theorem setSorted_addItems (d : Document) (items : List Item) (sorted : Bool) :
    (d.addItems items).setSorted sorted = (d.setSorted sorted).addItems items := by
  induction items generalizing d with
  | nil => rfl
  | cons it items ih => exact ih _

theorem setSorted_ofItems (sorted sorted' : Bool) (items : List Item) :
    (ofItems sorted items).setSorted sorted' = ofItems sorted' items :=
  setSorted_addItems _ _ _

/-- Adding what was built inside keeps a document built. -/
theorem Built.addItems (h : d.Built)
    (hv : ∀ it ∈ items, ∀ inner, it.value = .block inner → inner.Built) :
    (d.addItems items).Built := by
  induction items generalizing d with
  | nil => exact h
  | cons it items ih =>
    exact ih (h.set it.name (hv it List.mem_cons_self)) fun it' hit' =>
      hv it' (List.mem_cons_of_mem _ hit')

theorem built_of_value (it : Item) (inner : Document) (h : it.value = .block inner) :
    inner.Built := by
  induction it generalizing inner with
  | undef name comment => cases h
  | param name text comment => cases h
  | block name sorted items comment ih =>
    cases h
    exact Built.addItems (.empty sorted) ih

theorem built_ofItems (sorted : Bool) (items : List Item) : (ofItems sorted items).Built :=
  Built.addItems (.empty sorted) fun it _ => built_of_value it

theorem Indexed.addItems (h : d.Indexed) : (d.addItems items).Indexed := by
  induction items generalizing d with
  | nil => exact h
  | cons it items ih => exact ih (h.push _)

/-- A document shows an entry behind all others that is added to it. -/
theorem Indexed.items_push (h : d.Indexed) (e : Entry) :
    (d.push e).items .insertion = d.items .insertion ++ [e.item .insertion] := by
  rw [(h.push e).items_insertion, entries_push, List.map_append, ← h.items_insertion]
  rfl

/-- A document shows what is added to it. -/
theorem Indexed.items_addItems (h : d.Indexed)
    (hv : ∀ it ∈ items, Entry.item .insertion ⟨it.name, it.value, ""⟩ = it.bare) :
    (d.addItems items).items .insertion = d.items .insertion ++ items.map Item.bare := by
  induction items generalizing d with
  | nil => exact (List.append_nil _).symm
  | cons it items ih =>
    have hset : (d.set it.name it.value).Indexed := h.push _
    rw [Document.addItems, ih hset fun it' hit' => hv it' (List.mem_cons_of_mem _ hit'),
      Document.set, h.items_push, hv it List.mem_cons_self, List.append_assoc]
    rfl

/-- A document without entries shows nothing. -/
theorem items_empty (sorted : Bool) : (empty sorted).items .insertion = [] :=
  (indexed_empty sorted).items_insertion

/-- An entry shows what was put into it. -/
theorem item_value (it : Item) :
    Entry.item .insertion ⟨it.name, it.value, ""⟩ = it.bare := by
  induction it with
  | undef name comment => rfl
  | param name text comment => rfl
  | block name sorted items comment ih =>
    have hitems := (indexed_empty sorted).items_addItems ih
    rw [items_empty, List.nil_append] at hitems
    simp only [Item.name, Item.value, Entry.item, sorted_addItems, hitems, Item.bare, bareItems_eq]
    rfl

/-- **A document from items** shows these items without comments. -/
theorem outline_ofItems (sorted : Bool) (items : List Item) :
    (ofItems sorted items).outline .insertion = Outline.bare ⟨sorted, items⟩ := by
  have hitems := (indexed_empty sorted).items_addItems fun it (_ : it ∈ items) => item_value it
  rw [items_empty, List.nil_append] at hitems
  simp only [outline, ofItems, sorted_addItems, hitems, Outline.bare, bareItems_eq]
  rfl

/-- **An outline in default order without comments** is what the document of its items shows. -/
theorem outline_ofItems_eq {o : Outline} (hbare : o.bare = o) (harranged : o.arranged = o) :
    (ofItems o.sorted o.items).outline .chosen = o := by
  rw [(built_ofItems _ _).outline_chosen, outline_ofItems, hbare, harranged]

/-! ## 4. What holds of every entry -/

/-- A property of every entry of a document, at any level. -/
def Each (Q : Item → Prop) (d : Document) : Prop := ∀ x ∈ (d.outline .insertion).preorder, Q x

variable {Q : Item → Prop}

theorem each_empty (sorted : Bool) : Each Q (.empty sorted) := by
  intro x hx
  rw [Outline.preorder, outline, items_empty] at hx
  exact absurd hx List.not_mem_nil

/-- One more entry. -/
theorem Each.set (h : d.Each Q) (hd : d.Indexed) {name : String} {v : Value}
    (hv : ∀ x ∈ (Entry.item .insertion ⟨name, v, ""⟩).preorder, Q x) : (d.set name v).Each Q := by
  intro x hx
  rw [Outline.preorder, outline, Document.set, hd.items_push, mem_itemsPreorder] at hx
  obtain ⟨it, hit, hx⟩ := hx
  rcases List.mem_append.mp hit with hit | hit
  · exact h x (mem_itemsPreorder.mpr ⟨it, hit, hx⟩)
  · obtain rfl := List.mem_singleton.mp hit
    exact hv x hx

theorem Each.set_param (h : d.Each Q) (hd : d.Indexed) {name text : String}
    (hp : Q (.param name text "")) : (d.set name (.param text)).Each Q := by
  refine h.set hd fun x hx => ?_
  rw [Entry.item, Item.preorder, List.mem_singleton] at hx
  exact hx ▸ hp

theorem Each.set_block (h : d.Each Q) (hd : d.Indexed) {name : String} {inner : Document}
    (hb : Q (.block name inner.sorted (inner.items .insertion) "")) (hinner : inner.Each Q) :
    (d.set name (.block inner)).Each Q := by
  refine h.set hd fun x hx => ?_
  rw [Entry.item, Item.preorder, List.mem_cons] at hx
  rcases hx with rfl | hx
  · exact hb
  · exact hinner x hx

/-- The order of a document does not matter to what it holds. -/
theorem Each.setSorted (h : d.Each Q) (hd : d.Indexed) (sorted : Bool) :
    (d.setSorted sorted).Each Q := by
  intro x hx
  refine h x ?_
  rw [Outline.preorder, outline, (hd.setSorted sorted).items_insertion] at hx
  rw [Outline.preorder, outline, hd.items_insertion]
  exact hx

/-- What arranging keeps holds in the default order too. -/
theorem Each.chosen (h : d.Each Q) (hd : d.Built) (hQ : ∀ x, Q x → Q x.arranged) :
    ∀ x ∈ (d.outline .chosen).preorder, Q x := by
  intro x hx
  rw [hd.outline_chosen, Outline.mem_preorder_arranged] at hx
  obtain ⟨y, hy, rfl⟩ := hx
  exact hQ y (h y hy)

/-- How many blocks lie inside each other. -/
def nesting (d : Document) : Nat := (d.outline .insertion).depth

theorem nesting_empty (sorted : Bool) : (empty sorted).nesting = 0 := by
  rw [nesting, Outline.depth, outline, items_empty, itemsDepth]

theorem nesting_push (hd : d.Indexed) (e : Entry) :
    (d.push e).nesting = max d.nesting (e.item .insertion).depth := by
  rw [nesting, Outline.depth, outline, hd.items_push, itemsDepth_append, itemsDepth, itemsDepth,
    Nat.max_zero]
  rfl

theorem nesting_set_param (hd : d.Indexed) (name text : String) :
    (d.set name (.param text)).nesting = d.nesting :=
  (nesting_push hd _).trans (Nat.max_zero _)

theorem nesting_set_block (hd : d.Indexed) (name : String) (inner : Document) :
    (d.set name (.block inner)).nesting = max d.nesting (inner.nesting + 1) := nesting_push hd _

theorem nesting_setSorted (hd : d.Indexed) (sorted : Bool) :
    (d.setSorted sorted).nesting = d.nesting := by
  rw [nesting, Outline.depth, outline, (hd.setSorted sorted).items_insertion]
  rw [nesting, Outline.depth, outline, hd.items_insertion]
  rfl

/-- What holds of some items holds of the document that they make. -/
theorem forall_ofItems {sorted : Bool} {items : List Item} (hQ : ∀ x, Q x → Q x.arranged)
    (h : ∀ x ∈ (Outline.bare ⟨sorted, items⟩).preorder, Q x) :
    ∀ x ∈ ((ofItems sorted items).outline .chosen).preorder, Q x := by
  refine Each.chosen ?_ (built_ofItems sorted items) hQ
  rwa [Each, outline_ofItems]

end Document

end BlockDoc
