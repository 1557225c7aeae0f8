/-
# Equal documents

Documents are equal when their outlines in default order are.  That is the same as reading both
entry by entry in default order and finding the same name, comment and content at every place, and
the same again inside each block (`beq_iff_alike`).  How the entries were written does not count in
a sorted document, so equal documents may differ in all of their fields.

Equal documents cannot be told apart all the same (`beq_congruence`).  What reads a whole document
reads its outline.  What reads by name sees the entries with the name in the order in which they
were written, and sorting by name keeps this order: so it sees the items with the name in the
outline (`Indexed.map_named`), and a path follows the first of them through equal blocks
(`follow_agree`).  One more entry goes behind the others of its name, whatever the order is
(`orderItems_append_congr`), so documents stay equal when equal entries are pushed.
-/
import BlockDoc.Outcome
import BlockDoc.Proofs.Binary.Accepted
import BlockDoc.Proofs.Document.Views
import BlockDoc.Proofs.Dump.Image

namespace BlockDoc

open Multimap (under sortByKey under_sortByKey eq_of_under pairwise_sortByKey)

/-! ## 1. Reading alike -/

/-- Entries read alike: place by place they have the same name, the same comment and the same kind
of content.  Parameters have the same text, and blocks the same flag and entries in default order
that read alike. -/
inductive EntriesAlike : List Entry → List Entry → Prop
  | nil : EntriesAlike [] []
  | undef {es fs : List Entry} (name comment : String) : EntriesAlike es fs →
      EntriesAlike (⟨name, .undef, comment⟩ :: es) (⟨name, .undef, comment⟩ :: fs)
  | param {es fs : List Entry} (name text comment : String) : EntriesAlike es fs →
      EntriesAlike (⟨name, .param text, comment⟩ :: es) (⟨name, .param text, comment⟩ :: fs)
  | block {es fs : List Entry} {a b : Document} (name comment : String) : a.sorted = b.sorted →
      EntriesAlike (a.toList .chosen) (b.toList .chosen) → EntriesAlike es fs →
      EntriesAlike (⟨name, .block a, comment⟩ :: es) (⟨name, .block b, comment⟩ :: fs)

/-- Documents read alike: they have the same flag, and entries in default order that read alike. -/
def Document.Alike (a b : Document) : Prop :=
  a.sorted = b.sorted ∧ EntriesAlike (a.toList .chosen) (b.toList .chosen)

/-- Entries that show the same read alike, if single entries can be put in front. -/
theorem entriesAlike_of_cons {items : List Item} {es fs : List Entry}
    (hcons : ∀ it ∈ items, ∀ {e f : Entry} {es fs : List Entry}, e.item .chosen = it →
      f.item .chosen = it → EntriesAlike es fs → EntriesAlike (e :: es) (f :: fs))
    (he : es.map (Entry.item .chosen) = items) (hf : fs.map (Entry.item .chosen) = items) :
    EntriesAlike es fs := by
  induction items generalizing es fs with
  | nil =>
    rw [List.map_eq_nil_iff] at he hf
    rw [he, hf]
    exact .nil
  | cons it items ih =>
    obtain ⟨e, es, rfl, hit, hes⟩ := List.map_eq_cons_iff.mp he
    obtain ⟨f, fs, rfl, hit', hfs⟩ := List.map_eq_cons_iff.mp hf
    exact hcons it List.mem_cons_self hit hit'
      (ih (fun x hx => hcons x (List.mem_cons_of_mem _ hx)) hes hfs)

/-- Two entries that show one item can be put in front of entries that read alike. -/
theorem EntriesAlike.cons (it : Item) {e f : Entry} {es fs : List Entry}
    (he : e.item .chosen = it) (hf : f.item .chosen = it) (h : EntriesAlike es fs) :
    EntriesAlike (e :: es) (f :: fs) := by
  induction it generalizing e f es fs with
  | undef name comment =>
    rw [Document.item_eq_undef.mp he, Document.item_eq_undef.mp hf]
    exact .undef name comment h
  | param name text comment =>
    rw [Document.item_eq_param.mp he, Document.item_eq_param.mp hf]
    exact .param name text comment h
  | block name sorted items comment ih =>
    obtain ⟨a, rfl, hsorted, hitems⟩ := Document.item_eq_block.mp he
    obtain ⟨b, rfl, hsorted', hitems'⟩ := Document.item_eq_block.mp hf
    rw [Document.items_eq_map] at hitems hitems'
    exact .block name comment (hsorted.trans hsorted'.symm)
      (entriesAlike_of_cons ih hitems hitems') h

/-- **Entries read alike if and only if they show the same.** -/
theorem entriesAlike_iff {es fs : List Entry} :
    EntriesAlike es fs ↔ es.map (Entry.item .chosen) = fs.map (Entry.item .chosen) := by
  constructor
  · intro h
    induction h with
    | nil => rfl
    | undef name comment _ ih => simp only [List.map_cons, Entry.item, ih]
    | param name text comment _ ih => simp only [List.map_cons, Entry.item, ih]
    | block name comment hflag _ _ ihinner ih =>
      simp only [List.map_cons, Entry.item, Document.items_eq_map, hflag, ihinner, ih]
  · intro h
    exact entriesAlike_of_cons (fun it _ => EntriesAlike.cons it) h rfl

/-! ## 2. Equality -/

theorem Document.beq_iff {a b : Document} :
    (a == b) = true ↔ a.sorted = b.sorted ∧ a.items .chosen = b.items .chosen := by
  have h : (a == b) = true ↔ a.outline .chosen = b.outline .chosen := decide_eq_true_iff
  rw [h, outline, outline, Outline.mk.injEq]

theorem Entry.beq_iff {e f : Entry} : (e == f) = true ↔ e.item .chosen = f.item .chosen :=
  decide_eq_true_iff

/-- **Documents are equal if and only if they read alike.** -/
theorem Document.beq_iff_alike {a b : Document} : (a == b) = true ↔ a.Alike b := by
  rw [beq_iff, Alike, entriesAlike_iff, items_eq_map, items_eq_map]

theorem Document.beq_equivalence : Equivalence fun a b : Document => (a == b) = true where
  refl _ := decide_eq_true rfl
  symm h := decide_eq_true (of_decide_eq_true h).symm
  trans h h' := decide_eq_true ((of_decide_eq_true h).trans (of_decide_eq_true h'))

/-- **Equal entries have the same kind**, and blocks that are equal. -/
theorem Entry.beq_cases {e f : Entry} (h : (e == f) = true) :
    (∃ name comment, e = ⟨name, .undef, comment⟩ ∧ f = ⟨name, .undef, comment⟩) ∨
    (∃ name text comment, e = ⟨name, .param text, comment⟩ ∧ f = ⟨name, .param text, comment⟩) ∨
    ∃ name a b comment, e = ⟨name, .block a, comment⟩ ∧ f = ⟨name, .block b, comment⟩ ∧
      (a == b) = true := by
  have hitem : f.item .chosen = e.item .chosen := (Entry.beq_iff.mp h).symm
  cases hkind : e.item .chosen with
  | undef name comment =>
    rw [hkind] at hitem
    exact .inl ⟨name, comment, Document.item_eq_undef.mp hkind, Document.item_eq_undef.mp hitem⟩
  | param name text comment =>
    rw [hkind] at hitem
    exact .inr (.inl ⟨name, text, comment, Document.item_eq_param.mp hkind,
      Document.item_eq_param.mp hitem⟩)
  | block name sorted items comment =>
    rw [hkind] at hitem
    obtain ⟨a, ha, hsorted, hitems⟩ := Document.item_eq_block.mp hkind
    obtain ⟨b, hb, hsorted', hitems'⟩ := Document.item_eq_block.mp hitem
    exact .inr (.inr ⟨name, a, b, comment, ha, hb,
      Document.beq_iff.mpr ⟨hsorted.trans hsorted'.symm, hitems.trans hitems'.symm⟩⟩)

/-- Lists of entries are equal if they show the same. -/
theorem entries_beq_iff {es fs : List Entry} :
    (es == fs) = true ↔ es.map (Entry.item .chosen) = fs.map (Entry.item .chosen) := by
  induction es generalizing fs with
  | nil => cases fs <;> simp
  | cons e es ih =>
    cases fs with
    | nil => simp
    | cons f fs => simp [List.cons_beq_cons, Entry.beq_iff, ih]

/-! ## 3. Orders -/

/-- The items of one name, by way of pairs. -/
theorem under_names (items : List Item) (name : String) :
    under (items.map fun it => (it.name, it)) name = items.filter (·.name = name) := by
  rw [under, List.filter_map, List.map_map]
  exact List.map_id' _

/-- Sorting items is sorting pairs. -/
theorem map_names_sortItems (items : List Item) :
    (sortItems items).map (fun it => (it.name, it)) =
      sortByKey (items.map fun it => (it.name, it)) :=
  List.map_mergeSort fun _ _ _ _ => rfl

/-- **Sorting keeps the items of one name** in their order. -/
theorem filter_orderItems (sorted : Bool) (items : List Item) (name : String) :
    (orderItems sorted items).filter (·.name = name) = items.filter (·.name = name) := by
  cases sorted with
  | false => rfl
  | true =>
    rw [orderItems, if_pos rfl, ← under_names, ← under_names, map_names_sortItems, under_sortByKey]

/-- **Sorted items are known by the items of each name.** -/
theorem sortItems_eq_iff {items items' : List Item} :
    sortItems items = sortItems items' ↔
      ∀ name, items.filter (·.name = name) = items'.filter (·.name = name) := by
  constructor
  · intro h name
    have hfilter := filter_orderItems true items name
    rw [orderItems, if_pos rfl, h] at hfilter
    exact hfilter.symm.trans (filter_orderItems true items' name)
  · intro h
    have hpairs : sortByKey (items.map fun it => (it.name, it)) =
        sortByKey (items'.map fun it => (it.name, it)) := by
      refine eq_of_under (pairwise_sortByKey _) (pairwise_sortByKey _) fun name => ?_
      rw [under_sortByKey, under_sortByKey, under_names, under_names, h]
    rw [← map_names_sortItems, ← map_names_sortItems] at hpairs
    exact List.map_injective_iff.mpr (fun _ _ hpair => congrArg Prod.snd hpair) hpairs

/-- Neighbours with different names may be written in either order. -/
theorem sortItems_swap {x y : Item} (h : x.name ≠ y.name) (items : List Item) :
    sortItems (x :: y :: items) = sortItems (y :: x :: items) := by
  refine sortItems_eq_iff.mpr fun name => ?_
  by_cases hx : x.name = name
  · have hy : y.name ≠ name := by
      intro hy
      exact h (hx.trans hy.symm)
    simp only [List.filter_cons, hx, hy, decide_true, decide_false, Bool.false_eq_true, if_true,
      if_false]
  · simp only [List.filter_cons, hx, decide_false, Bool.false_eq_true, if_false]

/-- **What is in the same order stays so** when items are added behind. -/
theorem orderItems_append_congr {sorted : Bool} {items items' : List Item}
    (h : orderItems sorted items = orderItems sorted items') (more : List Item) :
    orderItems sorted (items ++ more) = orderItems sorted (items' ++ more) := by
  cases sorted with
  | false =>
    have hitems : items = items' := h
    rw [hitems]
  | true =>
    refine sortItems_eq_iff.mpr fun name => ?_
    rw [List.filter_append, List.filter_append, sortItems_eq_iff.mp h]

/-! ## 4. What a reader by name sees -/

namespace Document

variable {a b d : Document}

/-- **The entries with a name** show the items with this name. -/
theorem Indexed.map_named (h : d.Indexed) (name : String) :
    (d.named name).map (Entry.item .chosen) = (d.items .chosen).filter (·.name = name) := by
  rw [h.named_eq, h.items_eq, filter_orderItems, List.filter_map]
  congr 1
  refine List.filter_congr fun e _ => ?_
  simp [name_item]

/-- The readers of single facts about a name look at the entries with the name. -/
theorem Indexed.first?_eq (h : d.Indexed) (name : String) :
    d.first? name = (d.named name).head? := by
  have hseen : d.Observes d.sorted d.entries.toList := Records.observes ⟨h, rfl, rfl⟩
  rw [hseen.first?, hseen.named]

theorem Indexed.count_eq (h : d.Indexed) (name : String) :
    d.count name = (d.named name).length := by
  have hseen : d.Observes d.sorted d.entries.toList := Records.observes ⟨h, rfl, rfl⟩
  rw [hseen.count, hseen.named]

theorem Indexed.contains_iff (h : d.Indexed) (name : String) :
    d.contains name = true ↔ d.named name ≠ [] := by
  have hseen : d.Observes d.sorted d.entries.toList := Records.observes ⟨h, rfl, rfl⟩
  rw [hseen.contains, hseen.named]

theorem Indexed.size_eq (h : d.Indexed) : d.size = (d.items .chosen).length := by
  rw [h.items_eq, (orderItems_perm _ _).length_eq, List.length_map, Array.length_toList]
  rfl

/-- **Equal documents have equal entries under each name.** -/
theorem map_named_congr (ha : a.Indexed) (hb : b.Indexed) (h : (a == b) = true) (name : String) :
    (a.named name).map (Entry.item .chosen) = (b.named name).map (Entry.item .chosen) := by
  rw [ha.map_named, hb.map_named, (beq_iff.mp h).2]

/-- Equal documents find equal entries under a name, or none in both. -/
theorem get_agree (ha : a.Indexed) (hb : b.Indexed) (h : (a == b) = true) (name : String) :
    OutcomesAgree (fun es fs => (es == fs) = true) (a.get name) (b.get name) := by
  have hlist := map_named_congr ha hb h name
  rw [get, get]
  cases hea : a.named name with
  | nil =>
    rw [hea, List.map_nil, eq_comm, List.map_eq_nil_iff] at hlist
    rw [hlist]
    exact .error _
  | cons e es =>
    rw [hea, List.map_cons, eq_comm, List.map_eq_cons_iff] at hlist
    obtain ⟨f, fs, hfb, hef, hes⟩ := hlist
    rw [hfb]
    refine .ok (entries_beq_iff.mpr ?_)
    rw [List.map_cons, List.map_cons, hef, hes]

/-- **Equal documents have equal first entries** under each name, or both have none. -/
theorem first?_cases (ha : a.Indexed) (hb : b.Indexed) (h : (a == b) = true) (name : String) :
    (a.first? name = none ∧ b.first? name = none) ∨
    ∃ e f, a.first? name = some e ∧ b.first? name = some f ∧ (e == f) = true := by
  have hfirst : (b.first? name).map (Entry.item .chosen) =
      (a.first? name).map (Entry.item .chosen) := by
    rw [ha.first?_eq, hb.first?_eq, ← List.head?_map, ← List.head?_map, map_named_congr ha hb h]
  cases hea : a.first? name with
  | none =>
    rw [hea, Option.map_none, Option.map_eq_none_iff] at hfirst
    exact .inl ⟨rfl, hfirst⟩
  | some e =>
    rw [hea, Option.map_some, Option.map_eq_some_iff] at hfirst
    obtain ⟨f, hfb, hitem⟩ := hfirst
    exact .inr ⟨e, f, rfl, hfb, Entry.beq_iff.mpr hitem.symm⟩

/-- The oldest entry with a name is an entry. -/
theorem Indexed.mem_of_first? (h : d.Indexed) {name : String} {e : Entry}
    (he : d.first? name = some e) : e ∈ d.entries.toList := by
  rw [h.first?_eq, h.named_eq] at he
  exact List.mem_of_mem_filter (List.mem_of_head? he)

/-- **A path leads to equal entries in equal documents**, or fails in both in the same way. -/
theorem follow_agree (ha : a.Built) (hb : b.Built) (h : (a == b) = true) (path : String)
    (start : Nat) (segments : List String) :
    OutcomesAgree (OutcomesAgree fun e f => (e == f) = true) (a.follow path start segments)
      (b.follow path start segments) := by
  induction segments generalizing a b start with
  | nil => exact .error _
  | cons segment rest ih =>
    rw [follow, follow]
    rcases first?_cases ha.indexed hb.indexed h segment with ⟨hea, hfb⟩ | ⟨e, f, hea, hfb, hef⟩
    · rw [hea, hfb]
      cases Text.takeBytes? (start + segment.utf8ByteSize) path.toList with
      | none => exact .error _
      | some passed => exact .ok (.error _)
    rw [hea, hfb]
    by_cases hrest : rest.isEmpty = true
    · simp only [hrest, if_true]
      exact .ok (.ok hef)
    · simp only [hrest]
      -- the first entries have the same kind, and the path goes on if they are blocks
      rcases Entry.beq_cases hef with ⟨name, comment, rfl, rfl⟩ | ⟨name, text, comment, rfl, rfl⟩ |
        ⟨name, x, y, comment, rfl, rfl, hxy⟩
      · exact .ok (.error _)
      · exact .ok (.error _)
      · have hx : x.Built := ha.inner (ha.indexed.mem_of_first? hea) rfl
        have hy : y.Built := hb.inner (hb.indexed.mem_of_first? hfb) rfl
        exact ih hx hy hxy _

theorem resolve_agree (ha : a.Built) (hb : b.Built) (h : (a == b) = true) (path : String) :
    OutcomesAgree (fun e f => (e == f) = true) (a.resolve path) (b.resolve path) := by
  have hfollow := follow_agree ha hb h (Text.trimmed path) 0 (segments (Text.trimmed path))
  rw [resolve, resolve, resolveChecked, resolveChecked]
  generalize a.follow _ _ _ = x at hfollow ⊢
  generalize b.follow _ _ _ = y at hfollow ⊢
  cases hfollow with
  | ok houtcome => exact houtcome
  | error slip => exact .error _

/-- **A path leads to equal parameters** in equal documents. -/
theorem getParam_congr (ha : a.Built) (hb : b.Built) (h : (a == b) = true) (path : String) :
    a.getParam path = b.getParam path := by
  refine OutcomesAgree.eq ((resolve_agree ha hb h path).bind ?_)
  intro e f hef
  rcases Entry.beq_cases hef with ⟨name, comment, rfl, rfl⟩ | ⟨name, text, comment, rfl, rfl⟩ |
    ⟨name, x, y, comment, rfl, rfl, -⟩
  · exact .error _
  · exact .ok rfl
  · exact .error _

/-- **A path leads to equal blocks** in equal documents. -/
theorem getBlock_agree (ha : a.Built) (hb : b.Built) (h : (a == b) = true) (path : String) :
    OutcomesAgree (fun x y => (x == y) = true) (a.getBlock path) (b.getBlock path) := by
  refine (resolve_agree ha hb h path).bind ?_
  intro e f hef
  rcases Entry.beq_cases hef with ⟨name, comment, rfl, rfl⟩ | ⟨name, text, comment, rfl, rfl⟩ |
    ⟨name, x, y, comment, rfl, rfl, hxy⟩
  · exact .error _
  · exact .error _
  · exact .ok hxy

/-- **Equal documents stay equal** when equal entries are pushed. -/
theorem push_congr (ha : a.Indexed) (hb : b.Indexed) (h : (a == b) = true) {e f : Entry}
    (hef : (e == f) = true) : (a.push e == b.push f) = true := by
  obtain ⟨hflag, hitems⟩ := beq_iff.mp h
  have hflag' : (a.push e).sorted = (b.push f).sorted := hflag
  refine beq_iff.mpr ⟨hflag', ?_⟩
  rw [ha.items_eq, hb.items_eq, hflag] at hitems
  rw [(ha.push e).items_eq, (hb.push f).items_eq, hflag', entries_push, entries_push,
    List.map_append, List.map_append, List.map_singleton, List.map_singleton,
    ← Entry.beq_iff.mp hef]
  exact orderItems_append_congr hitems _

/-! ## 5. Documents that cannot be told apart -/

/-- Whatever is asked of two documents, the answers are equal; and they are still equal documents
when equal entries were pushed. -/
structure Indistinguishable (a b : Document) : Prop where
  /-- Pushing. -/
  push : ∀ e f : Entry, (e == f) = true → (a.push e == b.push f) = true
  /-- The number of entries. -/
  size : a.size = b.size
  /-- The entries with a name, or that there are none. -/
  get : ∀ name, OutcomesAgree (fun es fs => (es == fs) = true) (a.get name) (b.get name)
  /-- The oldest entry with a name. -/
  first? : ∀ name, (a.first? name == b.first? name) = true
  /-- The number of entries with a name. -/
  count : ∀ name, a.count name = b.count name
  /-- Whether there is an entry with a name. -/
  contains : ∀ name, a.contains name = b.contains name
  /-- The text at a path, or why there is none. -/
  getParam : ∀ path, a.getParam path = b.getParam path
  /-- The block at a path, or why there is none. -/
  getBlock : ∀ path,
    OutcomesAgree (fun x y => (x == y) = true) (a.getBlock path) (b.getBlock path)
  /-- The text of the document, or why it has none. -/
  format : Dump.format a = Dump.format b
  /-- The bytes of the document with its entries in groups, or why it has none. -/
  build : Binary.build .grouped a = Binary.build .grouped b

/-- **Equal documents give equal answers.** -/
theorem indistinguishable_of_beq (ha : a.Built) (hb : b.Built) (h : (a == b) = true) :
    Indistinguishable a b := by
  have houtline : a.outline .chosen = b.outline .chosen := of_decide_eq_true h
  have hnamed := map_named_congr ha.indexed hb.indexed h
  have hlength : ∀ name, (a.named name).length = (b.named name).length := by
    intro name
    rw [← List.length_map (Entry.item .chosen), hnamed, List.length_map]
  refine ⟨?_, ?_, get_agree ha.indexed hb.indexed h, ?_, ?_, ?_, getParam_congr ha hb h,
    getBlock_agree ha hb h, Dump.format_congr houtline, Binary.build_congr houtline⟩
  · intro e f hef
    exact push_congr ha.indexed hb.indexed h hef
  · rw [ha.indexed.size_eq, hb.indexed.size_eq, (beq_iff.mp h).2]
  · intro name
    rcases first?_cases ha.indexed hb.indexed h name with ⟨hea, hfb⟩ | ⟨e, f, hea, hfb, hef⟩
    · rw [hea, hfb]
      rfl
    · rw [hea, hfb]
      exact hef
  · intro name
    rw [ha.indexed.count_eq, hb.indexed.count_eq, hlength]
  · intro name
    rw [Bool.eq_iff_iff, ha.indexed.contains_iff, hb.indexed.contains_iff, ← List.length_pos_iff,
      ← List.length_pos_iff, hlength]

/-- **Equality is a congruence.**  It is an equivalence, documents are equal if and only if they read
alike in default order, at every level, and documents that were built and are equal cannot be told
apart. -/
theorem beq_congruence :
    (Equivalence fun a b : Document => (a == b) = true) ∧
    (∀ a b : Document, (a == b) = true ↔ a.Alike b) ∧
    ∀ a b : Document, a.Built → b.Built → (a == b) = true → Indistinguishable a b :=
  ⟨beq_equivalence, fun _ _ => beq_iff_alike, fun _ _ => indistinguishable_of_beq⟩

/-- Two names, the second one twice, and a block with two entries. -/
def written : Document :=
  .ofItems true [.param "b" "1" "", .block "a" true [.param "y" "" "", .param "x" "" ""] "",
    .param "b" "2" ""]

/-- The same, written in another order. -/
def rewritten : Document :=
  .ofItems true [.block "a" true [.param "x" "" "", .param "y" "" ""] "", .param "b" "1" "",
    .param "b" "2" ""]

/-- Documents that were written in different orders and are equal. -/
theorem beq_congruence_rewritten : written.Built ∧ rewritten.Built ∧
    (written.outline .insertion == rewritten.outline .insertion) = false ∧
    (written == rewritten) = true ∧ Indistinguishable written rewritten := by
  have hwritten : written.Built := built_ofItems _ _
  have hrewritten : rewritten.Built := built_ofItems _ _
  have hequal : (written == rewritten) = true := by
    refine decide_eq_true ?_
    rw [hwritten.outline_chosen, hrewritten.outline_chosen, written, rewritten, outline_ofItems,
      outline_ofItems]
    simp only [Outline.arranged, Outline.bare, arrangedItems, bareItems, Item.arranged, Item.bare,
      orderItems, if_true]
    rw [sortItems_swap (x := .param "b" "1" "") (by decide),
      sortItems_swap (x := .param "y" "" "") (by decide)]
  have hdiffers : (written.outline .insertion == rewritten.outline .insertion) = false := by
    rw [written, rewritten, outline_ofItems, outline_ofItems]
    decide
  exact ⟨hwritten, hrewritten, hdiffers, hequal,
    beq_congruence.2.2 written rewritten hwritten hrewritten hequal⟩

end Document

end BlockDoc
