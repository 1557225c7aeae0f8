/-
# The words of a grouped encoding

In the grouped layout every entry of a sorted document has two words in front of it, for its place
in the run of its name and for the length of this run.  No reader here looks at them, so reading back
says nothing about them.

The stream of a document is its header and the streams of its entries, and that of a block is its
name and the stream of the document in it: what holds of the stream of any document holds of the
document of every block, however it lies in others (`Inside`).  For one document there are two
questions.

* Which words stand there?  The writer counts, along the items that it writes, how far it is in the
  run.  That is the place of an entry in its run because the names ascend, so that a run is neither
  left before its end nor entered again (`placeItemsAfter_runs`).  It does not matter what is written
  between two entries of a run.
* Which runs are there?  Those that the index hands out (`Document.Indexed.exists_runs`).

Main statement: `build_groups`.
-/
import BlockDoc.Proofs.Binary.Walk
import BlockDoc.Proofs.Document.Views
import Mathlib.Algebra.GroupWithZero.Nat

namespace BlockDoc.Binary

open Document (run)

/-! ## 1. Counting along the items -/

/-- In a run, every item is one further than the item before it. -/
theorem placeItemsAfter_same {name : String} {items : List Item} (h : ∀ it ∈ items, it.name = name)
    (i count : Nat) (rest : List Item) :
    placeItemsAfter (some (name, ⟨i, count⟩)) (items ++ rest) =
      (items.zipIdx (i + 1)).map (fun p => (p.1, ⟨p.2, count⟩)) ++
        placeItemsAfter (some (name, ⟨i + items.length, count⟩)) rest := by
  induction items generalizing i with
  | nil => rfl
  | cons it items ih =>
    obtain ⟨rfl, hitems⟩ := List.forall_mem_cons.mp h
    have hplace : placeAfter (some (it.name, ⟨i, count⟩)) it.name (items ++ rest) =
        ⟨i + 1, count⟩ := if_pos rfl
    have hindex : i + 1 + items.length = i + (items.length + 1) := by omega
    rw [List.cons_append, placeItemsAfter, hplace, ih hitems, hindex]
    rfl

/-- Behind an item with another name and in front of items with other names, a run is counted from
its beginning to its end. -/
theorem placeItemsAfter_run {name : String} {items : List Item} (h : ∀ it ∈ items, it.name = name)
    (hne : items ≠ []) {last : Option (String × Place)} (hlast : ∀ p ∈ last, p.1 ≠ name)
    {rest : List Item} (hrest : ∀ it ∈ rest, it.name ≠ name) :
    ∃ p, placeItemsAfter last (items ++ rest) =
      (items.zipIdx.map fun q => (q.1, ⟨q.2, items.length⟩)) ++
        placeItemsAfter (some (name, p)) rest := by
  cases items with
  | nil => exact absurd rfl hne
  | cons it items =>
    obtain ⟨rfl, hitems⟩ := List.forall_mem_cons.mp h
    have hcount : ((items ++ rest).takeWhile fun x => x.name == it.name).length = items.length := by
      rw [List.takeWhile_append_of_pos fun x hx => by simpa using hitems x hx]
      cases rest with
      | nil => simp
      | cons x rest => simp [hrest x List.mem_cons_self]
    have hplace : placeAfter last it.name (items ++ rest) = ⟨0, items.length + 1⟩ := by
      cases last with
      | none => rw [placeAfter, hcount, Nat.add_comm]
      | some p => rw [placeAfter, if_neg (hlast p rfl), hcount, Nat.add_comm]
    refine ⟨⟨0 + items.length, items.length + 1⟩, ?_⟩
    rw [List.cons_append, placeItemsAfter, hplace, placeItemsAfter_same hitems]
    rfl

/-- **Runs one after the other** are counted each by itself. -/
theorem placeItemsAfter_runs {names : List String} (hn : names.Nodup) {f : String → List Item}
    (hf : ∀ name ∈ names, f name ≠ [] ∧ ∀ it ∈ f name, it.name = name)
    {last : Option (String × Place)} (hlast : ∀ p ∈ last, p.1 ∉ names) :
    placeItemsAfter last (names.flatMap f) =
      names.flatMap fun name => (f name).zipIdx.map fun q => (q.1, ⟨q.2, (f name).length⟩) := by
  induction names generalizing last with
  | nil => rfl
  | cons name names ih =>
    obtain ⟨hname, hn⟩ := List.nodup_cons.mp hn
    obtain ⟨⟨hne, hrun⟩, hf⟩ := List.forall_mem_cons.mp hf
    have hrest : ∀ it ∈ names.flatMap f, it.name ≠ name := by
      intro it hit heq
      obtain ⟨name', hname', hit⟩ := List.mem_flatMap.mp hit
      exact hname (heq ▸ (hf name' hname').2 it hit ▸ hname')
    obtain ⟨p, hp⟩ := placeItemsAfter_run hrun hne
      (fun q hq heq => hlast q hq (heq ▸ List.mem_cons_self)) hrest
    have hbehind : ∀ q ∈ some (name, p), q.1 ∉ names := by
      rintro q ⟨⟩
      exact hname
    rw [List.flatMap_cons, hp, ih hn hf hbehind, List.flatMap_cons]

/-! ## 2. The stream of a document -/

/-- The grouped encoding of a document. -/
def stream (d : Document) : Bytes := encoding .grouped (d.outline .chosen)

/-- The grouped encoding of an entry behind its words. -/
def entryStream (e : Entry) : Bytes :=
  match e.value with
  | .undef => []
  | .param text => Kind.toByte .param :: (wideBytes e.name ++ wideBytes text)
  | .block d => Kind.toByte .block :: (wideBytes e.name ++ stream d)

/-- The length of a run as its entries tell it: the first one alone. -/
def told (p : Place) : Nat := if p.index = 0 then p.count else 0

variable {d x : Document}

theorem itemEncoding_eq_entryStream (e : Entry) :
    itemEncoding .grouped (e.item .chosen) = entryStream e := by
  obtain ⟨name, _ | text | d, comment⟩ := e <;> rfl

/-- The encoding of some items goes from one to the next. -/
theorem itemsEncoding_eq (layout : Layout) (sorted : Bool) (last : Option (String × Place))
    (items : List Item) :
    itemsEncoding layout sorted last items =
      (placeItemsAfter last items).flatMap fun p =>
        placeBytes layout sorted p.2 ++ itemEncoding layout p.1 := by
  induction items generalizing last with
  | nil => rfl
  | cons it items ih =>
    rw [itemsEncoding, placeItemsAfter, List.flatMap_cons, ih, List.append_assoc]

/-- A document has as many items as entries. -/
theorem length_items (h : x.Indexed) : (x.items .chosen).length = x.size := by
  rw [h.items_eq, (orderItems_perm _ _).length_eq, List.length_map, Array.length_toList]
  rfl

/-- **The writer counts as the index does.**  The items of a sorted document have the places that
its entries have in their runs. -/
theorem placeItems_eq (h : x.Indexed) (hsorted : x.sorted = true) :
    placeItems (x.items .chosen) = x.grouped.map fun q => (q.1.item .chosen, q.2) := by
  obtain ⟨names, hnames, hmem, hsort, hgrouped⟩ := h.exists_runs
  have hchosen : x.toList .chosen = _ := h.toList_eq .chosen
  rw [Order.isByName, if_pos hsorted, hsort] at hchosen
  have hruns : ∀ name ∈ names,
      (x.entries.toList.filter (·.name = name)).map (Entry.item .chosen) ≠ [] ∧
        ∀ it ∈ (x.entries.toList.filter (·.name = name)).map (Entry.item .chosen),
          it.name = name := by
    intro name hname
    obtain ⟨e, he, rfl⟩ := (hmem name).mp hname
    refine ⟨List.ne_nil_of_mem (List.mem_map_of_mem (List.mem_filter.mpr ⟨he, by simp⟩)), ?_⟩
    intro it hit
    obtain ⟨e', he', rfl⟩ := List.mem_map.mp hit
    rw [Document.name_item]
    simpa using (List.mem_filter.mp he').2
  rw [Document.items_eq_map, hchosen, hgrouped hsorted, List.map_flatMap, List.map_flatMap,
    placeItems, placeItemsAfter_runs (hnames.imp ne_of_lt) hruns (by simp)]
  refine List.flatMap_congr fun name _ => ?_
  simp [run, List.mapIdx_eq_zipIdx_map, List.zipIdx_map, Function.comp_def]

/-- **The stream of a sorted document**: its entries as the index hands them out, each with its two
words. -/
theorem stream_of_sorted (h : x.Indexed) (hsorted : x.sorted = true) :
    stream x = headerBytes true x.size ++ x.grouped.flatMap fun q =>
      Word.bytes 4 q.2.index ++ (Word.bytes 4 (told q.2) ++ entryStream q.1) := by
  have hplaces : placeItemsAfter none (x.items .chosen) = _ := placeItems_eq h hsorted
  rw [stream, encoding, Document.outline]
  dsimp only
  rw [length_items h, hsorted, itemsEncoding_eq, hplaces, List.flatMap_map]
  refine congrArg _ (List.flatMap_congr fun q _ => ?_)
  rw [itemEncoding_eq_entryStream, ← List.append_assoc]
  rfl

/-- **The stream of any other document**: its entries as they were added, without words. -/
theorem stream_of_unsorted (h : x.Indexed) (hsorted : x.sorted = false) :
    stream x = headerBytes false x.size ++ x.entries.toList.flatMap entryStream := by
  have hchosen : x.toList .chosen = _ := h.toList_eq .chosen
  rw [Order.isByName, if_neg (by simp [hsorted])] at hchosen
  have hnone : ∀ p, placeBytes .grouped false p = [] := fun _ => rfl
  have hitems : (x.items .chosen).flatMap (itemEncoding .grouped) =
      x.entries.toList.flatMap entryStream := by
    rw [Document.items_eq_map, hchosen, List.flatMap_map]
    exact List.flatMap_congr fun e _ => itemEncoding_eq_entryStream e
  rw [stream, encoding, Document.outline]
  dsimp only
  rw [length_items h, hsorted, itemsEncoding_eq, ← hitems]
  conv_rhs => rw [← map_fst_placeItems (x.items .chosen), List.flatMap_map]
  rfl

/-! ## 3. Documents inside -/

/-- A document is another, or the document of a block that lies in it at any depth. -/
inductive Inside : Document → Document → Prop
  /-- The document itself. -/
  | self (d : Document) : Inside d d
  /-- What is inside the document of one of its blocks. -/
  | block {x d inner : Document} {e : Entry} : e ∈ d.entries.toList → e.value = .block inner →
    Inside x inner → Inside x d

/-- What is inside a document that was built was built. -/
theorem Inside.built (h : Inside x d) (hd : d.Built) : x.Built := by
  induction h with
  | self => exact hd
  | block he hv _ ih => exact ih (hd.inner he hv)

/-- One of several parts, one behind the other. -/
theorem isInfix_flatMap {α : Type} {f : α → Bytes} {as : List α} {a : α} (h : a ∈ as) :
    f a <:+: as.flatMap f := by
  obtain ⟨before, after, rfl⟩ := List.append_of_mem h
  rw [List.flatMap_append, List.flatMap_cons]
  exact ⟨before.flatMap f, after.flatMap f, by simp⟩

/-- The stream of an entry lies in that of its document. -/
theorem entryStream_isInfix (h : d.Indexed) {e : Entry} (he : e ∈ d.entries.toList) :
    entryStream e <:+: stream d := by
  cases hsorted : d.sorted with
  | false =>
    rw [stream_of_unsorted h hsorted]
    exact (isInfix_flatMap he).trans (List.suffix_append _ _).isInfix
  | true =>
    have hmem : e ∈ d.grouped.map Prod.fst := by
      rw [h.map_fst_grouped hsorted]
      exact (List.mergeSort_perm _ _).mem_iff.mpr he
    obtain ⟨q, hq, rfl⟩ := List.mem_map.mp hmem
    rw [stream_of_sorted h hsorted]
    refine List.IsInfix.trans ?_ ((isInfix_flatMap hq).trans (List.suffix_append _ _).isInfix)
    exact ((List.suffix_append _ _).trans (List.suffix_append _ _)).isInfix

/-- **The stream of a document lies in that of every document around it.** -/
theorem Inside.isInfix (h : Inside x d) (hd : d.Built) : stream x <:+: stream d := by
  induction h with
  | self => exact List.infix_refl _
  | @block d inner e he hv _ ih =>
    have hentry : stream inner <:+: entryStream e := by
      rw [entryStream, hv]
      exact ⟨Kind.toByte .block :: wideBytes e.name, [], by simp⟩
    exact (ih (hd.inner he hv)).trans (hentry.trans (entryStream_isInfix hd.indexed he))

/-! ## 4. The words -/

/-- The entries of a run tell its length. -/
theorem sum_told_run (es : List Entry) : ((run es).map fun q => told q.2).sum = es.length := by
  cases es with
  | nil => rfl
  | cons e es =>
    have hrest : ∀ n ∈ (es.mapIdx fun i e => (e, Place.mk (i + 1) (es.length + 1))).map
        fun q => told q.2, n = 0 := by
      intro n hn
      obtain ⟨q, hq, rfl⟩ := List.mem_map.mp hn
      obtain ⟨i, hi, rfl⟩ := List.mem_mapIdx.mp hq
      rfl
    rw [run, List.mapIdx_cons, List.map_cons, List.sum_cons, List.length_cons,
      List.sum_eq_zero_iff_forall_eq_nat.mpr hrest]
    rfl

/-- The entries of all runs tell how many entries there are. -/
theorem sum_told_grouped (h : x.Indexed) (hsorted : x.sorted = true) :
    (x.grouped.map fun q => told q.2).sum = x.size := by
  obtain ⟨names, -, -, hsort, hgrouped⟩ := h.exists_runs
  have hsize : x.size = (Document.sortByName x.entries.toList).length :=
    (Array.length_toList.symm.trans (List.mergeSort_perm _ _).length_eq.symm)
  rw [hsize, hsort, hgrouped hsorted]
  clear hsort hgrouped
  induction names with
  | nil => rfl
  | cons name names ih =>
    rw [List.flatMap_cons, List.flatMap_cons, List.map_append, List.sum_append, List.length_append,
      sum_told_run, ih]

/-- No number in a word is greater than the number of entries. -/
theorem place_le_size (h : x.Indexed) (hsorted : x.sorted = true) {q : Entry × Place}
    (hq : q ∈ x.grouped) : q.2.index ≤ x.size ∧ told q.2 ≤ x.size := by
  obtain ⟨names, -, -, -, hgrouped⟩ := h.exists_runs
  rw [hgrouped hsorted] at hq
  obtain ⟨name, -, hq⟩ := List.mem_flatMap.mp hq
  obtain ⟨i, hi, rfl⟩ := List.mem_mapIdx.mp hq
  have hle : (x.entries.toList.filter (·.name = name)).length ≤ x.size :=
    List.length_filter_le _ _
  refine ⟨(hi.trans_le hle).le, ?_⟩
  rw [told]
  split
  · exact hle
  · exact Nat.zero_le _

/-- **The words of a grouped encoding are consistent.**  The encoding is the stream of the document,
and the stream of every document inside is a part of it.

In the stream of a sorted document the names ascend, the entries of each name stand together as they
were added, and each entry has in its two words its number in this run and, if it is the first, the
length of the run; so the lengths add up to the number of entries in the header.  These are the
places that the index hands out.  In the stream of any other document there are no words. -/
theorem build_groups {b : Bytes} (hd : d.Built) (hb : build .grouped d = .ok b) :
    b = stream d ∧ ∀ x, Inside x d →
      stream x <:+: b ∧
      (x.sorted = false →
        stream x = headerBytes false x.size ++ x.entries.toList.flatMap entryStream) ∧
      (x.sorted = true →
        stream x = headerBytes true x.size ++ x.grouped.flatMap (fun q =>
          Word.bytes 4 q.2.index ++ (Word.bytes 4 (told q.2) ++ entryStream q.1)) ∧
        (∃ names : List String, names.Pairwise (· < ·) ∧
          (∀ name, name ∈ names ↔ ∃ e ∈ x.entries.toList, e.name = name) ∧
          x.grouped = names.flatMap fun name => run (x.entries.toList.filter (·.name = name))) ∧
        (x.grouped.map fun q => told q.2).sum = x.size ∧
        (x.size < 2 ^ 32 → ∀ q ∈ x.grouped, Word.value (Word.bytes 4 q.2.index) = q.2.index ∧
          Word.value (Word.bytes 4 (told q.2)) = told q.2)) := by
  have hstream : b = stream d := by
    rw [build] at hb
    split at hb
    next bytes hwrite =>
      cases hb
      exact writeOutline_ok hwrite
    next => cases hb
  refine ⟨hstream, fun x hx => ?_⟩
  have hindexed := (hx.built hd).indexed
  refine ⟨hstream ▸ hx.isInfix hd, stream_of_unsorted hindexed, fun hsorted =>
    ⟨stream_of_sorted hindexed hsorted, ?_, sum_told_grouped hindexed hsorted,
      fun hsize q hq => ?_⟩⟩
  · obtain ⟨names, hnames, hmem, -, hgrouped⟩ := hindexed.exists_runs
    exact ⟨names, hnames, hmem, hgrouped hsorted⟩
  · obtain ⟨hindex, htold⟩ := place_le_size hindexed hsorted hq
    rw [Word.value_bytes, Word.value_bytes]
    exact ⟨Nat.mod_eq_of_lt (hindex.trans_lt hsize), Nat.mod_eq_of_lt (htold.trans_lt hsize)⟩

/-- A sorted document in which a name comes twice. -/
def innermost : Document :=
  .set (.set (.set (.empty true) "x" (.param "1")) "w" (.param "")) "x" (.param "2")

/-- This document in an unsorted one, which comes in the middle of a run of a sorted one. -/
def layered : Document :=
  .set (.set (.set (.empty true) "b" (.param "1"))
    "b" (.block (.set (.empty false) "s" (.block innermost)))) "b" (.param "3")

/-- The words of a document deep inside stand in the encoding, and the lengths add up. -/
theorem build_groups_layered : layered.Built ∧ innermost.sorted = true ∧ Inside innermost layered ∧
    ∃ b, build .grouped layered = .ok b ∧ stream innermost <:+: b ∧
      (innermost.grouped.map fun q => told q.2).sum = 3 := by
  have hinnermost : innermost.Built := by
    refine (((Document.Built.empty true).set "x" ?_).set "w" ?_).set "x" ?_ <;> rintro _ ⟨⟩
  have hmiddle : (Document.set (.empty false) "s" (.block innermost)).Built := by
    refine (Document.Built.empty false).set "s" ?_
    rintro _ ⟨⟩
    exact hinnermost
  have hd : layered.Built := by
    refine (((Document.Built.empty true).set "b" ?_).set "b" ?_).set "b" ?_ <;> rintro _ ⟨⟩
    exact hmiddle
  have hinside : Inside innermost layered :=
    .block (List.mem_cons_of_mem _ List.mem_cons_self) rfl
      (.block List.mem_cons_self rfl (.self innermost))
  have hnone : ∀ v ∈ visits (layered.outline .chosen), v.fault? maxDepth = none := by decide
  have hb : build .grouped layered = .ok (encoding .grouped (layered.outline .chosen)) := by
    rw [build, writeDocument, Layout.order, writeOutline_of_none hnone]
  obtain ⟨hpart, -, hwords⟩ := (build_groups hd hb).2 innermost hinside
  exact ⟨hd, rfl, hinside, _, hb, hpart, (hwords rfl).2.2.1⟩

end BlockDoc.Binary
