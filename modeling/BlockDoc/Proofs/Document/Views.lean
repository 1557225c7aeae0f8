/-
# Two views of the same entries

Whatever is done to a document, it is known by two things: the entries that were pushed, in order,
and the flag that was chosen last.  `Records` relates the three fields of a document to this record,
every change keeps the relation (`Records.apply`), and a document that is so related answers every
reader from the record alone (`Records.observes`).

The readers by name go through the numbers that the index holds under a name.  Those are the
numbers of the entries with this name in the order of the record (`exists_numbered`), so picking
the entries by them is filtering the record.  The runs of a sorted document need one more step: the
index has its runs one after the other (`Indexed.exists_runs`), and the place of an entry in its run
is its place among all entries of its name because no other run has this name (`places_flatMap`).
-/
import BlockDoc.Document.Lookup
import BlockDoc.Proofs.Document.Built

namespace BlockDoc.Document

open Multimap (under sortByKey)

/-! ## 1. Changes -/

/-- A change of a document. -/
inductive Change where
  /-- Add an entry without a comment. -/
  | set (name : String) (value : Value)
  /-- Add an entry. -/
  | push (e : Entry)
  /-- Choose the default order. -/
  | setSorted (sorted : Bool)

/-- The effect of a change. -/
def Change.apply : Change → Document → Document
  | .set name value, d => d.set name value
  | .push e, d => d.push e
  | .setSorted sorted, d => d.setSorted sorted

/-- The entry that a change adds. -/
def Change.entry? : Change → Option Entry
  | .set name value => some ⟨name, value, ""⟩
  | .push e => some e
  | .setSorted _ => none

/-- The flag after a change. -/
def Change.flag (sorted : Bool) : Change → Bool
  | .setSorted sorted' => sorted'
  | _ => sorted

/-- The document after some changes. -/
def after (changes : List Change) (d : Document) : Document :=
  changes.foldl (fun d c => c.apply d) d

/-- The entries that some changes add, in order. -/
def pushed (changes : List Change) : List Entry := changes.filterMap Change.entry?

/-- The flag after some changes. -/
def flagAfter (changes : List Change) (sorted : Bool) : Bool := changes.foldl Change.flag sorted

/-! ## 2. What a reader should see -/

/-- Entries in the order of their names; equal names stay in their order. -/
def sortByName (es : List Entry) : List Entry := es.mergeSort fun a b => a.name ≤ b.name

/-- Every entry with its place among those of its name: how many of them come before, and how many
there are. -/
def places (es : List Entry) : List (Entry × Place) :=
  es.mapIdx fun i e =>
    (e, ⟨(es.take i).countP (·.name = e.name), es.countP (·.name = e.name)⟩)

/-- Every reader of a document returns what the flag and the entries in the order in which they
were pushed have to say. -/
structure Observes (d : Document) (sorted : Bool) (es : List Entry) : Prop where
  /-- The flag. -/
  flag : d.sorted = sorted
  /-- The number of entries. -/
  size : d.size = es.length
  /-- Whether there is no entry. -/
  isEmpty : d.isEmpty = es.isEmpty
  /-- Each order leads to every entry once. -/
  positions : ∀ o, (d.positions o).Perm (List.range es.length)
  /-- The entries as they were pushed. -/
  insertion : d.toList .insertion = es
  /-- The entries sorted stably by name. -/
  byName : d.toList .byName = sortByName es
  /-- The entries in the order that the flag says. -/
  chosen : d.toList .chosen = if sorted then sortByName es else es
  /-- The entries with a name. -/
  named : ∀ name, d.named name = es.filter (·.name = name)
  /-- The same, of which there must be one. -/
  get : ∀ name, d.get name =
    if es.filter (·.name = name) = [] then .error (.keyNotFound name)
    else .ok (es.filter (·.name = name))
  /-- The oldest entry with a name. -/
  first? : ∀ name, d.first? name = (es.filter (·.name = name)).head?
  /-- The number of entries with a name. -/
  count : ∀ name, d.count name = (es.filter (·.name = name)).length
  /-- Whether there is an entry with a name. -/
  contains : ∀ name, d.contains name = true ↔ es.filter (·.name = name) ≠ []
  /-- The entries in default order, those of a sorted document with their places in the runs. -/
  grouped : d.grouped = if sorted then places (sortByName es) else es.map (·, .alone)

/-! ## 3. Numbers under a name -/

/-- **The numbers under a name** are those of the entries with the name, in order. -/
theorem exists_numbered (xs : Array Entry) (name : String) :
    ∃ ps : List (Entry × Nat), (∀ p ∈ ps, p ∈ xs.toList.zipIdx) ∧
      under (nameIndex xs.toList) name = ps.map Prod.snd ∧
      xs.toList.filter (·.name = name) = ps.map Prod.fst := by
  refine ⟨xs.toList.zipIdx.filter fun p => p.1.name = name,
    fun p hp => (List.mem_filter.mp hp).1, ?_, ?_⟩
  · rw [under, nameIndex, List.filter_map, List.map_map]
    rfl
  · conv_lhs => rw [← List.zipIdx_map_fst 0 xs.toList, List.filter_map]
    rfl

theorem filterMap_under (xs : Array Entry) (name : String) :
    (under (nameIndex xs.toList) name).filterMap (xs[·]?) = xs.toList.filter (·.name = name) := by
  obtain ⟨ps, hps, hu, hf⟩ := exists_numbered xs name
  rw [hu, hf, filterMap_zipIdx hps]

theorem length_under (xs : Array Entry) (name : String) :
    (under (nameIndex xs.toList) name).length = (xs.toList.filter (·.name = name)).length := by
  obtain ⟨ps, -, hu, hf⟩ := exists_numbered xs name
  rw [hu, hf, List.length_map, List.length_map]

/-- The oldest entry with a name. -/
theorem head?_under (xs : Array Entry) (name : String) :
    (under (nameIndex xs.toList) name).head?.bind (xs[·]?) =
      (xs.toList.filter (·.name = name)).head? := by
  obtain ⟨ps, hps, hu, hf⟩ := exists_numbered xs name
  rw [hu, hf]
  cases ps with
  | nil => rfl
  | cons p ps => exact getElem?_of_mem_zipIdx (hps p List.mem_cons_self)

/-- A run of entries with their places. -/
def run (es : List Entry) : List (Entry × Place) := es.mapIdx fun i e => (e, ⟨i, es.length⟩)

theorem map_fst_run (es : List Entry) : (run es).map Prod.fst = es := by
  rw [run, List.mapIdx_eq_zipIdx_map, List.map_map]
  exact List.zipIdx_map_fst 0 es

/-- Numbers with their places pick the entries with these places. -/
theorem filterMap_places {xs : Array Entry} {ps : List (Entry × Nat)}
    (h : ∀ p ∈ ps, p ∈ xs.toList.zipIdx) (count start : Nat) :
    ((ps.map Prod.snd).zipIdx start).filterMap
        (fun (n, i) => xs[n]?.map (·, Place.mk i count)) =
      ((ps.map Prod.fst).zipIdx start).map fun (e, i) => (e, Place.mk i count) := by
  induction ps generalizing start with
  | nil => rfl
  | cons p ps ih =>
    have hp := getElem?_of_mem_zipIdx (h p List.mem_cons_self)
    rw [List.map_cons, List.map_cons, List.zipIdx_cons, List.zipIdx_cons, List.map_cons,
      List.filterMap_cons, ih fun q hq => h q (List.mem_cons_of_mem _ hq)]
    simp only [hp, Option.map_some]

/-- The numbers under a name, each with its place, pick the run of the name. -/
theorem filterMap_run (xs : Array Entry) (name : String) :
    (under (nameIndex xs.toList) name).zipIdx.filterMap (fun (n, i) =>
        xs[n]?.map (·, Place.mk i (under (nameIndex xs.toList) name).length)) =
      run (xs.toList.filter (·.name = name)) := by
  rw [run, List.mapIdx_eq_zipIdx_map, length_under]
  obtain ⟨ps, hps, hu, hf⟩ := exists_numbered xs name
  rw [hu, hf]
  exact filterMap_places hps _ 0

/-! ## 4. Places -/

/-- Entries with other names do not matter to the places. -/
theorem places_append {es fs : List Entry} (h : ∀ e ∈ es, ∀ f ∈ fs, e.name ≠ f.name) :
    places (es ++ fs) = places es ++ places fs := by
  have hes : ∀ e ∈ es, fs.countP (·.name = e.name) = 0 := fun e he =>
    List.countP_eq_zero.mpr fun f hf => by simpa using (h e he f hf).symm
  have hfs : ∀ f ∈ fs, es.countP (·.name = f.name) = 0 := fun f hf =>
    List.countP_eq_zero.mpr fun e he => by simpa using h e he f hf
  rw [places, List.mapIdx_append]
  congr 1
  · refine List.mapIdx_eq_mapIdx_iff.mpr fun i hi => ?_
    rw [List.take_append_of_le_length hi.le, List.countP_append, hes _ (List.getElem_mem hi),
      Nat.add_zero]
  · refine List.mapIdx_eq_mapIdx_iff.mpr fun i hi => ?_
    rw [Nat.add_comm i, List.take_length_add_append, List.countP_append, List.countP_append,
      hfs _ (List.getElem_mem hi), Nat.zero_add, Nat.zero_add]

/-- Entries that have one name are a run. -/
theorem places_run {es : List Entry} {name : String} (h : ∀ e ∈ es, e.name = name) :
    places es = run es := by
  refine List.mapIdx_eq_mapIdx_iff.mpr fun i hi => ?_
  have hcount : ∀ fs : List Entry, (∀ f ∈ fs, f ∈ es) →
      fs.countP (·.name = es[i].name) = fs.length := fun fs hfs =>
    List.countP_eq_length.mpr fun f hf => by
      simp [h f (hfs f hf), h _ (List.getElem_mem hi)]
  rw [hcount _ fun f hf => List.mem_of_mem_take hf, hcount _ fun f hf => hf,
    List.length_take_of_le hi.le]

/-- **Runs one after the other**: the place of an entry in its run is its place among all entries
of its name. -/
theorem places_flatMap (es : List Entry) {names : List String} (hn : names.Nodup) :
    places (names.flatMap fun name => es.filter (·.name = name)) =
      names.flatMap fun name => run (es.filter (·.name = name)) := by
  induction names with
  | nil => rfl
  | cons name names ih =>
    obtain ⟨hname, hn⟩ := List.nodup_cons.mp hn
    have hrun : ∀ e ∈ es.filter (·.name = name), e.name = name := fun e he => by
      simpa using (List.mem_filter.mp he).2
    rw [List.flatMap_cons, List.flatMap_cons, places_append, places_run hrun, ih hn]
    intro e he f hf hef
    obtain ⟨name', hname', hf⟩ := List.mem_flatMap.mp hf
    have hf : f.name = name' := by simpa using (List.mem_filter.mp hf).2
    exact hname (by rwa [← hrun e he, hef, hf])

/-! ## 5. Every run -/

/-- The three fields of a document tell of the same entries. -/
structure Records (d : Document) (sorted : Bool) (es : List Entry) : Prop where
  /-- Both indexes cover the entries. -/
  indexed : d.Indexed
  /-- The flag. -/
  flag : d.sorted = sorted
  /-- The entries as they were pushed. -/
  entries : d.entries.toList = es

variable {d : Document} {sorted : Bool} {es : List Entry}

theorem records_empty (sorted : Bool) : (empty sorted).Records sorted [] :=
  ⟨indexed_empty sorted, rfl, rfl⟩

theorem Records.push (h : d.Records sorted es) (e : Entry) :
    (d.push e).Records sorted (es ++ [e]) :=
  ⟨h.indexed.push e, h.flag, by rw [entries_push, h.entries]⟩

/-- **A change is recorded.** -/
theorem Records.apply (h : d.Records sorted es) (c : Change) :
    (c.apply d).Records (c.flag sorted) (es ++ c.entry?.toList) := by
  cases c with
  | set name value => exact h.push _
  | push e => exact h.push e
  | setSorted sorted' =>
    rw [Change.entry?, Option.toList_none, List.append_nil]
    exact ⟨h.indexed.setSorted sorted', rfl, h.entries⟩

/-- **All changes are recorded.** -/
theorem Records.after (h : d.Records sorted es) (changes : List Change) :
    (after changes d).Records (flagAfter changes sorted) (es ++ pushed changes) := by
  induction changes generalizing d sorted es with
  | nil =>
    rw [pushed, List.filterMap_nil, List.append_nil]
    exact h
  | cons c changes ih =>
    have hpushed : pushed (c :: changes) = c.entry?.toList ++ pushed changes := by
      rw [pushed, List.filterMap_cons]
      cases c.entry? <;> rfl
    rw [hpushed, ← List.append_assoc]
    exact ih (h.apply c)

/-- The numbers of the entries in an order. -/
theorem Indexed.positions_eq (h : d.Indexed) (o : Order) :
    d.positions o =
      if o.isByName d.sorted then (sortByKey (nameIndex d.entries.toList)).map Prod.snd
      else List.range d.entries.size := by
  rw [positions, h.order.toList_eq, h.index.observes.toList]

theorem Indexed.positions_perm (h : d.Indexed) (o : Order) :
    (d.positions o).Perm (List.range d.entries.toList.length) := by
  have hnumbers : (nameIndex d.entries.toList).map Prod.snd =
      List.range d.entries.toList.length := by
    rw [nameIndex, List.map_map, List.range_eq_range']
    exact List.zipIdx_map_snd 0 _
  rw [h.positions_eq]
  split
  · rw [← hnumbers]
    exact (List.mergeSort_perm _ _).map _
  · rw [Array.length_toList]

/-- The entries in an order. -/
theorem Indexed.toList_eq (h : d.Indexed) (o : Order) :
    d.toList o = if o.isByName d.sorted then sortByName d.entries.toList
      else d.entries.toList := by
  rw [toList, h.positions_eq]
  split
  · exact filterMap_sorted rfl
  · exact filterMap_range _

theorem Indexed.named_eq (h : d.Indexed) (name : String) :
    d.named name = d.entries.toList.filter (·.name = name) := by
  rw [named, h.index.observes.get, filterMap_under]

/-- **The runs of a document**: its names ascend, and the entries of each stand together as they
were pushed, each with its place. -/
theorem Indexed.exists_runs (h : d.Indexed) : ∃ names : List String, names.Pairwise (· < ·) ∧
    (∀ name, name ∈ names ↔ ∃ e ∈ d.entries.toList, e.name = name) ∧
    (sortByName d.entries.toList =
      names.flatMap fun name => d.entries.toList.filter (·.name = name)) ∧
    (d.sorted = true → d.grouped =
      names.flatMap fun name => run (d.entries.toList.filter (·.name = name))) := by
  obtain ⟨names, hnames, hmem, hlist, hgroups⟩ := h.index.exists_runs
  refine ⟨names, hnames, fun name => ?_, ?_, fun hsorted => ?_⟩
  · rw [hmem, Ne, ← List.length_eq_zero_iff, length_under, List.length_eq_zero_iff,
      List.filter_eq_nil_iff]
    simp
  · have hbyName : d.toList .byName = sortByName d.entries.toList := h.toList_eq .byName
    have hpositions : d.positions .byName = d.index.toList.map Prod.snd := rfl
    rw [← hbyName, toList, hpositions, hlist, List.map_flatMap, List.filterMap_flatMap]
    refine List.flatMap_congr fun name _ => ?_
    rw [List.map_map, ← filterMap_under]
    exact congrArg (List.filterMap _) (List.map_id' _)
  · rw [grouped, if_pos hsorted, hgroups, List.flatMap_map]
    exact List.flatMap_congr fun name _ => filterMap_run d.entries name

/-- The runs of a sorted document have its entries in the order of their names. -/
theorem Indexed.map_fst_grouped (h : d.Indexed) (hsorted : d.sorted = true) :
    d.grouped.map Prod.fst = sortByName d.entries.toList := by
  obtain ⟨names, -, -, hsort, hgrouped⟩ := h.exists_runs
  rw [hgrouped hsorted, hsort, List.map_flatMap]
  exact List.flatMap_congr fun name _ => map_fst_run _

/-- **The runs of a sorted document** are its entries in the order of their names, with their
places. -/
theorem Indexed.grouped_eq (h : d.Indexed) :
    d.grouped = if d.sorted then places (sortByName d.entries.toList)
      else d.entries.toList.map (·, .alone) := by
  split
  next hsorted =>
    obtain ⟨names, hnames, -, hsort, hgrouped⟩ := h.exists_runs
    rw [hgrouped hsorted, hsort, places_flatMap _ (hnames.imp ne_of_lt)]
  next hsorted =>
    rw [grouped, if_neg hsorted, h.toList_eq .insertion]
    rfl

/-- **A reader sees what was recorded.** -/
theorem Records.observes (h : d.Records sorted es) : d.Observes sorted es := by
  obtain ⟨h, rfl, rfl⟩ := h
  have hindex := h.index.observes
  refine ⟨rfl, (Array.length_toList).symm, ?_, h.positions_perm, h.toList_eq .insertion,
    h.toList_eq .byName, h.toList_eq .chosen, h.named_eq, fun name => ?_, fun name => ?_,
    fun name => ?_, fun name => ?_, h.grouped_eq⟩
  · rw [isEmpty, Array.isEmpty_toList]
  · rw [get, h.named_eq]
    split
    next hnil => rw [if_pos hnil]
    next hne => rw [if_neg hne]
  · rw [first?, hindex.first?, head?_under]
  · rw [count, hindex.count, length_under]
  · rw [contains, hindex.contains, ← Multimap.under_ne_nil_iff, Ne, ← List.length_eq_zero_iff,
      length_under, List.length_eq_zero_iff]

/-- **A document behaves like the list of the entries that were pushed.**  After any changes of a
new document both of its indexes cover the same entries, and every reader returns what the pushed
entries and the last flag say. -/
theorem after_observes (sorted : Bool) (changes : List Change) :
    (after changes (empty sorted)).Observes (flagAfter changes sorted) (pushed changes) :=
  ((records_empty sorted).after changes).observes

end BlockDoc.Document
