/-
# Writing by walking

A walk through an outline comes to every entry before the entries in it (`visits`).  What an
entry adds to the encoding are the words of its place and what stands behind them, for a block up to
its first entry; one behind the other these are the encoding (`encoding_eq_visits`).

The writer has a stack of levels of which it has written a part.  What is left of all of them, the
innermost first, is what is left of the walk: writing an entry takes it from the front and puts the
entries in it there (`itemVisits_eq`), and an empty level has nothing left.  So the writer does
what one does who goes along the walk and stops at the first entry that cannot be written
(`writeLevels_visits`).  It stops behind the words of this entry, because it looks at the entry only
then.

There are two reasons to stop, and the one that counts is that of the first such entry, whatever
comes behind it.

Main statement: `writeDocument_walk`.
-/
import BlockDoc.Proofs.Binary.RoundTrip

namespace BlockDoc.Binary

variable {layout : Layout} {limit : Nat}

/-! ## 1. The walk -/

/-- An entry as a walk comes to it. -/
structure Visit where
  /-- The flag of the document in which it is. -/
  sorted : Bool
  /-- Its place in the run of its name there. -/
  place : Place
  /-- How many documents are around it. -/
  level : Nat
  /-- What it shows. -/
  item : Item

namespace Visit

/-- The words in front of an entry. -/
def words (layout : Layout) (v : Visit) : Bytes := placeBytes layout v.sorted v.place

/-- What stands behind the words, for a block up to its first entry. -/
def head (v : Visit) : Bytes :=
  match v.item with
  | .undef _ _ => []
  | .param name text _ => Kind.toByte .param :: (wideBytes name ++ wideBytes text)
  | .block name sorted items _ =>
    Kind.toByte .block :: (wideBytes name ++ headerBytes sorted items.length)

/-- What an entry adds to the encoding. -/
def bytes (layout : Layout) (v : Visit) : Bytes := v.words layout ++ v.head

/-- Why an entry cannot be written: it has no content, or it is a block at the limit. -/
def fault? (limit : Nat) (v : Visit) : Option Error :=
  match v.item with
  | .undef name _ => some (.undefinedEntry name)
  | .param _ _ _ => none
  | .block _ _ _ _ => if limit ≤ v.level then some (.nestingTooDeep limit) else none

end Visit

mutual

/-- The walk through an item that lies in a document with the given flag. -/
def itemVisits (sorted : Bool) (place : Place) (level : Nat) : Item → List Visit
  | .undef name comment => [⟨sorted, place, level, .undef name comment⟩]
  | .param name text comment => [⟨sorted, place, level, .param name text comment⟩]
  | .block name flag items comment =>
    ⟨sorted, place, level, .block name flag items comment⟩ ::
      itemsVisits flag (level + 1) none items

/-- The walk through the items of a document, after an item with the given name and place. -/
def itemsVisits (sorted : Bool) (level : Nat) : Option (String × Place) → List Item → List Visit
  | _, [] => []
  | last, it :: rest =>
    let place := placeAfter last it.name rest
    itemVisits sorted place level it ++ itemsVisits sorted level (some (it.name, place)) rest

end

/-- The walk through an outline. -/
def visits (o : Outline) : List Visit := itemsVisits o.sorted 1 none o.items

/-- The walk through the items of a level that are still to be written. -/
def Level.visits (l : Level) : List Visit :=
  l.items.flatMap fun p => itemVisits l.sorted p.2 (l.depth + 1) p.1

/-- The walk through some items goes from one to the next. -/
theorem itemsVisits_eq (sorted : Bool) (level : Nat) (last : Option (String × Place))
    (items : List Item) :
    itemsVisits sorted level last items =
      (placeItemsAfter last items).flatMap fun p => itemVisits sorted p.2 level p.1 := by
  induction items generalizing last with
  | nil => rfl
  | cons it items ih => rw [itemsVisits, placeItemsAfter, List.flatMap_cons, ih]

/-- **The walk through an item** comes to the item first, and then goes below it. -/
theorem itemVisits_eq (sorted : Bool) (place : Place) (depth : Nat) (it : Item) :
    itemVisits sorted place (depth + 1) it =
      ⟨sorted, place, depth + 1, it⟩ :: (levelsBelow depth it).flatMap Level.visits := by
  cases it with
  | undef name comment => rfl
  | param name text comment => rfl
  | block name flag items comment =>
    rw [itemVisits, itemsVisits_eq, levelsBelow, List.flatMap_singleton]
    rfl

/-! ## 2. The encoding -/

theorem itemsEncoding_eq_visits {items : List Item}
    (h : ∀ it ∈ items, ∀ sorted place level,
      (itemVisits sorted place level it).flatMap (Visit.bytes layout) =
        placeBytes layout sorted place ++ itemEncoding layout it)
    (sorted : Bool) (level : Nat) (last : Option (String × Place)) :
    (itemsVisits sorted level last items).flatMap (Visit.bytes layout) =
      itemsEncoding layout sorted last items := by
  induction items generalizing last with
  | nil => rfl
  | cons it items ih =>
    rw [itemsVisits, List.flatMap_append, h it List.mem_cons_self,
      ih fun x hx => h x (List.mem_cons_of_mem _ hx), itemsEncoding, List.append_assoc]

theorem itemEncoding_eq_visits (it : Item) (sorted : Bool) (place : Place) (level : Nat) :
    (itemVisits sorted place level it).flatMap (Visit.bytes layout) =
      placeBytes layout sorted place ++ itemEncoding layout it := by
  induction it generalizing sorted place level with
  | undef name comment => rw [itemVisits, List.flatMap_singleton]; rfl
  | param name text comment => rw [itemVisits, List.flatMap_singleton]; rfl
  | block name flag items comment ih =>
    rw [itemVisits, List.flatMap_cons, itemsEncoding_eq_visits ih, itemEncoding]
    simp only [Visit.bytes, Visit.words, Visit.head, List.append_assoc, List.cons_append]

/-- **The encoding is what the entries add to it**, in the order of the walk. -/
theorem encoding_eq_visits (layout : Layout) (o : Outline) :
    encoding layout o =
      headerBytes o.sorted o.items.length ++ (visits o).flatMap (Visit.bytes layout) := by
  rw [encoding, visits, itemsEncoding_eq_visits fun it _ => itemEncoding_eq_visits it]

/-! ## 3. Writing -/

/-- What is written by one who goes along a walk, and why it is no more. -/
def writeVisits (layout : Layout) (limit : Nat) : List Visit → Bytes × Except Error Unit
  | [] => ([], .ok ())
  | v :: rest =>
    match v.fault? limit with
    | some e => (v.words layout, .error e)
    | none =>
      let (bytes, result) := writeVisits layout limit rest
      (v.bytes layout ++ bytes, result)

/-- The writer looks at the entry to which the walk comes. -/
theorem entryBytes_eq (v : Visit) :
    entryBytes limit v.level v.item =
      match v.fault? limit with
      | some e => .error e
      | none => .ok v.head := by
  obtain ⟨sorted, place, level, _ | _ | _⟩ := v
  · rfl
  · rfl
  · simp only [entryBytes, Visit.fault?, Visit.head]
    split <;> rfl

/-- Taking an item from a level takes it from the front of the walk, and what is below it comes
next. -/
theorem flatMap_visits_cons (sorted : Bool) (it : Item) (place : Place)
    (rest : List (Item × Place)) (depth : Nat) (outer : List Level) :
    (Level.mk sorted ((it, place) :: rest) depth :: outer).flatMap Level.visits =
      ⟨sorted, place, depth + 1, it⟩ ::
        (levelsBelow depth it ++ ⟨sorted, rest, depth⟩ :: outer).flatMap Level.visits := by
  simp only [List.flatMap_cons, List.flatMap_append, Level.visits, itemVisits_eq, List.cons_append,
    List.append_assoc]

/-- **The writer goes along the walk.** -/
theorem writeLevels_visits (stack : List Level) (out : Array UInt8) :
    writeLevels layout limit stack out =
      (out ++ (writeVisits layout limit (stack.flatMap Level.visits)).1,
        (writeVisits layout limit (stack.flatMap Level.visits)).2) := by
  fun_induction writeLevels layout limit stack out with
  | case1 out => simp [writeVisits]
  | case2 out sorted depth outer ih =>
    rw [ih]
    rfl
  | case3 out sorted it place rest depth outer out' e he =>
    rw [flatMap_visits_cons, writeVisits]
    have hv : entryBytes limit (depth + 1) it = _ := entryBytes_eq ⟨sorted, place, depth + 1, it⟩
    rw [he] at hv
    split at hv
    next hfault =>
      cases hv
      rfl
    next => cases hv
  | case4 out sorted it place rest depth outer out' bytes hbytes ih =>
    rw [flatMap_visits_cons, writeVisits]
    have hv : entryBytes limit (depth + 1) it = _ := entryBytes_eq ⟨sorted, place, depth + 1, it⟩
    rw [hbytes] at hv
    split at hv
    next => cases hv
    next hfault =>
      cases hv
      rw [ih]
      simp only [out', Array.appendList_eq_append, append_lists, Visit.bytes, Visit.words,
        List.append_assoc]

/-- **What is written of an outline** is its header and what is written along the walk. -/
theorem writeOutline_visits (layout : Layout) (limit : Nat) (o : Outline) :
    writeOutline layout limit o =
      (headerBytes o.sorted o.items.length ++ (writeVisits layout limit (visits o)).1,
        (writeVisits layout limit (visits o)).2) := by
  have hwalk : [Level.mk o.sorted (placeItems o.items) 0].flatMap Level.visits = visits o := by
    rw [List.flatMap_singleton, visits, itemsVisits_eq]
    rfl
  rw [writeOutline, writeLevels_visits, hwalk]
  simp

/-! ## 4. The first fault -/

/-- What is written along a walk that begins with entries that can be written. -/
theorem writeVisits_append {before : List Visit} (h : ∀ v ∈ before, v.fault? limit = none)
    (rest : List Visit) :
    writeVisits layout limit (before ++ rest) =
      (before.flatMap (Visit.bytes layout) ++ (writeVisits layout limit rest).1,
        (writeVisits layout limit rest).2) := by
  induction before with
  | nil => rfl
  | cons v before ih =>
    obtain ⟨hv, hbefore⟩ := List.forall_mem_cons.mp h
    rw [List.cons_append, writeVisits]
    simp only [hv, ih hbefore, List.flatMap_cons, List.append_assoc]

/-- **If every entry can be written**, the encoding is. -/
theorem writeOutline_of_none {o : Outline} (h : ∀ v ∈ visits o, v.fault? limit = none) :
    writeOutline layout limit o = (encoding layout o, .ok ()) := by
  have hall : writeVisits layout limit (visits o ++ []) = _ := writeVisits_append h []
  rw [List.append_nil] at hall
  rw [writeOutline_visits, hall, encoding_eq_visits]
  simp only [writeVisits, List.append_nil]

/-- **If an entry cannot be written** and is the first such, its words are the last that is. -/
theorem writeOutline_of_fault {o : Outline} {before after : List Visit} {v : Visit} {e : Error}
    (hvs : visits o = before ++ v :: after) (hbefore : ∀ u ∈ before, u.fault? limit = none)
    (hv : v.fault? limit = some e) :
    writeOutline layout limit o =
      (headerBytes o.sorted o.items.length ++ before.flatMap (Visit.bytes layout) ++ v.words layout,
        .error e) := by
  rw [writeOutline_visits, hvs, writeVisits_append hbefore, writeVisits]
  simp only [hv, List.append_assoc]

/-- The first entry of a walk that cannot be written, if there is one. -/
theorem exists_first_fault (limit : Nat) (vs : List Visit) :
    (∀ v ∈ vs, v.fault? limit = none) ∨
      ∃ before v after e, vs = before ++ v :: after ∧ (∀ u ∈ before, u.fault? limit = none) ∧
        v.fault? limit = some e := by
  cases hfind : vs.find? fun v => (v.fault? limit).isSome with
  | none =>
    left
    simpa using List.find?_eq_none.mp hfind
  | some v =>
    right
    obtain ⟨hv, before, after, rfl, hbefore⟩ := List.find?_eq_some_iff_append.mp hfind
    obtain ⟨e, he⟩ := Option.isSome_iff_exists.mp hv
    exact ⟨before, v, after, e, rfl, by simpa using hbefore, he⟩

/-- The two reasons in one walk: the block at the limit comes before the empty entry in it. -/
example (name : String) :
    (visits ⟨true, [.param "a" "" "", .block "b" false [ .undef name ""] ""]⟩).filterMap
      (Visit.fault? 1) = [.nestingTooDeep 1, .undefinedEntry name] := rfl

/-- **What is written is the encoding** if writing ends well, under any limit. -/
theorem writeOutline_ok {o : Outline} {bytes : Bytes}
    (h : writeOutline layout limit o = (bytes, .ok ())) : bytes = encoding layout o := by
  rcases exists_first_fault limit (visits o) with hnone | ⟨before, v, after, e, hvs, hbefore, hv⟩
  · rw [writeOutline_of_none hnone] at h
    exact (congrArg Prod.fst h).symm
  · rw [writeOutline_of_fault hvs hbefore hv] at h
    cases h

/-- **The writer writes the encoding up to the first entry that cannot be written.**  If there is
none, this is all of it.  Otherwise the error is that of this entry, and what was written are the
header, what the entries before it add to the encoding, and the words of its own place. -/
theorem writeDocument_walk (layout : Layout) (limit : Nat) (d : Document) :
    let o := d.outline layout.order
    ((writeDocument layout limit d).2 = .ok () ↔ ∀ v ∈ visits o, v.fault? limit = none) ∧
      ((∀ v ∈ visits o, v.fault? limit = none) ∧
          writeDocument layout limit d = (encoding layout o, .ok ()) ∨
        ∃ before v after e, visits o = before ++ v :: after ∧
          (∀ u ∈ before, u.fault? limit = none) ∧ v.fault? limit = some e ∧
          ∃ written, writeDocument layout limit d = (written, .error e) ∧
            written = headerBytes o.sorted o.items.length ++
              before.flatMap (Visit.bytes layout) ++ v.words layout ∧
            encoding layout o = written ++ v.head ++ after.flatMap (Visit.bytes layout)) := by
  intro o
  rw [writeDocument]
  rcases exists_first_fault limit (visits o) with hnone | ⟨before, v, after, e, hvs, hbefore, hv⟩
  · have hwrite : writeOutline layout limit o = _ := writeOutline_of_none hnone
    exact ⟨⟨fun _ => hnone, fun _ => by rw [hwrite]⟩, .inl ⟨hnone, hwrite⟩⟩
  · have hwrite : writeOutline layout limit o = _ := writeOutline_of_fault hvs hbefore hv
    refine ⟨⟨fun hok => ?_, fun hnone => ?_⟩, .inr
      ⟨before, v, after, e, hvs, hbefore, hv, _, hwrite, rfl, ?_⟩⟩
    · rw [hwrite] at hok
      cases hok
    · rw [hnone v (by rw [hvs]; exact List.mem_append_right _ List.mem_cons_self)] at hv
      cases hv
    · rw [encoding_eq_visits, hvs]
      simp only [List.flatMap_append, List.flatMap_cons, Visit.bytes, List.append_assoc]

end BlockDoc.Binary
