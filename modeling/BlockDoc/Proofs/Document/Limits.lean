/-
# One limit for all codecs

Three walks along a stack ask how deep a block lies: writing and reading an encoding, and reading
a dump.  They ask at different moments.  The writer asks behind the place of the block, the reader
behind its name, and the reader of dumps when it has seen a whole line.  The writer has the
innermost document on the stack, the two readers have it beside the stack.

The answer is the same.  A limit does nothing to a walk that opens no block at it, so a walk that
ends well under one limit does so under every other with room for the nesting of the document, and
otherwise it ends with the error of that other limit.

* The writer goes on if and only if all levels that are still open fit (`writeLevels_result`).  The
  bytes do not depend on the limit (`writeOutline_ok`).
* For the reader it is a statement about any bytes that were read under some limit
  (`readDocument_limit`).  Nothing in the open documents lies deeper than the document that they
  become is nested, so reading has met the limit before its end or not at all (`readFrames_limit`).
* For a dump it is the law by which it is read back (`Dump.parseWith_render`).

Main statement: `limits_agree`.  It needs blocks whose entries can be counted in a word: of more
entries the count keeps its low bits, and what is read ends too early to meet the limit
(`limits_differ_crowded`).
-/
import BlockDoc.Proofs.Binary.Walk
import BlockDoc.Proofs.Dump.RoundTrip

namespace BlockDoc

namespace Binary

open Dump (HasRoom)

variable {layout : Layout}

/-! ## 1. Writing under a limit -/

/-- The items of a level may lie as deep as they do. -/
def Level.Fits (limit : Nat) (l : Level) : Prop :=
  HasRoom limit l.depth (itemsDepth (l.items.map Prod.fst))

instance (limit : Nat) (l : Level) : Decidable (l.Fits limit) :=
  inferInstanceAs (Decidable (HasRoom _ _ _))

/-- Every item of a level has a content, at any depth. -/
def Level.Defined (l : Level) : Prop :=
  ∀ x ∈ itemsPreorder (l.items.map Prod.fst), x.isUndef = false

theorem Level.fits_nil {limit depth : Nat} {sorted : Bool} :
    Level.Fits limit ⟨sorted, [], depth⟩ := .inl rfl

/-- A level fits if its first item does, and the others. -/
theorem Level.fits_cons {limit depth : Nat} {sorted : Bool} {it : Item} {place : Place}
    {rest : List (Item × Place)} :
    Level.Fits limit ⟨sorted, (it, place) :: rest, depth⟩ ↔
      HasRoom limit depth it.depth ∧ Level.Fits limit ⟨sorted, rest, depth⟩ := by
  simp only [Level.Fits, HasRoom, List.map_cons, itemsDepth]
  omega

/-- For an item that can be written up to its first entry, there is room if and only if there is
room for what has to be written below it. -/
theorem hasRoom_item {limit depth : Nat} {it : Item} {bytes : Bytes}
    (h : entryBytes limit (depth + 1) it = .ok bytes) :
    HasRoom limit depth it.depth ↔ ∀ l ∈ levelsBelow depth it, l.Fits limit := by
  cases it with
  | undef name comment => cases h
  | param name text comment => simp [levelsBelow, HasRoom, Item.depth]
  | block name sorted items comment =>
    have hlevel : ¬ depth + 1 ≥ limit := by
      intro hlevel
      rw [entryBytes, if_pos hlevel] at h
      cases h
    simp only [levelsBelow, List.forall_mem_singleton, Level.Fits, HasRoom, Item.depth,
      map_fst_placeItems]
    omega

/-- The only reason not to write an item that has a content: there is no room for it. -/
theorem entryBytes_eq_error {limit depth : Nat} {it : Item} {e : Error}
    (h : entryBytes limit (depth + 1) it = .error e) (hdefined : it.isUndef = false) :
    e = .nestingTooDeep limit ∧ ¬ HasRoom limit depth it.depth := by
  cases it with
  | undef name comment => cases hdefined
  | param name text comment => cases h
  | block name sorted items comment =>
    rw [entryBytes] at h
    split at h
    next hlevel =>
      cases h
      refine ⟨rfl, ?_⟩
      simp only [HasRoom, Item.depth]
      omega
    next => cases h

theorem Level.Defined.below {depth : Nat} {sorted : Bool} {it : Item} {place : Place}
    {rest : List (Item × Place)} (h : Level.Defined ⟨sorted, (it, place) :: rest, depth⟩) :
    (∀ l ∈ levelsBelow depth it, l.Defined) ∧ Level.Defined ⟨sorted, rest, depth⟩ := by
  simp only [Level.Defined, List.map_cons, itemsPreorder, List.forall_mem_append] at h ⊢
  refine ⟨?_, h.2⟩
  cases it with
  | undef name comment => simp [levelsBelow]
  | param name text comment => simp [levelsBelow]
  | block name sorted' items comment =>
    simp only [levelsBelow, List.forall_mem_singleton, map_fst_placeItems]
    exact fun x hx => h.1 x (List.mem_cons_of_mem _ hx)

/-- **Levels without empty entries are written** if and only if all of them fit. -/
theorem writeLevels_result {limit : Nat} {stack : List Level} (out : Array UInt8)
    (hdefined : ∀ l ∈ stack, l.Defined) :
    (writeLevels layout limit stack out).2 =
      if ∀ l ∈ stack, l.Fits limit then .ok () else .error (.nestingTooDeep limit) := by
  fun_induction writeLevels layout limit stack out with
  | case1 out => rw [if_pos fun l hl => absurd hl List.not_mem_nil]
  | case2 out sorted depth outer ih =>
    rw [ih (List.forall_mem_cons.mp hdefined).2]
    simp only [List.forall_mem_cons, Level.fits_nil, true_and]
  | case3 out sorted it place rest depth outer _ e he =>
    have htop := (List.forall_mem_cons.mp hdefined).1
    have hit : it.isUndef = false := htop it (mem_itemsPreorder.mpr
      ⟨it, List.mem_cons_self, Item.mem_preorder_self it⟩)
    obtain ⟨rfl, hroom⟩ := entryBytes_eq_error he hit
    rw [if_neg fun h => hroom (Level.fits_cons.mp (h _ List.mem_cons_self)).1]
  | case4 out sorted it place rest depth outer _ bytes hbytes ih =>
    obtain ⟨htop, houter⟩ := List.forall_mem_cons.mp hdefined
    obtain ⟨hbelow, hrest⟩ := htop.below
    rw [ih (List.forall_mem_append.mpr ⟨hbelow, List.forall_mem_cons.mpr ⟨hrest, houter⟩⟩)]
    simp only [List.forall_mem_append, List.forall_mem_cons, Level.fits_cons, hasRoom_item hbytes,
      and_assoc]

variable {d : Document}

theorem writeDocument_result (hd : d.Built) (hdefined : d.Each fun x => x.isUndef = false)
    (layout : Layout) (limit : Nat) :
    (writeDocument layout limit d).2 =
      if d.nesting = 0 ∨ d.nesting < limit then .ok () else .error (.nestingTooDeep limit) := by
  have hstack : ∀ l ∈ [Level.mk (d.outline layout.order).sorted
      (placeItems (d.outline layout.order).items) 0], l.Defined := by
    rw [List.forall_mem_singleton, Level.Defined, map_fst_placeItems]
    exact forall_preorder hd (fun x hx => by rwa [Item.isUndef_arranged]) hdefined layout
  have hnesting : itemsDepth (d.outline layout.order).items = d.nesting := depth_order hd layout
  have hresult : (writeLevels layout limit _ _).2 = _ := writeLevels_result
    (headerBytes (d.outline layout.order).sorted (d.outline layout.order).items.length).toArray hstack
  simp only [List.forall_mem_singleton, Level.Fits, map_fst_placeItems, hnesting, HasRoom,
    Nat.add_zero] at hresult
  exact hresult

/-! ## 2. Reading under a limit -/

/-- A parameter is read under any limit. -/
theorem Input.piece_param_limit {n level : Nat} {sorted : Bool} {inp rest : Input}
    {name text : String} (h : inp.piece layout n level sorted = .ok (.param name text, rest))
    (m : Nat) : inp.piece layout m level sorted = .ok (.param name text, rest) :=
  piece_eq_ok.mpr ⟨(piece_eq_ok.mp h).1, (piece_eq_ok.mp h).2⟩

/-- A block is read under any limit with room for it. -/
theorem Input.piece_block_limit {n level count : Nat} {sorted flag : Bool} {inp rest : Input}
    {name : String} (h : inp.piece layout n level sorted = .ok (.block name flag count, rest))
    (m : Nat) :
    inp.piece layout m level sorted =
      if level ≥ m then .error (.nestingTooDeep m) else .ok (.block name flag count, rest) := by
  by_cases hlevel : level ≥ m
  · obtain ⟨-, bs, hfill⟩ := piece_eq_ok.mp h
    obtain ⟨place, tail, i₁, i₂, i₃, -, hplace, h₁, h₂, h₃, -, -⟩ := takes_front.mp hfill
    have hnul := (piece_eq_ok.mp h).1.1
    have hkind : i₁.word 1 .entryKind = .ok ((Kind.toByte .block).toNat, i₂) :=
      word_eq_ok.mpr ⟨_, rfl, by simp [Word.value], h₂⟩
    -- the name is read before the level is looked at
    simp only [piece, place_eq_ok.mpr ⟨_, hplace, h₁⟩, hkind, wideString_eq_ok.mpr ⟨hnul, h₃⟩,
      ok_bind, UInt8.ofNat_toNat, Kind.ofByte?_toByte, if_pos hlevel]
  · obtain ⟨⟨hnul, -, hcount⟩, hfill⟩ := piece_eq_ok.mp h
    rw [if_neg hlevel]
    exact piece_eq_ok.mpr ⟨⟨hnul, Nat.lt_of_not_le hlevel, hcount⟩, hfill⟩

/-- Under another limit the block is opened if there is room for it. -/
theorem readFrames_block_limit {n left count : Nat} {flag : Bool} {name : String} {top : Frame}
    {stack : List Frame} {inp rest : Input} (hmissing : top.missing = left + 1)
    (h : inp.piece layout n (top.depth + 1) top.document.sorted =
      .ok (.block name flag count, rest)) (m : Nat) :
    readFrames layout m top stack inp =
      if top.depth + 1 ≥ m then .error (.nestingTooDeep m)
      else readFrames layout m ⟨.empty flag, count, name, top.depth + 1⟩ (top :: stack) rest := by
  have hpiece := Input.piece_block_limit h m
  by_cases hlevel : top.depth + 1 ≥ m
  · rw [if_pos hlevel] at hpiece
    rw [if_pos hlevel, readFrames.eq_def]
    simp only [hmissing]
    split
    next e he => rw [← Except.error.inj (hpiece.symm.trans he)]
    next he => cases hpiece.symm.trans he
    next he => cases hpiece.symm.trans he
  · rw [if_neg hlevel] at hpiece
    rw [if_neg hlevel]
    obtain ⟨document, missing, name', depth⟩ := top
    obtain rfl : missing = left + 1 := hmissing
    exact readFrames_block hpiece

/-- The open documents lie inside each other, the last of them in none. -/
def Stacked : Frame → List Frame → Prop
  | top, [] => top.document.Indexed ∧ top.depth = 0
  | top, parent :: outer =>
    top.document.Indexed ∧ top.depth = parent.depth + 1 ∧ Stacked parent outer

/-- How deep blocks lie in the open documents. -/
def reach : Frame → List Frame → Nat
  | top, [] => top.depth + top.document.nesting
  | top, parent :: outer => max (top.depth + top.document.nesting) (reach parent outer)

theorem Stacked.indexed {top : Frame} {stack : List Frame} (h : Stacked top stack) :
    top.document.Indexed := by
  cases stack with
  | nil => exact h.1
  | cons parent outer => exact h.1

/-- The open documents still lie inside each other after an entry was added to the innermost. -/
theorem Stacked.replace {top top' : Frame} {stack : List Frame} (h : Stacked top stack)
    (hindexed : top'.document.Indexed) (hdepth : top'.depth = top.depth) : Stacked top' stack := by
  cases stack with
  | nil => exact ⟨hindexed, hdepth.trans h.2⟩
  | cons parent outer => exact ⟨hindexed, hdepth.trans h.2.1, h.2.2⟩

theorem reach_replace {top top' : Frame} {stack : List Frame} (hdepth : top'.depth = top.depth)
    (hnesting : top'.document.nesting = top.document.nesting) :
    reach top' stack = reach top stack := by
  cases stack <;> simp only [reach, hdepth, hnesting]

/-- Closing a document brings its blocks into the one around it, where they lie as deep. -/
theorem reach_closed {top parent : Frame} {outer : List Frame} {missing : Nat}
    (h : Stacked top (parent :: outer)) :
    reach ⟨parent.document.set top.name (.block top.document), missing, parent.name, parent.depth⟩
      outer = reach top (parent :: outer) := by
  obtain ⟨-, hdepth, hparent⟩ := h
  cases outer <;>
    simp only [reach, Document.nesting_set_block hparent.indexed, hdepth] <;> omega

/-- **What reading does under another limit**: no open document lies deeper than the one that they
become, and with room for what is open reading goes on until there is no room. -/
theorem readFrames_limit {n : Nat} {top : Frame} {stack : List Frame} {inp rest : Input}
    {d : Document} (h : readFrames layout n top stack inp = .ok (d, rest))
    (hs : Stacked top stack) :
    reach top stack ≤ d.nesting ∧ ∀ m, HasRoom m 0 (reach top stack) →
      readFrames layout m top stack inp =
        if HasRoom m 0 d.nesting then .ok (d, rest) else .error (.nestingTooDeep m) := by
  fun_induction readFrames layout n top stack inp with
  | case1 top inp hmissing =>
    cases h
    have hreach : reach top [] = top.document.nesting := by rw [reach, hs.2, Nat.zero_add]
    refine ⟨hreach.le, fun m hm => ?_⟩
    rw [hreach] at hm
    rw [if_pos hm, readFrames.eq_def]
    simp only [hmissing]
  | case2 top inp hmissing parent outer closed ih =>
    -- a document is closed, and its blocks lie as deep as before
    have hclosed : Stacked { parent with document := closed, missing := parent.missing - 1 } outer :=
      hs.2.2.replace (hs.2.2.indexed.push _) rfl
    rw [← reach_closed hs]
    obtain ⟨hle, hlimit⟩ := ih h hclosed
    refine ⟨hle, fun m hm => ?_⟩
    rw [← hlimit m hm, readFrames.eq_def]
    simp only [hmissing]
    rfl
  | case3 => cases h
  | case4 top stack inp left hmissing name text rest' hpiece ih =>
    -- a parameter is added, which is no block
    have hset : Stacked
        { top with document := top.document.set name (.param text), missing := left } stack :=
      hs.replace (hs.indexed.push _) rfl
    have hreach : reach { top with document := top.document.set name (.param text), missing := left }
        stack = reach top stack :=
      reach_replace rfl (Document.nesting_set_param hs.indexed name text)
    obtain ⟨hle, hlimit⟩ := ih h hset
    rw [hreach] at hle hlimit
    refine ⟨hle, fun m hm => ?_⟩
    obtain ⟨document, missing, name', depth⟩ := top
    obtain rfl : missing = left + 1 := hmissing
    rw [readFrames_param (Input.piece_param_limit hpiece m)]
    exact hlimit m hm
  | case5 top stack inp left hmissing name flag count rest' hpiece ih =>
    -- a block is opened, one level below the innermost document
    have hopened : Stacked ⟨.empty flag, count, name, top.depth + 1⟩ (top :: stack) :=
      ⟨Document.indexed_empty flag, rfl, hs⟩
    have hreach : reach ⟨.empty flag, count, name, top.depth + 1⟩ (top :: stack) =
        max (top.depth + 1) (reach top stack) := by
      rw [reach, Document.nesting_empty, Nat.add_zero]
    obtain ⟨hle, hlimit⟩ := ih h hopened
    rw [hreach] at hle hlimit
    refine ⟨by omega, fun m hm => ?_⟩
    rw [readFrames_block_limit hmissing hpiece]
    by_cases hlevel : top.depth + 1 ≥ m
    · have hroom : ¬ HasRoom m 0 d.nesting := by
        simp only [HasRoom]
        omega
      rw [if_pos hlevel, if_neg hroom]
    · have hroom : HasRoom m 0 (max (top.depth + 1) (reach top stack)) := by
        simp only [HasRoom] at hm ⊢
        omega
      rw [if_neg hlevel, hlimit m hroom]

/-- **What was read under one limit** is read under every other with room for the nesting of the
document, whatever the bytes are. -/
theorem readDocument_limit {n : Nat} {inp rest : Input} {d : Document}
    (h : readDocument layout n inp = .ok (d, rest)) (m : Nat) :
    readDocument layout m inp =
      if d.nesting = 0 ∨ d.nesting < m then .ok (d, rest) else .error (.nestingTooDeep m) := by
  obtain ⟨⟨⟨sorted, count⟩, mid⟩, hheader, hframes⟩ := bind_eq_ok.1 h
  have hs : Stacked ⟨.empty sorted, count, "", 0⟩ [] := ⟨Document.indexed_empty sorted, rfl⟩
  have hreach : reach ⟨.empty sorted, count, "", 0⟩ [] = 0 := Document.nesting_empty sorted
  rw [readDocument, hheader, ok_bind]
  exact (readFrames_limit hframes hs).2 m (.inl hreach)

variable {d : Document}

/-- **What was written under any limit** is read back under every limit with room for the nesting
of the document. -/
theorem readDocument_written (hd : d.Built) (hdefined : d.Each fun x => x.isUndef = false)
    (hc : Clean d) (hsize : (d.outline .insertion).items.length < 2 ^ 32)
    (hcounted : d.Each fun x => x.children.length < 2 ^ 32) {n : Nat} {b : Bytes}
    (h : writeDocument layout n d = (b, .ok ())) :
    ∃ d', d'.outline .chosen = (d.outline .chosen).bare ∧
      ∀ m r off, readDocument layout m ⟨b ++ r, off⟩ =
        if d.nesting = 0 ∨ d.nesting < m then .ok (d', ⟨r, off + b.length⟩)
        else .error (.nestingTooDeep m) := by
  obtain rfl := writeOutline_ok h
  obtain ⟨d', hread, hchosen, hinsertion⟩ :=
    readDocument_encoding_order hd hdefined (Nat.lt_succ_self d.nesting) hc hsize hcounted layout
  have hnesting : d'.nesting = d.nesting := by
    rw [Document.nesting, hinsertion, Outline.depth_bare]
    exact depth_order hd layout
  exact ⟨d', hchosen, fun m r off => by rw [readDocument_limit (hread r off) m, hnesting]⟩

end Binary

namespace Dump

variable {d : Document} {t : List Char}

/-! ## 3. Reading a dump under a limit -/

/-- **A dump of a document with names that fit** is read back under every limit with room for the
nesting of the document. -/
theorem parseWith_format (hd : d.Built) (hdefined : d.Each fun x => x.isUndef = false)
    (hnames : d.Each NameFits) (ht : format d = .ok t) (files : FileReader) (o : Options) :
    parseWith files o t =
      if d.nesting = 0 ∨ d.nesting < o.limit then .ok (.ofItems true (d.items .chosen))
      else .error (.nestingTooDeep o.limit) := by
  obtain ⟨rfl, hvalues⟩ := format_ok_iff.mp ht
  have hnames' := hnames.chosen hd fun x hx => nameFits_arranged.mpr hx
  have hdefined' := hdefined.chosen hd fun x hx => by rwa [Item.isUndef_arranged]
  have hlegible : ∀ x ∈ (d.outline .chosen).preorder, Legible x := fun x hx =>
    ⟨fun _ => hnames' x hx, hvalues x hx⟩
  have hitems : definedItems (d.items .chosen) = d.items .chosen := definedItems_eq_self hdefined'
  have hdepth : (d.outline .chosen).depth = d.nesting := by
    rw [hd.outline_chosen, Outline.depth_arranged, Document.nesting]
  rw [parseWith_render d hlegible files o, hdepth, hitems]
  rfl

end Dump

/-! ## 4. The limits agree -/

open Binary (Clean readDocument writeDocument)
open Dump (NameFits format parseWith)

variable {d : Document}

/-- **All limits agree.**  Whatever a codec does with a document, it does if the document has no
blocks or if they are nested less deeply than the limit, and it fails with the limit otherwise.

For an encoding this supposes that no text has the character that ends it, and that the number of
entries of each block fits into its word; for a dump, that the names fit on their lines.  What is
written under a limit is therefore read back under this limit.

Of a number that does not fit, the writer keeps the low bits.  Fewer entries are then read back, and
the block that is too deep may be one of the others (`limits_differ_crowded`). -/
theorem limits_agree (hd : d.Built) (hdefined : d.Each fun x => x.isUndef = false) :
    (∀ layout m, (writeDocument layout m d).2 =
      if d.nesting = 0 ∨ d.nesting < m then .ok () else .error (.nestingTooDeep m)) ∧
    (Clean d → (d.outline .insertion).items.length < 2 ^ 32 →
      (d.Each fun x => x.children.length < 2 ^ 32) →
      ∀ layout n b, writeDocument layout n d = (b, .ok ()) →
        ∃ d', d'.outline .chosen = (d.outline .chosen).bare ∧
          (∀ m r off, readDocument layout m ⟨b ++ r, off⟩ =
            if d.nesting = 0 ∨ d.nesting < m then .ok (d', ⟨r, off + b.length⟩)
            else .error (.nestingTooDeep m)) ∧
          ∀ r off, readDocument layout n ⟨b ++ r, off⟩ = .ok (d', ⟨r, off + b.length⟩)) ∧
    (d.Each NameFits → ∀ t, format d = .ok t →
      ∃ d', d'.outline .insertion = ⟨true, bareItems (d.items .chosen)⟩ ∧
        ∀ files o, parseWith files o t =
          if d.nesting = 0 ∨ d.nesting < o.limit then .ok d'
          else .error (.nestingTooDeep o.limit)) := by
  refine ⟨Binary.writeDocument_result hd hdefined, ?_, ?_⟩
  · intro hc hsize hcounted layout n b hb
    obtain ⟨d', htree, hread⟩ := Binary.readDocument_written hd hdefined hc hsize hcounted hb
    have hfits : d.nesting = 0 ∨ d.nesting < n := by
      have hresult := Binary.writeDocument_result hd hdefined layout n
      rw [hb] at hresult
      by_contra hfits
      rw [if_neg hfits] at hresult
      cases hresult
    exact ⟨d', htree, hread, fun r off => by rw [hread, if_pos hfits]⟩
  · intro hnames t ht
    exact ⟨_, Document.outline_ofItems _ _, Dump.parseWith_format hd hdefined hnames ht⟩

/-- A document with two blocks inside each other, beside shallower entries. -/
def nested : Document :=
  .ofItems true [.param "c" "2" "",
    .block "a" false [.block "b" true [.param "x" "1" ""] "", .param "y" "" ""] "",
    .block "a" true [] ""]

theorem nested_each {Q : Item → Prop}
    (h : ∀ x ∈ (Outline.bare ⟨true, [.param "c" "2" "",
      .block "a" false [.block "b" true [.param "x" "1" ""] "", .param "y" "" ""] "",
      .block "a" true [] ""]⟩).preorder, Q x) : nested.Each Q := by
  rwa [Document.Each, nested, Document.outline_ofItems]

/-- Two levels fit a limit of three and not one of two, for every codec. -/
theorem limits_agree_nested : nested.Built ∧ (nested.Each fun x => x.isUndef = false) ∧
    nested.nesting = 2 ∧
    (∃ b d', writeDocument .grouped 3 nested = (b, .ok ()) ∧
      (writeDocument .grouped 2 nested).2 = .error (.nestingTooDeep 2) ∧
      readDocument .grouped 3 ⟨b, 0⟩ = .ok (d', ⟨[], b.length⟩) ∧
      readDocument .grouped 2 ⟨b, 0⟩ = .error (.nestingTooDeep 2)) ∧
    ∃ t d', format nested = .ok t ∧
      parseWith (fun _ => .error .notFound) { limit := 3 } t = .ok d' ∧
      parseWith (fun _ => .error .notFound) { limit := 2 } t = .error (.nestingTooDeep 2) := by
  have hd : nested.Built := Document.built_ofItems _ _
  have hdefined : nested.Each fun x => x.isUndef = false := nested_each (by decide)
  have hclean : Clean nested := nested_each (by decide)
  have hnames : nested.Each NameFits := nested_each (by decide)
  have hcounted : nested.Each fun x => x.children.length < 2 ^ 32 := nested_each (by decide)
  have hsize : (nested.outline .insertion).items.length < 2 ^ 32 := by
    rw [nested, Document.outline_ofItems]
    decide
  have hnesting : nested.nesting = 2 := by
    rw [Document.nesting, nested, Document.outline_ofItems]
    decide
  have hformat : format nested = .ok (Dump.render nested) := by
    refine Dump.format_ok_iff.mpr ⟨rfl, ?_⟩
    have hvalues : nested.Each fun x => ¬ Dump.Unwritable x := nested_each (by decide)
    exact hvalues.chosen hd fun x hx => by rwa [Dump.unwritable_arranged]
  obtain ⟨hwrite, hread, hparse⟩ := limits_agree hd hdefined
  rw [hnesting] at hwrite hread hparse
  have hok : writeDocument .grouped 3 nested = ((writeDocument .grouped 3 nested).1, .ok ()) :=
    Prod.ext rfl (hwrite .grouped 3)
  obtain ⟨d', -, hlimits, -⟩ := hread hclean hsize hcounted _ _ _ hok
  obtain ⟨d'', -, hdump⟩ := hparse hnames _ hformat
  have hthree := hlimits 3 [] 0
  have htwo := hlimits 2 [] 0
  rw [List.append_nil] at hthree htwo
  refine ⟨hd, hdefined, hnesting, ⟨_, d', hok, hwrite .grouped 2, ?_, htwo⟩, _, d'', hformat,
    hdump _ _, hdump _ _⟩
  simpa using hthree

/-! ## 5. More entries than a word can count -/

/-- A block without entries. -/
def hollow : Item := .block "" false [] ""

/-- As many of them as asked for. -/
def hollows (n : Nat) : Document := .ofItems false (List.replicate n hollow)

theorem outline_hollows (n : Nat) :
    (hollows n).outline .insertion = ⟨false, List.replicate n hollow⟩ := by
  have hbare : (List.replicate n hollow).map Item.bare = List.replicate n hollow :=
    List.map_replicate
  rw [hollows, Document.outline_ofItems, Outline.bare, bareItems_eq, hbare]

theorem each_hollows {Q : Item → Prop} (h : Q hollow) (n : Nat) : (hollows n).Each Q := by
  intro x hx
  rw [outline_hollows] at hx
  obtain ⟨it, hit, hx⟩ := mem_itemsPreorder.mp hx
  obtain rfl := List.eq_of_mem_replicate hit
  obtain rfl : x = hollow := List.mem_singleton.mp hx
  exact h

theorem nesting_hollows {n : Nat} (hn : 0 < n) : (hollows n).nesting = 1 := by
  have hdepth : ∀ it ∈ List.replicate n hollow, it.depth ≤ 1 := fun it hit => by
    rw [List.eq_of_mem_replicate hit]
    exact Nat.le_refl 1
  have hle : itemsDepth (List.replicate n hollow) ≤ 1 := itemsDepth_le_iff.mpr hdepth
  have hge : 1 ≤ itemsDepth (List.replicate n hollow) :=
    itemsDepth_le_iff.mp (Nat.le_refl _) hollow (List.mem_replicate.mpr ⟨hn.ne', rfl⟩)
  rw [Document.nesting, outline_hollows]
  exact Nat.le_antisymm hle hge

/-- How the blocks are written: their count, the first of them, and what stands behind it. -/
theorem encoding_hollows {n : Nat} (hn : 0 < n) :
    ∃ rest, Binary.encoding .plain ⟨false, List.replicate n hollow⟩ =
      Binary.headerBytes false n ++ ([2, 0, 0, 0, 0, 0, 0, 0] ++ rest) := by
  obtain ⟨k, rfl⟩ : ∃ k, n = k + 1 := ⟨n - 1, by omega⟩
  rw [Binary.encoding, List.length_replicate, List.replicate_succ, Binary.itemsEncoding]
  exact ⟨_, rfl⟩

/-- No entries are read where none are counted. -/
theorem readDocument_uncounted (layout : Binary.Layout) (limit : Nat) (rest : Bytes) :
    readDocument layout limit ⟨[0, 0, 0, 0, 0] ++ rest, 0⟩ = .ok (.empty false, ⟨rest, 5⟩) := by
  have hheader : Binary.Input.header .documentHeader ⟨[0, 0, 0, 0, 0] ++ rest, 0⟩ =
      .ok ((false, 0), ⟨rest, 5⟩) := rfl
  rw [readDocument, hheader, ok_bind]
  dsimp only
  rw [Binary.readFrames.eq_def]

/-- What the writer makes of any number of empty blocks whose count is written as zero, and the
reader of that. -/
theorem hollows_uncounted {n : Nat} (hn : 0 < n)
    (hcount : Binary.headerBytes false n = [0, 0, 0, 0, 0]) :
    ∃ b rest, b = [0, 0, 0, 0, 0] ++ ([2, 0, 0, 0, 0, 0, 0, 0] ++ rest) ∧
      writeDocument .plain 2 (hollows n) = (b, .ok ()) ∧
      readDocument .plain 1 ⟨b, 0⟩ = .ok (.empty false, ⟨b.drop 5, 5⟩) := by
  obtain ⟨rest, hrest⟩ := encoding_hollows hn
  rw [hcount, ← outline_hollows] at hrest
  have hwrite : (writeDocument .plain 2 (hollows n)).2 = .ok () := by
    have hd : (hollows n).Built := Document.built_ofItems _ _
    have hdefined : (hollows n).Each fun x => x.isUndef = false := each_hollows (by decide) n
    rw [Binary.writeDocument_result hd hdefined, nesting_hollows hn]
    rfl
  have hbytes := Binary.writeOutline_ok (Prod.ext rfl hwrite)
  exact ⟨_, rest, rfl, Prod.ext (hbytes.trans hrest) hwrite, readDocument_uncounted _ _ _⟩

/-- Empty blocks, one more than a word can count. -/
def crowded : Document := hollows (2 ^ 32)

/-- **The limits can differ** where the count of the entries does not fit into its word.  The blocks
are written under a limit of two, with a count of zero.  A limit of one has no room for them, but
the reader ends before the first. -/
theorem limits_differ_crowded :
    crowded.Built ∧ (crowded.Each fun x => x.isUndef = false) ∧ Clean crowded ∧
      crowded.nesting = 1 ∧
      ∃ b rest, b = [0, 0, 0, 0, 0] ++ ([2, 0, 0, 0, 0, 0, 0, 0] ++ rest) ∧
        writeDocument .plain 2 crowded = (b, .ok ()) ∧
        readDocument .plain 1 ⟨b, 0⟩ = .ok (.empty false, ⟨b.drop 5, 5⟩) := by
  have hdefined : crowded.Each fun x => x.isUndef = false := each_hollows (by decide) _
  have hclean : Clean crowded := each_hollows (by decide) _
  exact ⟨Document.built_ofItems _ _, hdefined, hclean, nesting_hollows (by decide),
    hollows_uncounted (by decide) (by decide)⟩

end BlockDoc
