/-
# Dumps of listings

A document that was read from a listing is written without an error, and it is read back as it
stands, but for the order of the whole, which a dump does not say: a document that is read from a
dump is sorted, and the positions of a listing are in order only as long as nothing sorts them.

Of a document in general this is not true, so what a listing can hold has to come in.

* A line of a listing is trimmed of white space, which leaves no margin of a dump around it
  (`Trimmed.of_mem_tokens`).  So a line that ends a value on lines of its own is `>>>` and nothing
  else, and that is a value which needs no lines of its own (`Trimmed.writable`).
* A position is made of digits, which mean nothing on the line of a dump (`fitsParam_position`).
* A block is opened only if the blocks around it leave room for it, by the limit that the reader of
  dumps keeps to.

Every step of reading keeps these facts for all open blocks (`readTokens_listed`), whatever the
braces do, and closing blocks that have no end keeps them too (`Listed.closeAll`).
-/
import BlockDoc.Listing
import BlockDoc.Proofs.Dump.Inclusion

namespace BlockDoc

/-- A block keeps the order in which it was written. -/
def Item.Unsorted : Item → Prop
  | .block _ sorted _ _ => sorted = false
  | .param _ _ _ => True
  | .undef _ _ => True

@[simp] theorem Item.unsorted_arranged {x : Item} : x.arranged.Unsorted ↔ x.Unsorted := by
  cases x <;> rfl

@[simp] theorem Item.unsorted_bare {x : Item} : x.bare.Unsorted ↔ x.Unsorted := by
  cases x <;> rfl

namespace Listing

open Dump (FitsParam FitsAt HasForm)

/-! ## 1. What a listing can hold -/

/-- A line with nothing around it that the reader of dumps would take off. -/
structure Trimmed (text : List Char) : Prop where
  /-- It is on one line. -/
  newline : '\n' ∉ text
  /-- There is no margin in front of it. -/
  head : ∀ c ∈ text.head?, Text.isMargin c = false
  /-- There is no margin behind it. -/
  last : ∀ c ∈ text.getLast?, Text.isMargin c = false

/-- A property that no margin of a dump has tells that a character is none. -/
theorem isMargin_eq_false (q : Char → Prop) {c : Char} (hc : q c)
    (hq : ¬ q '\t' ∧ ¬ q '\n' ∧ ¬ q '\r' ∧ ¬ q ' ') : Text.isMargin c = false := by
  obtain ⟨htab, hnewline, hreturn, hblank⟩ := hq
  refine Bool.eq_false_iff.mpr fun hm => ?_
  simp only [Text.isMargin, Bool.or_eq_true, beq_iff_eq] at hm
  obtain ((rfl | rfl) | rfl) | rfl := hm
  · exact htab hc
  · exact hnewline hc
  · exact hreturn hc
  · exact hblank hc

/-- Every margin of a dump is white space. -/
theorem isMargin_of_isSpace {c : Char} (h : Text.isSpace c = false) : Text.isMargin c = false :=
  isMargin_eq_false (Text.isSpace · = false) h (by decide)

theorem Trimmed.of_mem_lineTokens {segment text : List Char}
    (h : .line text ∈ lineTokens segment) : Trimmed text := by
  obtain ⟨line, hline, heq⟩ := List.mem_filterMap.mp h
  obtain ⟨piece, hpiece, rfl⟩ := List.mem_map.mp hline
  split at heq
  next => cases heq
  next =>
    cases heq
    exact {
      newline hmem := Text.notMem_splitOn hpiece (Text.trim_infix.subset hmem)
      head c hc := isMargin_of_isSpace (Text.head?_trim c hc)
      last c hc := isMargin_of_isSpace (Text.getLast?_trim c hc) }

theorem Trimmed.of_mem_scan {segment code text : List Char}
    (h : .line text ∈ scan segment code) : Trimmed text := by
  fun_induction scan segment code with
  | case1 segment => exact .of_mem_lineTokens h
  | case2 segment cs ih =>
    simp only [List.mem_append, List.mem_cons, reduceCtorEq, false_or] at h
    exact h.elim .of_mem_lineTokens ih
  | case3 segment cs _ ih =>
    simp only [List.mem_append, List.mem_cons, reduceCtorEq, false_or] at h
    exact h.elim .of_mem_lineTokens ih
  | case4 segment c cs _ _ ih => exact ih h

/-- **Every line of a listing** is trimmed. -/
theorem Trimmed.of_mem_tokens {code text : List Char} (h : .line text ∈ tokens code) :
    Trimmed text := .of_mem_scan h

/-- **A trimmed line can be written**: it would end its own value only if it read `>>>`, and then
it stands on the line of its name. -/
theorem Trimmed.writable {text : List Char} (h : Trimmed text) (name comment : String) :
    ¬ Dump.Unwritable (.param name (String.ofList text) comment) := by
  rw [Dump.unwritable_param, String.toList_ofList, Bool.and_eq_true]
  rintro ⟨hneeds, hterm⟩
  rw [Dump.hasTerminator_of_notMem h.newline, Dump.isTerminator, beq_iff_eq,
    Text.trim_eq_self h.head h.last] at hterm
  subst hterm
  exact absurd hneeds (by decide)

/-- A position is made of digits. -/
theorem isDigit_position {n : Nat} {c : Char} (h : c ∈ (toString n).toList) :
    c.isDigit = true := by
  rw [Nat.toString_eq_repr, Nat.toList_repr] at h
  exact Nat.isDigit_of_mem_toDigits (by decide) (by decide) h

theorem notMem_position {n : Nat} {c : Char} (h : c.isDigit = false) :
    c ∉ (toString n).toList := fun hmem =>
  absurd (isDigit_position hmem) (by rw [h]; decide)

/-- **A position fits on the line of a parameter**: no digit means anything there. -/
theorem fitsParam_position (n : Nat) : FitsParam (toString n).toList := by
  have hnot : ∀ c, c.isDigit = false → c ∉ (toString n).toList := fun _ => notMem_position
  have hmargin : ∀ c ∈ (toString n).toList, Text.isMargin c = false := fun c hc =>
    isMargin_eq_false (Char.isDigit · = true) (isDigit_position hc) (by decide)
  exact {
    newline := hnot _ (by decide)
    comment hin := hnot '/' (by decide) (hin.subset (by decide))
    head c hc := hmargin c (List.mem_of_head? hc)
    equals := hnot _ (by decide)
    last c hc := Dump.isBlank_of_isMargin (hmargin c (List.mem_of_getLast? hc))
    brace hc := hnot _ (by decide) (List.mem_of_head? hc) }

/-! ## 2. What reading a listing keeps -/

/-- An entry of a listing: it has a form in a dump that says all of it. -/
structure Plain (x : Item) : Prop extends HasForm x where
  /-- There is no remark, which a dump would leave out. -/
  comment : x.comment = ""
  /-- A block keeps its order. -/
  unsorted : x.Unsorted

theorem Plain.arranged {x : Item} (h : Plain x) : Plain x.arranged where
  defined := by simpa using h.defined
  name := by simpa using h.name
  value := by simpa using h.value
  comment := by simpa using h.comment
  unsorted := by simpa using h.unsorted

/-- A document at a level of nesting, of which a listing has been read. -/
structure Listed (limit level : Nat) (d : Document) : Prop where
  built : d.Built
  sorted : d.sorted = false
  each : d.Each Plain
  fits : FitsAt limit level d

/-- Every open block holds what was read, and there is room for one more around the innermost. -/
def StackListed (limit : Nat) : List Block → Prop
  | [] => True
  | b :: outer =>
    outer.length + 1 < limit ∧ Listed limit outer.length b.document ∧ StackListed limit outer

variable {limit level : Nat} {b top : Block} {stack : List Block} {d inner : Document}

theorem listed_start (limit level : Nat) : Listed limit level Block.start.document where
  built := .empty false
  sorted := rfl
  each := Document.each_empty false
  fits := Dump.fitsAt_empty limit level false

/-- A line is added. -/
theorem Listed.add_line (h : Listed limit level b.document) {text : List Char}
    (ht : Trimmed text) :
    Listed limit level (b.add (.param (String.ofList text))).document where
  built := h.built.set _ fun _ e => by cases e
  sorted := h.sorted
  each := h.each.set_param h.built.indexed
    { defined := rfl
      name := fitsParam_position _
      value := ht.writable _ _
      comment := rfl
      unsorted := trivial }
  fits := h.fits.set_param _ _

/-- A block is added. -/
theorem Listed.add_block (h : Listed limit level b.document) (hlevel : level + 1 < limit)
    (hinner : Listed limit (level + 1) inner) :
    Listed limit level (b.add (.block inner)).document where
  built := h.built.set _ fun _ e => by cases e; exact hinner.built
  sorted := h.sorted
  each := h.each.set_block h.built.indexed
    { defined := rfl
      name := (fitsParam_position _).toFits
      value := id
      comment := rfl
      unsorted := hinner.sorted }
    hinner.each
  fits := h.fits.set_block hlevel hinner.fits _

/-- Blocks without an end are closed. -/
theorem Listed.closeAll (h : Listed limit stack.length top.document)
    (hstack : StackListed limit stack) : Listed limit 0 (top.closeAll stack) := by
  induction stack generalizing top with
  | nil => exact h
  | cons outer rest ih =>
    obtain ⟨hlevel, houter, hstack⟩ := hstack
    exact ih (houter.add_block hlevel h) hstack

/-- **Every step of reading keeps what was read**, braces without a partner included. -/
theorem readTokens_listed {tokens : List Token}
    (h : readTokens limit top stack tokens = .ok d)
    (htokens : ∀ text, .line text ∈ tokens → Trimmed text)
    (htop : Listed limit stack.length top.document) (hstack : StackListed limit stack) :
    Listed limit 0 d := by
  fun_induction readTokens limit top stack tokens with
  | case1 top stack =>
    cases h
    exact htop.closeAll hstack
  | case2 top stack text rest ih =>
    exact ih h (fun t ht => htokens t (List.mem_cons_of_mem _ ht))
      (htop.add_line (htokens text List.mem_cons_self)) hstack
  | case3 => cases h
  | case4 top stack rest hlevel ih =>
    exact ih h (fun t ht => htokens t (List.mem_cons_of_mem _ ht)) (listed_start limit _)
      ⟨Nat.lt_of_not_le hlevel, htop, hstack⟩
  | case5 top rest ih =>
    exact ih h (fun t ht => htokens t (List.mem_cons_of_mem _ ht)) htop hstack
  | case6 top rest outer stack ih =>
    obtain ⟨hlevel, houter, hstack⟩ := hstack
    exact ih h (fun t ht => htokens t (List.mem_cons_of_mem _ ht)) (houter.add_block hlevel htop)
      hstack

theorem parse_listed {code : List Char} (h : parse code = .ok d) : Listed maxDepth 0 d :=
  readTokens_listed h (fun _ => .of_mem_tokens) (listed_start maxDepth 0) trivial

/-! ## 3. There and back -/

/-- What was read from a listing is nested less deeply than a dump may be. -/
theorem Listed.depth (h : Listed limit 0 d) (hlimit : 0 < limit) :
    (d.outline .chosen).depth < limit := by
  rw [h.built.outline_chosen, Outline.depth_arranged]
  have hroom := h.fits.2
  rw [Document.nesting] at hroom
  simp only [Dump.HasRoom] at hroom
  omega

/-- Every entry of what was read from a listing, in the order that is written. -/
theorem Listed.plain (h : Listed limit level d) : ∀ x ∈ (d.outline .chosen).preorder, Plain x :=
  h.each.chosen h.built fun _ => Plain.arranged

/-- **A listing survives its dump.**  What was read from a listing is written without an error
and read back from what was written, whatever is in the files.  The blocks that come back are all
unsorted, and in the order of the listing the whole is equal to what was written. -/
theorem format_parse_listing {code : List Char} (h : parse code = .ok d) :
    ∃ t d', Dump.format d = .ok t ∧ (∀ files, Dump.parse files t = .ok d') ∧
      d'.Each Item.Unsorted ∧ (d'.setSorted false == d) = true := by
  have hd := parse_listed h
  have hplain := hd.plain
  have hcomment : (d.outline .chosen).bare = d.outline .chosen :=
    Outline.bare_eq_self _ fun x hx => (hplain x hx).comment
  refine ⟨Dump.render d, .ofItems true (d.items .chosen), ?_, fun files => ?_, ?_, ?_⟩
  · exact Dump.format_ok_iff.mpr ⟨rfl, fun x hx => (hplain x hx).value⟩
  · exact Dump.parse_render d (fun x hx => (hplain x hx).toHasForm) (hd.depth (by decide)) files
  · intro x hx
    rw [Document.outline_ofItems, Outline.mem_preorder_bare] at hx
    obtain ⟨y, hy, rfl⟩ := hx
    exact Item.unsorted_bare.mpr (hplain y hy).unsorted
  · have hequal := Document.outline_ofItems_eq hcomment hd.built.arranged_chosen
    have hroot : (d.outline .chosen).sorted = false := hd.sorted
    rw [hroot] at hequal
    rw [Document.setSorted_ofItems]
    exact decide_eq_true hequal

/-- A listing with a comment, with the marks of a value on lines of its own, with a carriage return
inside a line, with one closing brace too many and with two too few. -/
def skewed : List Char :=
  "// begin\n<<<\n\t>>> \nx\ry \x7b\n  a=1 \x7d\x7d\n>>>\n\x7b<<<\x7bq\r\n".toList

/-- What it holds. -/
def skewedDocument : Document :=
  .ofItems false [.param "0" "// begin" "", .param "1" "<<<" "", .param "2" ">>>" "",
    .param "3" "x\ry" "", .block "4" false [.param "0" "a=1" ""] "", .param "5" ">>>" "",
    .block "6" false [.param "0" "<<<" "", .block "1" false [.param "0" "q" ""] ""] ""]

/-- A small listing survives its dump. -/
theorem format_parse_skewed : parse skewed = .ok skewedDocument ∧
    ∃ t d', Dump.format skewedDocument = .ok t ∧ (∀ files, Dump.parse files t = .ok d') ∧
      d'.Each Item.Unsorted ∧ (d'.setSorted false == skewedDocument) = true := by
  have htokens : tokens skewed = [.line "// begin".toList, .line "<<<".toList,
      .line ">>>".toList, .line "x\ry".toList, .opening, .line "a=1".toList, .closing, .closing,
      .line ">>>".toList, .opening, .line "<<<".toList, .opening, .line "q".toList] := by decide
  have h : parse skewed = .ok skewedDocument := by
    rw [parse, htokens]
    rfl
  exact ⟨h, format_parse_listing h⟩

end Listing

end BlockDoc
