/-
# Formatting and parsing a document

A document is told from its dump if and only if every entry of it has a form (`HasForm`): there is
a content, the name fits on a line, and a value that needs lines of its own has none that would end
it early.  The two directions are proved apart.

* What has a form is read back (`readLines_item`): a step law for one item in front of more text,
  by induction on the item.  It tells of entries without content too, which leave a blank line.
* What was read has names that fit and contents (`Kept.readLines`): every property that adding such
  entries keeps holds of every document that was read, whatever the text and the files are.

Writing looks at the values only, and fails at the first one without a form (`format_eq`).
-/
import BlockDoc.Proofs.Document.Built
import BlockDoc.Proofs.Dump.Heredoc

namespace BlockDoc.Dump

open Text (isMargin)

/-! ## 1. Entries that have a form -/

/-- A value that needs lines of its own, one of which would end it early. -/
def Unwritable : Item → Prop
  | .param _ text _ => needsHeredoc text.toList = true ∧
      ∃ line ∈ text.toList.splitOn '\n', Text.trim isMargin line = ['>', '>', '>']
  | .undef _ _ => False
  | .block _ _ _ _ => False

instance : DecidablePred Unwritable
  | .param _ text _ => inferInstanceAs (Decidable (needsHeredoc text.toList = true ∧
      ∃ line ∈ text.toList.splitOn '\n', Text.trim isMargin line = ['>', '>', '>']))
  | .undef _ _ => inferInstanceAs (Decidable False)
  | .block _ _ _ _ => inferInstanceAs (Decidable False)

/-- The name of an entry fits on its line. -/
def NameFits : Item → Prop
  | .param name _ _ => FitsParam name.toList
  | .undef name _ => Fits name.toList
  | .block name _ _ _ => Fits name.toList

instance : DecidablePred NameFits
  | .param name _ _ => inferInstanceAs (Decidable (FitsParam name.toList))
  | .undef name _ => inferInstanceAs (Decidable (Fits name.toList))
  | .block name _ _ _ => inferInstanceAs (Decidable (Fits name.toList))

/-- An entry has a form that is read back as this entry. -/
@[mk_iff]
structure HasForm (x : Item) : Prop where
  /-- There is a content. -/
  defined : x.isUndef = false
  /-- The name fits on its line. -/
  name : NameFits x
  /-- The value can be written. -/
  value : ¬ Unwritable x

instance : DecidablePred HasForm := fun x => decidable_of_iff _ (hasForm_iff x).symm

/-- Whatever is written of an entry is read back as it stands.  An entry without content leaves
nothing but a blank line. -/
structure Legible (x : Item) : Prop where
  /-- The name fits on its line, if it is written. -/
  name : x.isUndef = false → NameFits x
  /-- The value can be written. -/
  value : ¬ Unwritable x

theorem HasForm.legible {x : Item} (h : HasForm x) : Legible x := ⟨fun _ => h.name, h.value⟩

/-- Every entry of a document, at any level, has a form. -/
def Representable (d : Document) : Prop := ∀ x ∈ (d.outline .chosen).preorder, HasForm x

theorem unwritable_param {name text comment : String} :
    Unwritable (.param name text comment) ↔
      (needsHeredoc text.toList && hasTerminator text.toList) = true := by
  simp only [Unwritable, hasTerminator, isTerminator, Bool.and_eq_true, List.any_eq_true,
    beq_iff_eq]

@[simp] theorem nameFits_arranged {x : Item} : NameFits x.arranged ↔ NameFits x := by
  cases x <;> rfl

@[simp] theorem unwritable_arranged {x : Item} : Unwritable x.arranged ↔ Unwritable x := by
  cases x <;> rfl

/-! ## 2. Writing -/

/-- The first value of several items that has no form. -/
theorem unwritableIn?_of_items {items : List Item}
    (h : ∀ it ∈ items, Item.unwritable? it = (it.preorder.find? (Unwritable ·)).map Item.name) :
    unwritableIn? items = ((itemsPreorder items).find? (Unwritable ·)).map Item.name := by
  induction items with
  | nil => rfl
  | cons it items ih =>
    rw [unwritableIn?, itemsPreorder, List.find?_append, h it List.mem_cons_self,
      ih fun x hx => h x (List.mem_cons_of_mem _ hx)]
    cases it.preorder.find? (Unwritable ·) <;> rfl

/-- **The value that is named** is the first one without a form, from top to bottom. -/
theorem unwritable?_eq (it : Item) :
    Item.unwritable? it = (it.preorder.find? (Unwritable ·)).map Item.name := by
  induction it with
  | undef name comment => rfl
  | param name text comment =>
    rw [Item.unwritable?, Item.preorder]
    split
    next h => rw [List.find?_cons_of_pos (by simpa using unwritable_param.mpr h)]; rfl
    next h =>
      rw [List.find?_cons_of_neg (by simpa using fun hu => h (unwritable_param.mp hu))]
      rfl
  | block name sorted items comment ih =>
    have hblock : ¬ Unwritable (.block name sorted items comment) := id
    rw [Item.unwritable?, Item.preorder, List.find?_cons_of_neg (by simpa using hblock)]
    exact unwritableIn?_of_items ih

/-- **Writing fails at the first value without a form**, and only there. -/
theorem format_eq (d : Document) :
    format d = match (d.outline .chosen).preorder.find? (Unwritable ·) with
      | some x => .error (.unrepresentableValue x.name)
      | none => .ok (render d) := by
  rw [format, unwritableIn?_of_items fun it _ => unwritable?_eq it, Outline.preorder,
    Document.outline]
  cases (itemsPreorder (d.items .chosen)).find? (Unwritable ·) <;> rfl

theorem format_ok_iff {d : Document} {text : List Char} :
    format d = .ok text ↔
      text = render d ∧ ∀ x ∈ (d.outline .chosen).preorder, ¬ Unwritable x := by
  have hnone : (d.outline .chosen).preorder.find? (Unwritable ·) = none ↔
      ∀ x ∈ (d.outline .chosen).preorder, ¬ Unwritable x := by
    simp only [List.find?_eq_none, decide_eq_true_eq]
  rw [format_eq, ← hnone]
  cases (d.outline .chosen).preorder.find? (Unwritable ·) with
  | none => simp [eq_comm]
  | some x => simp

theorem format_error_iff {d : Document} {e : Error} :
    format d = .error e ↔ ∃ before x after, (d.outline .chosen).preorder = before ++ x :: after ∧
      (∀ y ∈ before, ¬ Unwritable y) ∧ Unwritable x ∧ e = .unrepresentableValue x.name := by
  have hfind : ∀ x, (d.outline .chosen).preorder.find? (Unwritable ·) = some x ↔
      ∃ before after, (d.outline .chosen).preorder = before ++ x :: after ∧
        (∀ y ∈ before, ¬ Unwritable y) ∧ Unwritable x := by
    intro x
    simp only [List.find?_eq_some_iff_append, decide_eq_true_eq, Bool.not_eq_true',
      decide_eq_false_iff_not]
    exact ⟨fun ⟨hx, before, after, h, hb⟩ => ⟨before, after, h, hb, hx⟩,
      fun ⟨before, after, h, hb, hx⟩ => ⟨hx, before, after, h, hb⟩⟩
  rw [format_eq]
  constructor
  · intro h
    split at h
    next x hx =>
      obtain ⟨before, after, hpre, hb, hu⟩ := (hfind x).mp hx
      cases h
      exact ⟨before, x, after, hpre, hb, hu, rfl⟩
    next => cases h
  · rintro ⟨before, x, after, hpre, hb, hu, rfl⟩
    rw [(hfind x).mpr ⟨before, after, hpre, hb, hu⟩]

/-! ## 3. Reading what was written -/

variable {files : FileReader} {charset : Charset} {limit number : Nat} {baseDir? : Option String}
  {line : List Char} {rest : List RawLine} {top : Document} {stack : List OpenBlock}

theorem readLines_param {name value : List Char} (h : Line.ofChars line = .param name value) :
    readLines files charset limit baseDir? number (some line :: rest) top stack =
      readLines files charset limit baseDir? (number + 1) rest
        (top.set (String.ofList name) (.param (String.ofList value))) stack := by
  conv_lhs => rw [readLines.eq_def]
  simp only [h]

theorem readLines_heredoc {name : List Char} {body : List (List Char)} {rest' : List RawLine}
    (h : Line.ofChars line = .heredoc name) (hb : takeBody (number + 1) rest = .ok (body, rest')) :
    readLines files charset limit baseDir? number (some line :: rest) top stack =
      readLines files charset limit baseDir? (number + 1 + body.length + 1) rest'
        (top.set (String.ofList name)
          (.param (String.ofList (heredocValue stack.length body)))) stack := by
  conv_lhs => rw [readLines.eq_def]
  simp only [h]
  split
  · next e he => cases hb.symm.trans he
  · next he =>
    cases hb.symm.trans he
    rfl

theorem readLines_opening {name : List Char} {sorted : Bool}
    (h : Line.ofChars line = .opening name sorted none) (hl : stack.length + 1 < limit) :
    readLines files charset limit baseDir? number (some line :: rest) top stack =
      readLines files charset limit baseDir? (number + 1) rest (.empty sorted)
        (⟨top, String.ofList name⟩ :: stack) := by
  conv_lhs => rw [readLines.eq_def]
  simp only [h]
  rw [dif_neg (Nat.not_le_of_lt hl)]

theorem readLines_closing {b : OpenBlock} (h : Line.ofChars line = .closing) :
    readLines files charset limit baseDir? number (some line :: rest) top (b :: stack) =
      readLines files charset limit baseDir? (number + 1) rest
        (b.outer.set b.name (.block top)) stack := by
  conv_lhs => rw [readLines.eq_def]
  simp only [h]

theorem readLines_tooDeep {name : List Char} {sorted : Bool} {path? : Option (List Char)}
    (h : Line.ofChars line = .opening name sorted path?) (hl : limit ≤ stack.length + 1) :
    readLines files charset limit baseDir? number (some line :: rest) top stack =
      .error (.nestingTooDeep limit) := by
  rw [readLines.eq_def]
  simp only [h]
  rw [dif_pos hl]

theorem readLines_noise (h : Line.ofChars line = .noise) :
    readLines files charset limit baseDir? number (some line :: rest) top stack =
      readLines files charset limit baseDir? (number + 1) rest top stack := by
  conv_lhs => rw [readLines.eq_def]
  simp only [h]

/-- So many blocks may lie inside each other at a level of nesting. -/
def HasRoom (limit level depth : Nat) : Prop := depth = 0 ∨ depth + level < limit

instance (limit level depth : Nat) : Decidable (HasRoom limit level depth) :=
  inferInstanceAs (Decidable (_ ∨ _))

/-- The lines of an item in front of more text, at the level of the open document.  They are read
as the item without its entries without content, or they are nested too deeply. -/
def ReadsItem (files : FileReader) (charset : Charset) (limit : Nat) (baseDir? : Option String)
    (it : Item) : Prop :=
  ∀ (rest : List Char) (number : Nat) (top : Document) (stack : List OpenBlock),
    (∀ x ∈ it.preorder, Legible x) →
    ∃ number', readLines files charset limit baseDir? number
        (rawLines (renderItem stack.length it ++ rest)) top stack =
      if HasRoom limit stack.length it.depth then
        readLines files charset limit baseDir? number' (rawLines rest)
          (top.addItems it.defined?.toList) stack
      else .error (.nestingTooDeep limit)

/-- All items of a block are read before what follows them. -/
theorem readLines_items {items : List Item}
    (h : ∀ it ∈ items, ReadsItem files charset limit baseDir? it)
    (hform : ∀ x ∈ itemsPreorder items, Legible x) (rest : List Char) (number : Nat)
    (top : Document) (stack : List OpenBlock) :
    ∃ number', readLines files charset limit baseDir? number
        (rawLines (renderItems stack.length items ++ rest)) top stack =
      if HasRoom limit stack.length (itemsDepth items) then
        readLines files charset limit baseDir? number' (rawLines rest)
          (top.addItems (definedItems items)) stack
      else .error (.nestingTooDeep limit) := by
  induction items generalizing number top with
  | nil => exact ⟨number, (if_pos (.inl rfl)).symm⟩
  | cons it items ih =>
    simp only [itemsPreorder, List.forall_mem_append] at hform
    obtain ⟨n, hn⟩ := h it List.mem_cons_self (renderItems stack.length items ++ rest) number top
      stack hform.1
    obtain ⟨n', hn'⟩ := ih (fun x hx => h x (List.mem_cons_of_mem _ hx)) hform.2 n
      (top.addItems it.defined?.toList)
    have hroom : HasRoom limit stack.length (itemsDepth (it :: items)) ↔
        HasRoom limit stack.length it.depth ∧ HasRoom limit stack.length (itemsDepth items) := by
      simp only [HasRoom, itemsDepth]
      omega
    refine ⟨n', ?_⟩
    rw [renderItems, List.append_assoc, hn, hn', definedItems, Document.addItems_append]
    simp only [hroom, ite_and]

theorem renderParam_lines {level : Nat} {name value : List Char} (h : needsHeredoc value = true)
    (rest : List Char) :
    renderParam level name value ++ rest =
      indent level ++ (name ++ ['=', '<', '<', '<'] ++ lineEnd) ++
        (bodyText level value ++ (indent level ++ (['>', '>', '>'] ++ lineEnd) ++ rest)) := by
  simp only [renderParam, if_pos h, bodyText, List.append_assoc]

theorem renderParam_line {level : Nat} {name value : List Char} (h : needsHeredoc value = false)
    (rest : List Char) :
    renderParam level name value ++ rest =
      indent level ++ (name ++ ('=' :: value) ++ lineEnd) ++ rest := by
  simp only [renderParam, h, Bool.false_eq_true, if_false, List.append_assoc, List.cons_append]

/-- **A parameter is read back**, from one line or from lines of its own. -/
theorem readLines_renderParam {name value : List Char} (hname : FitsParam name)
    (hvalue : ¬ (needsHeredoc value && hasTerminator value) = true) (rest : List Char)
    (number : Nat) (top : Document) (stack : List OpenBlock) :
    ∃ number', readLines files charset limit baseDir? number
        (rawLines (renderParam stack.length name value ++ rest)) top stack =
      readLines files charset limit baseDir? number' (rawLines rest)
        (top.set (String.ofList name) (.param (String.ofList value))) stack := by
  by_cases hneeds : needsHeredoc value = true
  · have hterm : hasTerminator value = false := by simpa [hneeds] using hvalue
    have hnew : '\n' ∉ name ++ ['=', '<', '<', '<'] := by simp [hname.newline]
    refine ⟨number + 1 + (body stack.length value).length + 1, ?_⟩
    rw [renderParam_lines hneeds, rawLines_written _ hnew,
      readLines_heredoc (ofChars_heredoc hname) (takeBody_written hterm (number + 1) rest),
      heredocValue_body]
  · have hplain := Bool.eq_false_iff.mpr hneeds
    have hnew : '\n' ∉ name ++ '=' :: value := by
      simp [hname.newline, (plain_of_needsHeredoc hplain).newline]
    refine ⟨number + 1, ?_⟩
    rw [renderParam_line hplain, rawLines_written _ hnew]
    exact readLines_param (ofChars_param hname hplain)

theorem renderItem_block {level : Nat} {name : String} {sorted : Bool} {items : List Item}
    {comment : String} (rest : List Char) :
    renderItem level (.block name sorted items comment) ++ rest =
      indent level ++ (name.toList ++ [if sorted then '^' else '~', '{'] ++ lineEnd) ++
        (renderItems (level + 1) items ++ (indent level ++ (['}'] ++ lineEnd) ++ rest)) := by
  simp only [renderItem, List.append_assoc, List.cons_append, List.nil_append]

/-- **The lines of an item are read back**, whatever follows them. -/
theorem readLines_item (it : Item) : ReadsItem files charset limit baseDir? it := by
  induction it with
  | undef name comment =>
    intro rest number top stack _
    refine ⟨number + 1, ?_⟩
    have hblank := rawLines_written stack.length (List.not_mem_nil : '\n' ∉ []) rest
    rw [if_pos (.inl rfl), renderItem, ← List.nil_append lineEnd, hblank,
      readLines_noise ofChars_blank]
    rfl
  | param name text comment =>
    intro rest number top stack hform
    have h := hform _ (Item.mem_preorder_self _)
    have hvalue := fun hu => h.value (unwritable_param.mpr hu)
    obtain ⟨n, hn⟩ := readLines_renderParam (h.name rfl) hvalue rest number top stack
    rw [String.ofList_toList, String.ofList_toList] at hn
    refine ⟨n, ?_⟩
    rw [if_pos (.inl rfl), renderItem]
    exact hn
  | block name sorted items comment ih =>
    intro rest number top stack hform
    have hname : Fits name.toList := (hform _ (Item.mem_preorder_self _)).name rfl
    have hitems : ∀ x ∈ itemsPreorder items, Legible x := fun x hx =>
      hform x (List.mem_cons_of_mem _ hx)
    have hnew : '\n' ∉ name.toList ++ [if sorted then '^' else '~', '{'] := by
      cases sorted <;> simp [hname.newline]
    rw [renderItem_block, rawLines_written _ hnew]
    by_cases hlevel : limit ≤ stack.length + 1
    · have hroom : ¬ HasRoom limit stack.length (itemsDepth items + 1) := by
        simp only [HasRoom]
        omega
      exact ⟨0, by rw [readLines_tooDeep (ofChars_opening hname sorted) hlevel, Item.depth,
        if_neg hroom]⟩
    · have hroom : HasRoom limit stack.length (itemsDepth items + 1) ↔
          HasRoom limit (stack.length + 1) (itemsDepth items) := by
        simp only [HasRoom]
        omega
      obtain ⟨n, hn⟩ := readLines_items ih hitems
        (indent stack.length ++ (['}'] ++ lineEnd) ++ rest) (number + 1) (.empty sorted)
        (⟨top, name⟩ :: stack)
      refine ⟨n + 1, ?_⟩
      rw [readLines_opening (ofChars_opening hname sorted) (by omega), String.ofList_toList]
      refine hn.trans ?_
      rw [rawLines_written _ (by decide), readLines_closing ofChars_closing, Item.depth]
      simp only [hroom]
      rfl

/-- **A dump is read back** as far as there is room: the document has the items that were written,
without the entries that have no content. -/
theorem parseWith_render (d : Document) (hform : ∀ x ∈ (d.outline .chosen).preorder, Legible x)
    (files : FileReader) (o : Options) :
    parseWith files o (render d) =
      if HasRoom o.limit 0 (d.outline .chosen).depth then
        .ok (.ofItems true (definedItems (d.items .chosen)))
      else .error (.nestingTooDeep o.limit) := by
  have hitems : ∀ it ∈ d.items .chosen, ReadsItem files o.charset o.limit o.baseDir? it :=
    fun it _ => readLines_item it
  obtain ⟨n, hn⟩ := readLines_items hitems hform [] 0 (.empty true) []
  rw [List.append_nil] at hn
  rw [parseWith, render_eq]
  refine hn.trans ?_
  rw [readLines.eq_def]
  rfl

/-- **A dump is read back** if every entry has a form. -/
theorem parse_render (d : Document) (hform : Representable d)
    (hdepth : (d.outline .chosen).depth < maxDepth) (files : FileReader) :
    parse files (render d) = .ok (.ofItems true (d.items .chosen)) := by
  have hdefined : definedItems (d.items .chosen) = d.items .chosen :=
    definedItems_eq_self fun x hx => (hform x hx).defined
  rw [parse, parseWith_render d (fun x hx => (hform x hx).legible), if_pos (.inr hdepth), hdefined]

/-! ## 4. What can be read -/

/-- A value that can be read: it stands on the line of its name, or on lines of its own none of
which ends it. -/
def ReadValue (value : List Char) : Prop := Inline value ∨ hasTerminator value = false

/-- What every step of reading keeps: it holds of a document without entries, and one more entry
with a name and a value that can be read does no harm to a document that was built. -/
structure Kept (P : Document → Prop) : Prop where
  empty : ∀ sorted, P (.empty sorted)
  setSorted : ∀ d sorted, d.Built → P d → P (d.setSorted sorted)
  param : ∀ d name text, d.Built → P d → FitsParam name.toList → ReadValue text.toList →
    P (d.set name (.param text))
  block : ∀ d name inner, d.Built → P d → Fits name.toList → inner.Built → P inner →
    P (d.set name (.block inner))

/-- The property, of a document that was built. -/
def OfBuilt (P : Document → Prop) (d : Document) : Prop := d.Built ∧ P d

variable {P : Document → Prop} {d : Document}

section Steps

variable (hP : Kept P)
include hP

theorem Kept.ofEmpty (sorted : Bool) : OfBuilt P (.empty sorted) := ⟨.empty sorted, hP.empty sorted⟩

theorem Kept.ofSetSorted (h : OfBuilt P d) (sorted : Bool) : OfBuilt P (d.setSorted sorted) :=
  ⟨h.1.setSorted sorted, hP.setSorted _ sorted h.1 h.2⟩

theorem Kept.ofParam (h : OfBuilt P d) {name value : List Char} (hname : FitsParam name)
    (hvalue : ReadValue value) :
    OfBuilt P (d.set (String.ofList name) (.param (String.ofList value))) :=
  ⟨h.1.set _ (fun _ e => by cases e),
    hP.param _ _ _ h.1 h.2 (by rwa [String.toList_ofList]) (by rwa [String.toList_ofList])⟩

theorem Kept.ofBlock (h : OfBuilt P d) {name : String} {inner : Document}
    (hname : Fits name.toList) (hinner : OfBuilt P inner) :
    OfBuilt P (d.set name (.block inner)) :=
  ⟨h.1.set _ (fun _ e => by cases e; exact hinner.1),
    hP.block _ _ _ h.1 h.2 hname hinner.1 hinner.2⟩

theorem Kept.of_closeAll (htop : OfBuilt P top)
    (hstack : ∀ b ∈ stack, OfBuilt P b.outer ∧ Fits b.name.toList) :
    OfBuilt P (closeAll top stack) := by
  induction stack generalizing top with
  | nil => exact htop
  | cons b stack ih =>
    obtain ⟨houter, hname⟩ := hstack b List.mem_cons_self
    exact ih (hP.ofBlock houter hname htop) fun b' hb' => hstack b' (List.mem_cons_of_mem _ hb')

/-- **What every step keeps holds of every document that was read**, included dumps and blocks
without an end among them. -/
theorem Kept.of_readLines {lines : List RawLine}
    (h : readLines files charset limit baseDir? number lines top stack = .ok d)
    (hlines : AreLines lines) (htop : OfBuilt P top)
    (hstack : ∀ b ∈ stack, OfBuilt P b.outer ∧ Fits b.name.toList) : OfBuilt P d := by
  fun_induction readLines files charset limit baseDir? number lines top stack generalizing d with
  | case1 =>
    cases h
    exact hP.of_closeAll htop hstack
  | case2 => cases h
  | case3 => cases h
  | case4 limit baseDir? number top stack line rest name sorted hlevel stack' hline =>
    rename_i ih
    -- a block starts: the open document waits on the stack
    have hnamed := named_ofChars hlines.isLine
    rw [hline] at hnamed
    refine ih h hlines.rest (hP.ofEmpty sorted) ?_
    exact List.forall_mem_cons.mpr ⟨⟨htop, by rw [String.toList_ofList]; exact hnamed⟩, hstack⟩
  | case5 => cases h
  | case6 => cases h
  | case7 limit baseDir? number top stack line rest name sorted hlevel stack' path text dir? ho
      included hi hline ihi =>
    rename_i ih
    -- a block starts with the content of another dump, which was read in the same way
    have hnamed := named_ofChars hlines.isLine
    rw [hline] at hnamed
    have hincluded : OfBuilt P included :=
      ihi hi (areLines_rawLines text) (hP.ofEmpty true) (by simp)
    refine ih h hlines.rest (hP.ofSetSorted hincluded sorted) ?_
    exact List.forall_mem_cons.mpr ⟨⟨htop, by rw [String.toList_ofList]; exact hnamed⟩, hstack⟩
  | case8 limit baseDir? number top line rest hline ih =>
    exact ih h hlines.rest htop hstack
  | case9 limit baseDir? number top line rest hline b outer ih =>
    -- a block ends: it becomes the newest entry of the document around it
    obtain ⟨⟨houter, hname⟩, hstack⟩ := List.forall_mem_cons.mp hstack
    exact ih h hlines.rest (hP.ofBlock houter hname htop) hstack
  | case10 limit baseDir? number top stack line rest name value hline ih =>
    have hnamed := named_ofChars hlines.isLine
    rw [hline] at hnamed
    have hvalue : ReadValue value := .inl (inline_ofChars hlines.isLine hline)
    exact ih h hlines.rest (hP.ofParam htop hnamed hvalue) hstack
  | case11 => cases h
  | case12 limit baseDir? number top stack line rest name hline body rest' hb ih =>
    have hnamed := named_ofChars hlines.isLine
    rw [hline] at hnamed
    obtain ⟨hrest, hbody⟩ := hlines.rest.takeBody hb
    have hvalue : ReadValue (heredocValue stack.length body) :=
      .inr (hasTerminator_heredocValue hbody)
    exact ih h hrest (hP.ofParam htop hnamed hvalue) hstack
  | case13 limit baseDir? number top stack line rest hline ih =>
    exact ih h hlines.rest htop hstack

theorem Kept.of_parseWith {o : Options} {text : List Char} (h : parseWith files o text = .ok d) :
    P d :=
  (hP.of_readLines h (areLines_rawLines text) (hP.ofEmpty true) (by simp)).2

theorem Kept.of_parse {text : List Char} (h : parse files text = .ok d) : P d := hP.of_parseWith h

theorem Kept.of_loadFile {o : Options} {path : String} (h : loadFile files o path = .ok d) :
    P d := by
  obtain ⟨⟨text, dir?⟩, -, h⟩ := bind_eq_ok.1 h
  exact hP.of_parseWith h

end Steps

/-- **Every document that was read was built.** -/
theorem kept_built : Kept Document.Built where
  empty := .empty
  setSorted _ sorted hd _ := hd.setSorted sorted
  param _ name _ hd _ _ _ := hd.set name fun _ e => by cases e
  block _ name _ hd _ _ hinner _ := hd.set name fun _ e => by cases e; exact hinner

/-- What holds of every entry that reading can add holds of every entry of a document that was
read. -/
theorem kept_each {Q : Item → Prop}
    (hparam : ∀ name text, FitsParam name.toList → ReadValue text.toList → Q (.param name text ""))
    (hblock : ∀ name sorted items, Fits name.toList → Q (.block name sorted items "")) :
    Kept (Document.Each Q) where
  empty := Document.each_empty
  setSorted _ sorted hd h := h.setSorted hd.indexed sorted
  param _ name text hd h hname hvalue := h.set_param hd.indexed (hparam name text hname hvalue)
  block _ name _ hd h hname _ hinner := h.set_block hd.indexed (hblock name _ _ hname) hinner

/-- **Every entry that was read has a content and a name that fits.** -/
theorem kept_named : Kept (Document.Each fun x => x.isUndef = false ∧ NameFits x) :=
  kept_each (fun _ _ hname _ => ⟨rfl, hname⟩) fun _ _ _ hname => ⟨rfl, hname⟩

theorem named_arranged (x : Item) (h : x.isUndef = false ∧ NameFits x) :
    x.arranged.isUndef = false ∧ NameFits x.arranged := by
  simpa using h

/-! ## 5. There and back -/

/-- A document without comments is the document that its items make, in default order. -/
theorem outline_ofItems_chosen (hd : d.Built) (hsorted : d.sorted = true)
    (hcomment : ∀ x ∈ (d.outline .chosen).preorder, x.comment = "") :
    (Document.ofItems true (d.items .chosen)).outline .chosen = d.outline .chosen := by
  have h := Document.outline_ofItems_eq (Outline.bare_eq_self _ hcomment) hd.arranged_chosen
  have hroot : (d.outline .chosen).sorted = true := hsorted
  rwa [hroot] at h

/-- **A document is read back from its dump if and only if every entry has a form**, whatever is
in the files.  What is read back has the flags, names, kinds and values of the document in their
default order.

Writing fails if and only if some value has no form, and then it names the first one from top to
bottom. -/
theorem format_parse (hd : d.Built) (hsorted : d.sorted = true)
    (hcomment : ∀ x ∈ (d.outline .chosen).preorder, x.comment = "")
    (hdepth : (d.outline .chosen).depth < maxDepth) (files : FileReader) :
    ((∃ t d', format d = .ok t ∧ parse files t = .ok d' ∧ (d' == d) = true) ↔
        Representable d) ∧
      (Representable d → ∃ t d', format d = .ok t ∧ parse files t = .ok d' ∧
        d'.outline .chosen = d.outline .chosen) ∧
      ((∃ e, format d = .error e) ↔ ∃ x ∈ (d.outline .chosen).preorder, Unwritable x) ∧
      (∀ e, format d = .error e ↔ ∃ before x after,
        (d.outline .chosen).preorder = before ++ x :: after ∧ (∀ y ∈ before, ¬ Unwritable y) ∧
          Unwritable x ∧ e = .unrepresentableValue x.name) := by
  have hread : Representable d → ∃ t d', format d = .ok t ∧ parse files t = .ok d' ∧
      d'.outline .chosen = d.outline .chosen := fun hform =>
    ⟨render d, _, format_ok_iff.mpr ⟨rfl, fun x hx => (hform x hx).value⟩,
      parse_render d hform hdepth files, outline_ofItems_chosen hd hsorted hcomment⟩
  refine ⟨⟨?_, fun hform => ?_⟩, hread, ⟨?_, ?_⟩, fun e => format_error_iff⟩
  · rintro ⟨t, d', ht, hd', he⟩ x hx
    have houtline : d'.outline .chosen = d.outline .chosen := of_decide_eq_true he
    have hnamed := Document.Each.chosen (kept_named.of_parse hd') (kept_built.of_parse hd')
      named_arranged
    rw [houtline] at hnamed
    exact ⟨(hnamed x hx).1, (hnamed x hx).2, (format_ok_iff.mp ht).2 x hx⟩
  · obtain ⟨t, d', ht, hd', houtline⟩ := hread hform
    exact ⟨t, d', ht, hd', decide_eq_true houtline⟩
  · rintro ⟨e, he⟩
    obtain ⟨before, x, after, hpre, -, hu, -⟩ := format_error_iff.mp he
    exact ⟨x, by rw [hpre]; exact List.mem_append_cons_self, hu⟩
  · rintro ⟨x, hx, hu⟩
    cases hf : format d with
    | error e => exact ⟨e, rfl⟩
    | ok t => exact absurd hu ((format_ok_iff.mp hf).2 x hx)

/-- A document with equal names, an unsorted block and values that need lines of their own. -/
def sample : Document :=
  .ofItems true [.param "b" "one\n  >> two\r\n" "",
    .block "a" false [.param "y" " padded " "", .param "x" "// \x7b" "", .param "x" "" ""] "",
    .param "b" "<<<" "", .block "a" true [] ""]

theorem sample_each {Q : Item → Prop} (hQ : ∀ x, Q x → Q x.arranged) (h : sample.Each Q) :
    ∀ x ∈ (sample.outline .chosen).preorder, Q x :=
  h.chosen (Document.built_ofItems _ _) hQ

/-- A small document is read back from its dump. -/
theorem format_parse_sample : sample.Built ∧ sample.sorted = true ∧
    (∀ x ∈ (sample.outline .chosen).preorder, x.comment = "") ∧
    (sample.outline .chosen).depth < maxDepth ∧ Representable sample ∧
    ∃ t d', format sample = .ok t ∧ parse (fun _ => .error .notFound) t = .ok d' ∧
      d'.outline .chosen = sample.outline .chosen := by
  have hd : sample.Built := Document.built_ofItems _ _
  have hsorted : sample.sorted = true := Document.sorted_addItems
  have hcomment : ∀ x ∈ (sample.outline .chosen).preorder, x.comment = "" := by
    refine sample_each (fun x hx => ?_) ?_
    · cases x <;> exact hx
    · rw [Document.Each, sample, Document.outline_ofItems]
      decide
  have hdepth : (sample.outline .chosen).depth < maxDepth := by
    rw [hd.outline_chosen, Outline.depth_arranged, sample, Document.outline_ofItems]
    decide
  have hform : Representable sample := by
    refine sample_each (fun x hx => ?_) ?_
    · cases x <;> exact ⟨hx.defined, hx.name, hx.value⟩
    · rw [Document.Each, sample, Document.outline_ofItems]
      decide
  exact ⟨hd, hsorted, hcomment, hdepth, hform,
    (format_parse hd hsorted hcomment hdepth _).2.1 hform⟩

end BlockDoc.Dump
