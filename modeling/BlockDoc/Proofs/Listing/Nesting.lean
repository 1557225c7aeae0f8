/-
# What a listing becomes

The reader of listings takes one part of a listing after the other.  It keeps a block that grows and
the blocks around it, each with the position that comes next; a block gets its own position only
when it is closed, and by then its content has been counted from zero and been forgotten again.

Two things are known of the open blocks at any time, and they carry everything that is said of the
result.

* Each of them is a document whose entries are called by their positions, with the next position
  behind them, and the same holds of all blocks inside (`Grown`).
* Spelled out, with an opening brace where a block inside begins, they are what was read so far
  (`spelled`).  Closing a block adds its closing brace, whether a brace says so or the end of the
  listing does (`spelled_close`), so in the end the document spells the listing with its braces put
  in order (`readTokens_grown`).

When reading fails is a question of the braces alone (`readTokens_error`), and which lines there are
one of the text between them (`scan_eq`).  Since positions are different names, the positions on
the way to a line lead to this line (`Leaf.ends`).

Main statement: `parse_splits`.
-/
import BlockDoc.Proofs.Document.Path
import BlockDoc.Proofs.Listing.Dump

namespace BlockDoc

/-- The text of a parameter. -/
def Item.text? : Item → Option String
  | .param _ text _ => some text
  | _ => none

namespace Listing

/-! ## 1. What a listing says -/

/-- A brace. -/
def isBrace (c : Char) : Bool := c == '\x7b' || c == '\x7d'

/-- The lines with something on them, without the white space around them. -/
def segmentLines (segment : List Char) : List (List Char) :=
  ((segment.splitOn '\n').map (Text.trim Text.isSpace)).filter (· ≠ [])

/-- The lines with something on them in the segments between the braces of a listing. -/
def codeLines (code : List Char) : List (List Char) :=
  (code.splitOnP isBrace).flatMap segmentLines

/-- What a brace does. -/
def braceToken (c : Char) : Token := if c = '\x7b' then .opening else .closing

/-- The lines of some segments with a brace behind each segment, as long as there are braces. -/
def weave : List (List Char) → List Char → List Token
  | [], _ => []
  | segment :: segments, [] => (segmentLines segment).map .line ++ weave segments []
  | segment :: segments, brace :: braces =>
    (segmentLines segment).map .line ++ braceToken brace :: weave segments braces

/-- The lines and the braces of a listing. -/
def codeTokens (code : List Char) : List Token := weave (code.splitOnP isBrace) (code.filter isBrace)

/-- How many blocks are open behind a character, if so many are open in front of it. -/
def levelBehind (level : Nat) (c : Char) : Nat :=
  if c = '\x7b' then level + 1 else if c = '\x7d' then level - 1 else level

/-- How many blocks are open behind a text.  A closing brace without an open block is passed over. -/
def openBlocks (level : Nat) (code : List Char) : Nat := code.foldl levelBehind level

/-- The parts of a listing inside of some open blocks, with the braces put in order: a closing brace
without an open block is left out, and blocks that are open at the end are closed. -/
def balance : Nat → List Token → List Token
  | level, [] => List.replicate level .closing
  | level, .line text :: rest => .line text :: balance level rest
  | level, .opening :: rest => .opening :: balance (level + 1) rest
  | 0, .closing :: rest => balance 0 rest
  | level + 1, .closing :: rest => .closing :: balance level rest

/-- The text of a line. -/
def Token.text? : Token → Option String
  | .line text => some (String.ofList text)
  | _ => none

/-! ## 2. What a document shows -/

mutual

/-- An item as it stands in a listing. -/
def bracedItem : Item → List Token
  | .undef _ _ => []
  | .param _ text _ => [.line text.toList]
  | .block _ _ items _ => .opening :: (braced items ++ [.closing])

/-- Several items as they stand in a listing. -/
def braced : List Item → List Token
  | [] => []
  | it :: rest => bracedItem it ++ braced rest

end

/-- Items are called by their positions. -/
def Positioned (items : List Item) : Prop :=
  items.map Item.name = (List.range items.length).map toString

/-- What an entry of a listing is: a parameter, or an unsorted block whose entries are called by
their positions. -/
structure IsPart (x : Item) : Prop where
  /-- It has a content. -/
  defined : x.isUndef = false
  /-- A block keeps its order. -/
  unsorted : x.Unsorted
  /-- The entries of a block are called by their positions. -/
  positions : Positioned x.children

/-- Positions lead through blocks to a line. -/
inductive Leaf : List Item → List Nat → String → Prop
  | here {items : List Item} {i : Nat} {name text comment : String} :
      items[i]? = some (.param name text comment) → Leaf items [i] text
  | inside {items inner : List Item} {i : Nat} {name comment text : String} {sorted : Bool}
      {path : List Nat} : items[i]? = some (.block name sorted inner comment) →
      Leaf inner path text → Leaf items (i :: path) text

/-- **A document holds a listing**, cut at its lines and its braces. -/
structure Splits (code : List Char) (d : Document) : Prop where
  /-- The document keeps its order. -/
  sorted : d.sorted = false
  /-- Its entries are called by their positions. -/
  positions : Positioned (d.items .insertion)
  /-- The blocks in it are of the same kind. -/
  each : d.Each IsPart
  /-- Its parameters are the lines of the listing, from top to bottom. -/
  texts : (d.outline .insertion).preorder.filterMap Item.text? =
    (codeLines code).map String.ofList
  /-- Its blocks lie inside each other as the braces say. -/
  nesting : braced (d.items .insertion) = balance 0 (codeTokens code)
  /-- A path of positions leads to the line that is found along them. -/
  leaf : ∀ path text, Leaf (d.items .insertion) path text →
    d.getParam (Document.joinPath (path.map toString)) = .ok text

/-! ## 3. Lines -/

theorem braced_append (items items' : List Item) :
    braced (items ++ items') = braced items ++ braced items' := by
  induction items with
  | nil => rfl
  | cons it items ih => rw [List.cons_append, braced, braced, ih, List.append_assoc]

theorem braced_eq (items : List Item) : braced items = items.flatMap bracedItem := by
  induction items with
  | nil => rfl
  | cons it items ih => rw [braced, ih, List.flatMap_cons]

theorem texts_braced_of {items : List Item} (h : ∀ it ∈ items,
    (bracedItem it).filterMap Token.text? = it.preorder.filterMap Item.text?) :
    (braced items).filterMap Token.text? = (itemsPreorder items).filterMap Item.text? := by
  rw [braced_eq, itemsPreorder_eq, List.filterMap_flatMap, List.filterMap_flatMap]
  exact List.flatMap_congr h

theorem texts_bracedItem (it : Item) :
    (bracedItem it).filterMap Token.text? = it.preorder.filterMap Item.text? := by
  induction it with
  | undef name comment => rfl
  | param name text comment => simp [bracedItem, Item.preorder, Token.text?, Item.text?]
  | block name sorted items comment ih =>
    have hfront : Item.text? (.block name sorted items comment) = none := rfl
    rw [bracedItem, Item.preorder, List.filterMap_cons_none hfront, ← texts_braced_of ih,
      List.filterMap_cons_none rfl, List.filterMap_append]
    exact List.append_nil _

/-- **The lines that items spell** are their parameters, from top to bottom. -/
theorem texts_braced (items : List Item) :
    (braced items).filterMap Token.text? = (itemsPreorder items).filterMap Item.text? :=
  texts_braced_of fun it _ => texts_bracedItem it

/-- Putting the braces in order changes no line. -/
theorem texts_balance (level : Nat) (parts : List Token) :
    (balance level parts).filterMap Token.text? = parts.filterMap Token.text? := by
  fun_induction balance level parts with
  | case1 level => simp [Token.text?]
  | case2 level text rest ih => rw [List.filterMap_cons, List.filterMap_cons, ih]
  | case3 level rest ih => rw [List.filterMap_cons, List.filterMap_cons, ih]
  | case4 rest ih => exact ih
  | case5 level rest ih => rw [List.filterMap_cons, List.filterMap_cons, ih]

theorem lineTokens_eq (segment : List Char) :
    lineTokens segment = (segmentLines segment).map .line := by
  rw [lineTokens, segmentLines]
  generalize (segment.splitOn '\n').map (Text.trim Text.isSpace) = lines
  induction lines with
  | nil => rfl
  | cons line lines ih =>
    by_cases h : line = [] <;> simp [h, ih]

/-- Nothing is set aside. -/
theorem modifyHead_nil (segments : List (List Char)) :
    segments.modifyHead (([] : List Char).reverse ++ ·) = segments := by
  cases segments <;> rfl

/-- **Lines and braces are found**, with what was set aside in front of the first brace. -/
theorem scan_eq (segment code : List Char) :
    scan segment code =
      weave ((code.splitOnP isBrace).modifyHead (segment.reverse ++ ·)) (code.filter isBrace) := by
  fun_induction scan segment code with
  | case1 segment => simp [weave, lineTokens_eq]
  | case2 segment cs ih =>
    rw [ih, modifyHead_nil, List.splitOnP_cons_eq_if_modifyHead, if_pos (by decide),
      List.filter_cons_of_pos (by decide), lineTokens_eq]
    simp [weave, braceToken]
  | case3 segment cs h ih =>
    rw [ih, modifyHead_nil, List.splitOnP_cons_eq_if_modifyHead, if_pos (by decide),
      List.filter_cons_of_pos (by decide), lineTokens_eq]
    simp [weave, braceToken]
  | case4 segment c cs h h' ih =>
    have hc : ¬ isBrace c = true := by simp [isBrace, h, h']
    rw [List.splitOnP_cons_eq_if_modifyHead, if_neg hc, List.filter_cons_of_neg hc,
      List.modifyHead_modifyHead, ih]
    simp [Function.comp_def]

theorem tokens_eq (code : List Char) : tokens code = codeTokens code := by
  rw [tokens, scan_eq, modifyHead_nil, codeTokens]

theorem texts_weave (segments : List (List Char)) (braces : List Char) :
    (weave segments braces).filterMap Token.text? =
      (segments.flatMap segmentLines).map String.ofList := by
  have hlines : ∀ lines : List (List Char),
      (lines.map Token.line).filterMap Token.text? = lines.map String.ofList := by
    intro lines
    rw [List.filterMap_map]
    exact congrFun List.filterMap_eq_map lines
  have hbrace : ∀ c, (braceToken c).text? = none := by
    intro c
    rw [braceToken]
    split <;> rfl
  fun_induction weave segments braces with
  | case1 braces => rfl
  | case2 segment segments ih =>
    rw [List.filterMap_append, hlines, ih, List.flatMap_cons, List.map_append]
  | case3 segment segments brace braces ih =>
    rw [List.filterMap_append, List.filterMap_cons_none (hbrace brace), hlines, ih,
      List.flatMap_cons, List.map_append]

/-- **The lines of a listing** are those of its segments. -/
theorem texts_codeTokens (code : List Char) :
    (codeTokens code).filterMap Token.text? = (codeLines code).map String.ofList := by
  rw [codeTokens, texts_weave, codeLines]

/-! ## 4. Levels -/

variable {limit level : Nat} {top : Block} {stack : List Block}

/-- What is open behind a part that begins with a character. -/
theorem exists_prefix_cons (h : level ≠ limit) {c : Char} {cs : List Char} :
    (∃ front, front <+: c :: cs ∧ openBlocks level front = limit) ↔
      ∃ front, front <+: cs ∧ openBlocks (levelBehind level c) front = limit := by
  constructor
  · rintro ⟨front, hfront, hopen⟩
    rcases List.prefix_cons_iff.mp hfront with rfl | ⟨rest, rfl, hrest⟩
    · exact absurd hopen h
    · exact ⟨rest, hrest, hopen⟩
  · rintro ⟨front, hfront, hopen⟩
    exact ⟨c :: front, List.cons_prefix_cons.mpr ⟨rfl, hfront⟩, hopen⟩

/-- Lines open and close nothing. -/
theorem readTokens_lineTokens (segment : List Char) (top : Block) (stack : List Block)
    (rest : List Token) : ∃ top', readTokens limit top stack (lineTokens segment ++ rest) =
      readTokens limit top' stack rest := by
  rw [lineTokens]
  generalize (segment.splitOn '\n').map (Text.trim Text.isSpace) = lines
  induction lines generalizing top with
  | nil => exact ⟨top, rfl⟩
  | cons line lines ih =>
    by_cases h : line = []
    · rw [List.filterMap_cons, if_pos h]
      exact ih top
    · rw [List.filterMap_cons, if_neg h]
      exact ih _

/-- **Reading fails if too many blocks are open** at some place, and only then. -/
theorem readTokens_scan_error (segment code : List Char) (hlevel : stack.length < limit)
    {e : Error} : readTokens limit top stack (scan segment code) = .error e ↔
      e = .nestingTooDeep limit ∧
        ∃ front, front <+: code ∧ openBlocks stack.length front = limit := by
  fun_induction scan segment code generalizing top stack with
  | case1 segment =>
    obtain ⟨top', htop⟩ := readTokens_lineTokens segment.reverse top stack []
    rw [List.append_nil] at htop
    rw [htop, readTokens]
    refine iff_of_false (by simp) ?_
    rintro ⟨-, front, hfront, hopen⟩
    rw [List.prefix_nil.mp hfront] at hopen
    exact hlevel.ne hopen
  | case2 segment cs ih =>
    obtain ⟨top', htop⟩ :=
      readTokens_lineTokens segment.reverse top stack (.opening :: scan [] cs)
    rw [htop, exists_prefix_cons hlevel.ne, readTokens, levelBehind, if_pos rfl]
    by_cases hfull : stack.length + 1 ≥ limit
    · rw [if_pos hfull]
      have hopen : openBlocks (stack.length + 1) [] = limit := by
        rw [openBlocks, List.foldl_nil]
        omega
      exact ⟨fun h => ⟨(Except.error.inj h).symm, [], List.nil_prefix, hopen⟩,
        fun h => congrArg Except.error h.1.symm⟩
    · rw [if_neg hfull]
      exact ih (Nat.lt_of_not_le hfull)
  | case3 segment cs h ih =>
    obtain ⟨top', htop⟩ :=
      readTokens_lineTokens segment.reverse top stack (.closing :: scan [] cs)
    rw [htop, exists_prefix_cons hlevel.ne, levelBehind, if_neg h, if_pos rfl]
    cases stack with
    | nil => exact ih hlevel
    | cons outer stack => exact ih (Nat.lt_of_succ_lt hlevel)
  | case4 segment c cs h h' ih =>
    rw [exists_prefix_cons hlevel.ne, levelBehind, if_neg h, if_neg h']
    exact ih hlevel

/-! ## 5. Blocks that grow -/

variable {b outer : Block} {d inner : Document} {items : List Item} {it : Item}

/-- Another item at the next position. -/
theorem Positioned.concat (h : Positioned items) (hname : it.name = toString items.length) :
    Positioned (items ++ [it]) := by
  rw [Positioned, List.length_append, List.length_singleton, List.range_succ, List.map_append,
    List.map_append, List.map_singleton, List.map_singleton, hname,
    show items.map Item.name = (List.range items.length).map toString from h]

/-- A document whose entries, and those of the blocks in it, are called by their positions. -/
structure Counted (d : Document) : Prop where
  built : d.Built
  sorted : d.sorted = false
  positions : Positioned (d.items .insertion)
  each : d.Each IsPart

/-- A block that was counted so far. -/
structure Grown (b : Block) : Prop extends Counted b.document where
  next : b.next = (b.document.items .insertion).length

theorem grown_start : Grown .start where
  built := .empty false
  sorted := rfl
  positions := by
    rw [Block.start, Document.items_empty]
    rfl
  each := Document.each_empty false
  next := by
    rw [Block.start, Document.items_empty]
    rfl

/-- The item that a value becomes. -/
def itemAt (b : Block) (v : Value) : Item := Entry.item .insertion ⟨toString b.next, v, ""⟩

theorem Grown.items_add (h : Grown b) (v : Value) :
    (b.add v).document.items .insertion = b.document.items .insertion ++ [itemAt b v] :=
  h.built.indexed.items_push _

/-- **Adding keeps a block grown**, if all of what is added is counted. -/
theorem Grown.add (h : Grown b) {v : Value} (hv : ∀ inner, v = .block inner → inner.Built)
    (hparts : ∀ x ∈ (itemAt b v).preorder, IsPart x) : Grown (b.add v) where
  built := h.built.set _ hv
  sorted := h.sorted
  positions := by
    rw [h.items_add]
    refine h.positions.concat ?_
    rw [← h.next]
    exact Document.name_item _
  each := h.each.set h.built.indexed hparts
  next := by
    rw [h.items_add, List.length_append, ← h.next]
    rfl

theorem Grown.add_line (h : Grown b) (text : List Char) :
    Grown (b.add (.param (String.ofList text))) := by
  refine h.add (fun _ he => by cases he) fun x hx => ?_
  obtain rfl := List.mem_singleton.mp hx
  exact ⟨rfl, trivial, rfl⟩

theorem Grown.add_block (h : Grown b) (hinner : Counted inner) : Grown (b.add (.block inner)) := by
  refine h.add (fun _ he => by cases he; exact hinner.built) fun x hx => ?_
  rcases List.mem_cons.mp hx with rfl | hx
  · exact ⟨rfl, hinner.sorted, hinner.positions⟩
  · exact hinner.each x hx

/-! ## 6. What was read so far -/

/-- The open blocks as they stand in a listing, with no closing braces for them yet. -/
def spelled (top : Block) : List Block → List Token
  | [] => braced (top.document.items .insertion)
  | outer :: rest => spelled outer rest ++ .opening :: braced (top.document.items .insertion)

/-- What is added to the innermost block is spelled last. -/
theorem Grown.spelled_add (h : Grown top) (v : Value) (stack : List Block) :
    spelled (top.add v) stack = spelled top stack ++ bracedItem (itemAt top v) := by
  have hitems : braced ((top.add v).document.items .insertion) =
      braced (top.document.items .insertion) ++ bracedItem (itemAt top v) := by
    rw [h.items_add, braced_append, braced, braced, List.append_nil]
  cases stack with
  | nil => exact hitems
  | cons outer rest => rw [spelled, spelled, hitems, List.append_assoc, List.cons_append]

/-- **Closing a block** adds its closing brace. -/
theorem Grown.spelled_close (h : Grown outer) (top : Block) (rest : List Block) :
    spelled (outer.add (.block top.document)) rest = spelled top (outer :: rest) ++ [.closing] := by
  rw [h.spelled_add, spelled, List.append_assoc, List.cons_append]
  rfl

/-- Blocks without an end are closed. -/
theorem Grown.closeAll (htop : Grown top) (hstack : ∀ b ∈ stack, Grown b) :
    Counted (top.closeAll stack) ∧ braced ((top.closeAll stack).items .insertion) =
      spelled top stack ++ List.replicate stack.length .closing := by
  induction stack generalizing top with
  | nil => exact ⟨htop.toCounted, (List.append_nil _).symm⟩
  | cons outer rest ih =>
    obtain ⟨houter, hrest⟩ := List.forall_mem_cons.mp hstack
    obtain ⟨hcounted, hspelled⟩ := ih (houter.add_block htop.toCounted) hrest
    refine ⟨hcounted, hspelled.trans ?_⟩
    rw [houter.spelled_close, List.append_assoc]
    rfl

/-- **Every step of reading keeps the blocks grown**, and what they spell is what was read. -/
theorem readTokens_grown {parts : List Token} (h : readTokens limit top stack parts = .ok d)
    (htop : Grown top) (hstack : ∀ b ∈ stack, Grown b) :
    Counted d ∧
      braced (d.items .insertion) = spelled top stack ++ balance stack.length parts := by
  fun_induction readTokens limit top stack parts with
  | case1 top stack =>
    cases h
    exact htop.closeAll hstack
  | case2 top stack text rest ih =>
    obtain ⟨hcounted, hspelled⟩ := ih h (htop.add_line text) hstack
    refine ⟨hcounted, hspelled.trans ?_⟩
    rw [htop.spelled_add, balance, List.append_assoc]
    congr 1
    simp [itemAt, Entry.item, bracedItem]
  | case3 => cases h
  | case4 top stack rest hlevel ih =>
    obtain ⟨hcounted, hspelled⟩ := ih h grown_start (List.forall_mem_cons.mpr ⟨htop, hstack⟩)
    refine ⟨hcounted, hspelled.trans ?_⟩
    have hstart : braced (Block.start.document.items .insertion) = [] := by
      rw [Block.start, Document.items_empty, braced]
    rw [spelled, hstart, balance, List.append_assoc]
    rfl
  | case5 top rest ih => exact ih h htop hstack
  | case6 top rest outer stack ih =>
    obtain ⟨houter, hstack⟩ := List.forall_mem_cons.mp hstack
    obtain ⟨hcounted, hspelled⟩ := ih h (houter.add_block htop.toCounted) hstack
    refine ⟨hcounted, hspelled.trans ?_⟩
    rw [houter.spelled_close, List.length_cons, balance, List.append_assoc]
    rfl

/-! ## 7. Paths of positions -/

/-- A block of a counted document is counted. -/
theorem Counted.of_block (h : Counted d) {name comment : String}
    (he : ⟨name, .block inner, comment⟩ ∈ d.entries.toList) : Counted inner := by
  have hitem : Item.block name inner.sorted (inner.items .insertion) comment ∈
      d.items .insertion := by
    rw [h.built.indexed.items_insertion]
    exact List.mem_map_of_mem (f := Entry.item .insertion) he
  have hpart := h.each _ (mem_itemsPreorder.mpr ⟨_, hitem, Item.mem_preorder_self _⟩)
  refine ⟨h.built.inner he rfl, hpart.unsorted, hpart.positions, fun x hx => ?_⟩
  exact h.each x (mem_itemsPreorder.mpr ⟨_, hitem, List.mem_cons_of_mem _ hx⟩)

/-- The entries of a counted document are called by their positions. -/
theorem Counted.name_eq (h : Counted d) {i : Nat} {e : Entry} (he : d.entries.toList[i]? = some e) :
    e.name = toString i := by
  have hnames : (d.items .insertion).map Item.name = d.entries.toList.map Entry.name := by
    rw [h.built.indexed.items_insertion, List.map_map]
    exact List.map_congr_left fun e _ => Document.name_item e
  have hlength : (d.items .insertion).length = d.entries.toList.length := by
    rw [h.built.indexed.items_insertion, List.length_map]
  have hpositions := h.positions
  rw [Positioned, hnames, hlength] at hpositions
  obtain ⟨hi, -⟩ := List.getElem?_eq_some_iff.mp he
  have hname : (d.entries.toList.map Entry.name)[i]? =
      ((List.range d.entries.toList.length).map toString)[i]? := by rw [hpositions]
  rw [List.getElem?_map, List.getElem?_map, he, List.getElem?_range hi] at hname
  exact Option.some.inj hname

/-- Positions are different names. -/
theorem position_injective {m n : Nat} (h : toString m = toString n) : m = n := by
  have hdigits := congrArg String.toList h
  rw [Nat.toString_eq_repr, Nat.toString_eq_repr, Nat.toList_repr, Nat.toList_repr] at hdigits
  rw [← @Nat.ofDigitChars_ten_toDigits m, hdigits, Nat.ofDigitChars_ten_toDigits]

/-- **A position leads to its entry**, since no entry before it has the same name. -/
theorem Counted.oldest?_eq (h : Counted d) {i : Nat} {e : Entry}
    (he : d.entries.toList[i]? = some e) : d.oldest? (toString i) = some e := by
  obtain ⟨hi, hget⟩ := List.getElem?_eq_some_iff.mp he
  rw [Document.oldest?, List.find?_eq_some_iff_getElem]
  refine ⟨by simpa using h.name_eq he, i, hi, hget, fun j hj => ?_⟩
  have hname := h.name_eq (List.getElem?_eq_getElem (hj.trans hi))
  have hne : toString j ≠ toString i := fun hsame => hj.ne (position_injective hsame)
  rw [hname, decide_eq_false hne]
  rfl

/-- **Positions lead to the line that is found along them.** -/
theorem Leaf.ends {path : List Nat} {text : String} (h : Leaf items path text) (hd : Counted d)
    (hitems : d.items .insertion = items) :
    ∃ name comment, d.Ends (path.map toString) (.reached ⟨name, .param text, comment⟩) := by
  induction h generalizing d with
  | @here items i name text comment hget =>
    rw [← hitems, hd.built.indexed.items_insertion, List.getElem?_map] at hget
    obtain ⟨e, he, hitem⟩ := Option.map_eq_some_iff.mp hget
    obtain rfl := Document.item_eq_param.mp hitem
    exact ⟨name, comment, @Document.Ends.reached d [] _ d _ (.here d) (hd.oldest?_eq he)⟩
  | @inside items inner i name comment text sorted path hget _ ih =>
    rw [← hitems, hd.built.indexed.items_insertion, List.getElem?_map] at hget
    obtain ⟨e, he, hitem⟩ := Option.map_eq_some_iff.mp hget
    obtain ⟨document, rfl, -, hinner⟩ := Document.item_eq_block.mp hitem
    obtain ⟨name', comment', hends⟩ := ih (hd.of_block (List.mem_of_getElem? he)) hinner
    exact ⟨name', comment', hends.into (hd.oldest?_eq he)⟩

/-- No digit is white space. -/
theorem isSpace_of_isDigit {c : Char} (h : c.isDigit = true) : Text.isSpace c = false := by
  have hdigit : 48 ≤ c.toNat ∧ c.toNat ≤ 57 := by
    simpa [Char.isDigit, UInt32.le_iff_toNat_le] using h
  simp [Text.isSpace]
  omega

/-- A path of positions is written in one way only: nothing is trimmed off, and it is cut where its
positions meet. -/
theorem position_path {path : List Nat} (hne : path ≠ []) :
    Document.segments (Document.joinPath (path.map toString)) = path.map toString ∧
      Text.trimmed (Document.joinPath (path.map toString)) =
        Document.joinPath (path.map toString) := by
  have hspace : ∀ c ∈ (Document.joinPath (path.map toString)).toList, Text.isSpace c = false := by
    intro c hc
    rcases Document.mem_joinPath hc with rfl | ⟨s, hs, hc⟩
    · rfl
    · obtain ⟨n, -, rfl⟩ := List.mem_map.mp hs
      exact isSpace_of_isDigit (isDigit_position hc)
  refine ⟨Document.segments_joinPath (by simpa using hne) fun s hs => ?_, ?_⟩
  · obtain ⟨n, -, rfl⟩ := List.mem_map.mp hs
    exact notMem_position (by decide)
  · rw [Text.trimmed, Text.trim_eq_self (fun c hc => hspace c (List.mem_of_head? hc))
      fun c hc => hspace c (List.mem_of_getLast? hc), String.ofList_toList]

theorem Leaf.path_ne_nil {path : List Nat} {text : String} (h : Leaf items path text) :
    path ≠ [] := by
  cases h <;> exact List.cons_ne_nil _ _

/-- **A counted document is read by positions.** -/
theorem Counted.getParam_eq (hd : Counted d) {path : List Nat} {text : String}
    (h : Leaf (d.items .insertion) path text) :
    d.getParam (Document.joinPath (path.map toString)) = .ok text := by
  obtain ⟨hsegments, htrimmed⟩ := position_path h.path_ne_nil
  obtain ⟨name, comment, hends⟩ := h.ends hd rfl
  exact hends.getParam_eq hd.built hsegments htrimmed

/-! ## 8. The whole listing -/

/-- **A listing is cut at its lines and its braces.**  Reading fails if and only if so many blocks are
open behind some part of the listing as the limit allows, closing braces without an open block not
counted, and always with the same error.  Otherwise there is a document, and it holds the listing. -/
theorem parse_splits (code : List Char) :
    (∀ e, parse code = .error e ↔ e = .nestingTooDeep maxDepth ∧
      ∃ front, front <+: code ∧ openBlocks 0 front = maxDepth) ∧
    ∀ d, parse code = .ok d → Splits code d := by
  refine ⟨fun e => readTokens_scan_error [] code (by decide), fun d h => ?_⟩
  obtain ⟨hcounted, hspelled⟩ := readTokens_grown h grown_start (by simp)
  have hnesting : braced (d.items .insertion) = balance 0 (codeTokens code) := by
    rw [hspelled, spelled, Block.start, Document.items_empty, tokens_eq]
    rfl
  exact {
    sorted := hcounted.sorted
    positions := hcounted.positions
    each := hcounted.each
    texts := by
      rw [Outline.preorder, Document.outline, ← texts_braced, hnesting, texts_balance, texts_codeTokens]
    nesting := hnesting
    leaf _ _ hleaf := hcounted.getParam_eq hleaf }

/-- A listing with one closing brace too many in front and with one too few at the end. -/
def uneven : List Char := "\x7d a \x7b b\n\n\x7b\t c \x7d\x7b\x7d x\r\ny".toList

/-- What it holds. -/
def unevenItems : List Item :=
  [.param "0" "a" "", .block "1" false [.param "0" "b" "", .block "1" false [.param "0" "c" ""] "",
    .block "2" false [] "", .param "3" "x" "", .param "4" "y" ""] ""]

/-- The line `c` is found at its positions, and as many opening braces as the limit says are too
many. -/
theorem parse_splits_uneven : parse uneven = .ok (.ofItems false unevenItems) ∧
    Splits uneven (.ofItems false unevenItems) ∧
    (Document.ofItems false unevenItems).getParam "1.1.0" = .ok "c" ∧
    parse (List.replicate maxDepth '\x7b') = .error (.nestingTooDeep maxDepth) := by
  have htokens : tokens uneven = [.closing, .line ['a'], .opening, .line ['b'], .opening,
      .line ['c'], .closing, .opening, .closing, .line ['x'], .line ['y']] := by decide
  have h : parse uneven = .ok (.ofItems false unevenItems) := by
    rw [parse, htokens]
    rfl
  have hsplits := (parse_splits uneven).2 _ h
  have hitems : (Document.ofItems false unevenItems).items .insertion = unevenItems :=
    congrArg Outline.items (Document.outline_ofItems false unevenItems)
  have hleaf : Leaf unevenItems [1, 1, 0] "c" := .inside rfl (.inside rfl (.here rfl))
  have hopen : ∀ level k, openBlocks level (List.replicate k '\x7b') = level + k := by
    intro level k
    induction k generalizing level with
    | zero => rfl
    | succ k ih =>
      rw [List.replicate_succ, openBlocks, List.foldl_cons]
      exact (ih (level + 1)).trans (by omega)
  refine ⟨h, hsplits, ?_, ?_⟩
  · have hparam := hsplits.leaf [1, 1, 0] "c" (hitems ▸ hleaf)
    exact hparam
  · exact ((parse_splits _).1 _).mpr
      ⟨rfl, _, List.prefix_refl _, (hopen 0 maxDepth).trans (Nat.zero_add _)⟩

end Listing

end BlockDoc
