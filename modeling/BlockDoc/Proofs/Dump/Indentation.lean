/-
# Values indented by hand

Whoever writes a dump by hand need not indent a value as far as the writer would.  The reader takes
off what the first line with a mark on it has in front, up to the indentation of the level, and from
no other line more than it has.  So a value that begins flush left comes back as it is, if all its
lines were moved to the right alike.  Lines without a mark need not be moved.

* Lines that were moved (`Shifted`) have the same marks on them, so none of them ends the value, and
  the first one with a mark tells how far they were moved (`commonIndent_shifted`).
* From a line that was moved the spaces are taken off again, and from a line that was left nothing
  (`Shifted.drop_spaces`).  What remains are the lines of the value and the line end behind it
  (`heredocValue_shifted`).

Main statement: `parseWith_handwritten`.
-/
import BlockDoc.Proofs.Dump.Course

namespace BlockDoc.Dump

open Text (isMargin)

/-! ## 1. Lines moved to the right -/

/-- A line was moved to the right by some spaces.  An empty line may be left where it is, and so may
one that only looks empty, unless it has spaces in front that would be taken off. -/
inductive Shifted (spaces : Nat) : List Char → List Char → Prop where
  | moved (line : List Char) : Shifted spaces line (List.replicate spaces ' ' ++ line)
  | left {line : List Char} (hempty : Text.trim isMargin line = [])
      (hspace : line.head? ≠ some ' ') : Shifted spaces line line

/-- A whole line, with the line feed that ends it. -/
def Whole (line : List Char) : Prop := ∃ content, '\n' ∉ content ∧ line = content ++ ['\n']

variable {spaces level : Nat} {line line' value : List Char} {lines written : List (List Char)}

/-- A line that was moved has the same marks on it. -/
theorem Shifted.trim_eq (h : Shifted spaces line line') :
    Text.trim isMargin line' = Text.trim isMargin line := by
  cases h with
  | moved =>
    have htrim : Text.trim isMargin (List.replicate spaces ' ' ++ (line ++ [])) =
        Text.trim isMargin line := Text.trim_append isMargin_of_mem_replicate (by simp)
    rwa [List.append_nil] at htrim
  | left => rfl

theorem Shifted.isTerminator_eq (h : Shifted spaces line line') :
    isTerminator line' = isTerminator line := by
  rw [isTerminator, isTerminator, h.trim_eq]

theorem Shifted.whole (h : Shifted spaces line line') (hline : Whole line) : Whole line' := by
  cases h with
  | moved =>
    obtain ⟨content, hcontent, rfl⟩ := hline
    refine ⟨List.replicate spaces ' ' ++ content, ?_, (List.append_assoc _ _ _).symm⟩
    intro hmem
    rcases List.mem_append.mp hmem with hmem | hmem
    · exact absurd (List.eq_of_mem_replicate hmem) (by decide)
    · exact hcontent hmem
  | left => exact hline

theorem leadingSpaces_eq_zero (h : line.head? ≠ some ' ') : leadingSpaces line = 0 := by
  cases line with
  | nil => rfl
  | cons c cs =>
    have hc : ¬ (c == ' ') = true := fun e => h (congrArg some (eq_of_beq e))
    rw [leadingSpaces, List.takeWhile_cons_of_neg (p := (· == ' ')) hc, List.length_nil]

/-- **The spaces are taken off again**, and nothing else. -/
theorem Shifted.drop_spaces (h : Shifted spaces line line') :
    line'.drop (min (leadingSpaces line') spaces) = line := by
  cases h with
  | moved => exact drop_replicate spaces line
  | left _ hspace => rw [leadingSpaces_eq_zero hspace, Nat.zero_min, List.drop_zero]

/-! ## 2. The lines of a value -/

/-- The first line with a mark on it. -/
def firstMarked? (lines : List (List Char)) : Option (List Char) :=
  lines.find? fun line => Text.trim isMargin line ≠ []

/-- Some line has a mark on it, and the first of these begins with no space. -/
def FlushLeft (value : List Char) : Prop :=
  ∃ first, firstMarked? (Text.lines value) = some first ∧ first.head? ≠ some ' '

/-- The lines of a text that ends in a line feed do so, too. -/
theorem whole_of_endsLine (h : EndsLine value) : ∀ line ∈ Text.lines value, Whole line := by
  induction value using Text.lines_induct with
  | nil => simp [Text.lines]
  | last cs hcs hne =>
    have hlast := h _ (List.getLast?_eq_some_getLast hne)
    exact absurd (hlast ▸ List.getLast_mem hne) hcs
  | line cs rest hcs ih =>
    have hrest : EndsLine rest := fun c hc => h c (by
      rw [List.getLast?_append_cons]
      exact Text.getLast?_of_isSuffix (List.suffix_cons '\n' rest) c hc)
    rw [Text.lines_cons hcs, List.forall_mem_cons]
    exact ⟨⟨cs, hcs, rfl⟩, ih hrest⟩

/-- Lines are told apart by their line feeds. -/
theorem lines_flatten_append (h : ∀ line ∈ lines, Whole line) (rest : List Char) :
    Text.lines (lines.flatten ++ rest) = lines ++ Text.lines rest := by
  induction lines with
  | nil => rfl
  | cons line lines ih =>
    obtain ⟨⟨content, hcontent, rfl⟩, hlines⟩ := List.forall_mem_cons.mp h
    have hjoin : ((content ++ ['\n']) :: lines).flatten ++ rest =
        content ++ '\n' :: (lines.flatten ++ rest) := by simp
    rw [hjoin, Text.lines_cons hcontent, ih hlines]
    rfl

/-- A value has a line that would end it if and only if one of its lines ends it. -/
theorem hasTerminator_eq_any : hasTerminator value = (Text.lines value).any isTerminator := by
  induction value using Text.lines_induct with
  | nil => rfl
  | last cs hcs hne =>
    rw [hasTerminator_of_notMem hcs, Text.lines_of_notMem hcs hne, List.any_cons, List.any_nil,
      Bool.or_false]
  | line cs rest hcs ih =>
    rw [hasTerminator_append, hasTerminator_of_notMem hcs, ih, Text.lines_cons hcs, List.any_cons,
      isTerminator_margin (by simp [isMargin])]

/-- A value with a line end behind it begins where the value does. -/
theorem FlushLeft.append_lineEnd (h : FlushLeft value) : FlushLeft (value ++ lineEnd) := by
  obtain ⟨first, hfirst, hspace⟩ := h
  unfold firstMarked? at hfirst
  induction value using Text.lines_induct with
  | nil => cases hfirst
  | last cs hcs hne =>
    have hlines : Text.lines (cs ++ lineEnd) = [cs ++ lineEnd] := by
      have hreturn : '\n' ∉ cs ++ ['\r'] := by simp [hcs]
      have h := Text.lines_newline hreturn
      rwa [List.append_assoc] at h
    rw [Text.lines_of_notMem hcs hne] at hfirst
    obtain rfl := List.mem_singleton.mp (List.mem_of_find?_eq_some hfirst)
    have hmark := List.find?_some hfirst
    refine ⟨first ++ lineEnd, ?_, by rwa [List.head?_append_of_ne_nil _ hne]⟩
    rw [firstMarked?, hlines, List.find?_cons_of_pos]
    rwa [trim_append_margin isMargin_of_mem_lineEnd]
  | line cs rest hcs ih =>
    rw [Text.lines_cons hcs] at hfirst
    by_cases hmark : Text.trim isMargin (cs ++ ['\n']) = []
    · rw [List.find?_cons_of_neg (by simpa using hmark)] at hfirst
      obtain ⟨first', hfirst', hspace'⟩ := ih hfirst
      refine ⟨first', ?_, hspace'⟩
      rw [firstMarked?, List.append_assoc, List.cons_append, Text.lines_cons hcs,
        List.find?_cons_of_neg (by simpa using hmark)]
      exact hfirst'
    · rw [List.find?_cons_of_pos (by simpa using hmark)] at hfirst
      refine ⟨first, ?_, hspace⟩
      rw [firstMarked?, List.append_assoc, List.cons_append, Text.lines_cons hcs,
        List.find?_cons_of_pos (by simpa using hmark)]
      exact hfirst

/-! ## 3. The value that is read -/

/-- The first line with a mark on it was moved. -/
theorem firstMarked?_shifted (h : List.Forall₂ (Shifted spaces) lines written) {first : List Char}
    (hfirst : firstMarked? lines = some first) :
    firstMarked? written = some (List.replicate spaces ' ' ++ first) := by
  unfold firstMarked? at *
  induction h with
  | nil => cases hfirst
  | @cons line line' lines written hline _ ih =>
    have htrim := hline.trim_eq
    by_cases hmark : Text.trim isMargin line = []
    · rw [List.find?_cons_of_neg (by simpa using hmark)] at hfirst
      rw [List.find?_cons_of_neg (by simpa [htrim] using hmark)]
      exact ih hfirst
    · rw [List.find?_cons_of_pos (by simpa using hmark)] at hfirst
      rw [List.find?_cons_of_pos (by simpa [htrim] using hmark)]
      cases hfirst
      cases hline with
      | moved => rfl
      | left hempty => exact absurd hempty hmark

/-- **How far the lines of a value were moved** is found out. -/
theorem commonIndent_shifted (hvalue : FlushLeft value) (hspaces : spaces ≤ indentWidth level)
    (h : List.Forall₂ (Shifted spaces) (Text.lines value) written) :
    commonIndent level written = spaces := by
  obtain ⟨first, hfirst, hspace⟩ := hvalue
  have hwritten := firstMarked?_shifted h hfirst
  rw [firstMarked?] at hwritten
  rw [commonIndent, hwritten]
  dsimp only
  rw [leadingSpaces_replicate, leadingSpaces_eq_zero hspace, Nat.add_zero,
    Nat.min_eq_left hspaces]

/-- The lines that were moved are left where they were. -/
theorem flatMap_shifted (h : List.Forall₂ (Shifted spaces) lines written) :
    (written.flatMap fun line => line.drop (min (leadingSpaces line) spaces)) = lines.flatten := by
  induction h with
  | nil => rfl
  | cons hline _ ih => rw [List.flatMap_cons, hline.drop_spaces, ih, List.flatten_cons]

/-- **A value is read back from lines that were moved**, as far as the level allows. -/
theorem heredocValue_shifted (hvalue : FlushLeft value) (hspaces : spaces ≤ indentWidth level)
    (h : List.Forall₂ (Shifted spaces) (Text.lines (value ++ lineEnd)) written) :
    heredocValue level written = value := by
  simp only [heredocValue, commonIndent_shifted hvalue.append_lineEnd hspaces h, flatMap_shifted h,
    Text.flatten_lines, chomp_lineEnd]

/-! ## 4. Values in a text -/

/-- A line that was moved was some line before. -/
theorem exists_of_mem_shifted (h : List.Forall₂ (Shifted spaces) lines written)
    (hline : line' ∈ written) : ∃ line ∈ lines, Shifted spaces line line' := by
  induction h with
  | nil => cases hline
  | cons hmoved _ ih =>
    rcases List.mem_cons.mp hline with rfl | hline
    · exact ⟨_, List.mem_cons_self, hmoved⟩
    · obtain ⟨line, hmem, hmoved⟩ := ih hline
      exact ⟨line, List.mem_cons_of_mem _ hmem, hmoved⟩

/-- How a value is written by hand, at some level of nesting. -/
structure Handwritten (level : Nat) (value : List Char) where
  /-- The margins of the first line, in front of the name and behind the three marks. -/
  front : List Char
  back : List Char
  margins : ∀ c ∈ front ++ back, isMargin c = true
  firstLine : '\n' ∉ front ++ back
  /-- By how many spaces the lines of the value are moved to the right. -/
  spaces : Nat
  spaces_le : spaces ≤ indentWidth level
  /-- The lines of the value, and the line end behind it. -/
  written : List (List Char)
  shifted : List.Forall₂ (Shifted spaces) (Text.lines (value ++ lineEnd)) written
  /-- The line that ends the value, and its line feed if there is one. -/
  last : List Char
  ends : isTerminator last = true
  lastLine : Text.IsLine last

namespace Handwritten

/-- The first line. -/
def opener (name : List Char) (w : Handwritten level value) : List Char :=
  w.front ++ (name ++ ['=', '<', '<', '<'] ++ w.back)

/-- The text of a parameter with this value. -/
def text (name : List Char) (w : Handwritten level value) : List Char :=
  w.opener name ++ '\n' :: (w.written.flatten ++ w.last)

variable {name : List Char}

/-- The first line asks for the lines behind it. -/
theorem ofChars_opener (w : Handwritten level value) (hname : FitsParam name) :
    Line.ofChars (w.opener name ++ ['\n']) = .heredoc name := by
  obtain ⟨hfront, hback⟩ := List.forall_mem_append.mp w.margins
  have hfeed : ∀ c ∈ w.back ++ ['\n'], isMargin c = true := by
    rw [List.forall_mem_append, List.forall_mem_singleton]
    exact ⟨hback, rfl⟩
  have hline : Line.ofChars (indent 0 ++ (name ++ ['=', '<', '<', '<'] ++ lineEnd)) = .heredoc name :=
    ofChars_heredoc hname
  rw [ofChars_margins isMargin_of_mem_indent isMargin_of_mem_lineEnd] at hline
  rw [opener, List.append_assoc, List.append_assoc _ w.back, ofChars_margins hfront hfeed, hline]

theorem newline_notMem_opener (w : Handwritten level value) (hname : FitsParam name) :
    '\n' ∉ w.opener name := by
  intro hmem
  have hmargins := w.firstLine
  rw [List.mem_append, not_or] at hmargins
  rcases List.mem_append.mp hmem with hmem | hmem
  · exact hmargins.1 hmem
  · rcases List.mem_append.mp hmem with hmem | hmem
    · rcases List.mem_append.mp hmem with hmem | hmem
      · exact hname.newline hmem
      · exact absurd hmem (by decide)
    · exact hmargins.2 hmem

/-- The lines in the middle are whole lines. -/
theorem whole_written (w : Handwritten level value) : ∀ line ∈ w.written, Whole line := by
  intro line' hline'
  have hends : EndsLine (value ++ lineEnd) := by
    intro c hc
    simpa [lineEnd] using hc.symm
  obtain ⟨line, hline, hshifted⟩ := exists_of_mem_shifted w.shifted hline'
  exact hshifted.whole (whole_of_endsLine hends line hline)

/-- None of them ends the value. -/
theorem isTerminator_written (w : Handwritten level value) (hterm : hasTerminator value = false) :
    ∀ line ∈ w.written, isTerminator line = false := by
  have hends : hasTerminator (value ++ lineEnd) = false := by
    have hconcat : value ++ lineEnd = value ++ ['\r'] ++ ['\n'] := by simp [lineEnd]
    rw [hconcat, hasTerminator_concat (by decide), hasTerminator_concat (by decide), hterm]
  rw [hasTerminator_eq_any, List.any_eq_false] at hends
  intro line' hline'
  obtain ⟨line, hline, hshifted⟩ := exists_of_mem_shifted w.shifted hline'
  rw [hshifted.isTerminator_eq]
  exact Bool.eq_false_iff.mpr (hends line hline)

/-- The line that ends the value is a line of the text around it. -/
theorem lines_last (w : Handwritten level value) {rest : List Char}
    (hrest : rest ≠ [] → EndsLine w.last) :
    Text.lines (w.last ++ rest) = w.last :: Text.lines rest := by
  have hne : w.last ≠ [] := by
    intro hnil
    have hends := w.ends
    rw [hnil] at hends
    exact absurd hends (by decide)
  obtain ⟨content, hcontent, hlast | hlast⟩ := w.lastLine
  · rcases eq_or_ne rest [] with rfl | hr
    · rw [List.append_nil, Text.lines_of_notMem (hlast ▸ hcontent) hne]
      rfl
    · have hfeed := hrest hr _ (List.getLast?_eq_some_getLast hne)
      have hmem : '\n' ∈ w.last := hfeed ▸ List.getLast_mem hne
      exact absurd (hlast ▸ hmem) hcontent
  · rw [hlast, List.append_assoc, List.singleton_append, Text.lines_cons hcontent]

/-- **The lines of the parameter**, and those behind it. -/
theorem lines_text (w : Handwritten level value) (hname : FitsParam name) {rest : List Char}
    (hrest : rest ≠ [] → EndsLine w.last) : Text.lines (w.text name ++ rest) =
      (w.opener name ++ ['\n']) :: (w.written ++ [w.last]) ++ Text.lines rest := by
  have hparts : w.text name ++ rest =
      w.opener name ++ '\n' :: (w.written.flatten ++ (w.last ++ rest)) := by simp [text]
  rw [hparts, Text.lines_cons (w.newline_notMem_opener hname), lines_flatten_append w.whole_written,
    w.lines_last hrest]
  simp

end Handwritten

/-- **A value that was written by hand is read as it is.**  Inside of some blocks there is a parameter
with a value on lines of its own.  The value has no line that would end it, and begins flush left;
its lines are moved to the right by as many spaces as the blocks around it call for, or by fewer.
Then it is added under its name to the document that is open there, and the lines behind it are read
as they would be read if the parameter was not there. -/
theorem parseWith_handwritten (files : FileReader) (o : Options) {before name value : List Char}
    {d : Document} (hbefore : EndsLine before) (hd : parseWith files o before = .ok d)
    (hname : FitsParam name) (hterm : hasTerminator value = false) (hvalue : FlushLeft value)
    (w : Handwritten (standing (Text.lines before)).level value) :
    ∃ number top stack, stack.length = (standing (Text.lines before)).level ∧
      (∀ rest, parseWith files o (before ++ rest) =
        readLines files o.charset o.limit o.baseDir? number (rawLines rest) top stack) ∧
      ∀ rest, (rest ≠ [] → EndsLine w.last) → parseWith files o (before ++ (w.text name ++ rest)) =
        readLines files o.charset o.limit o.baseDir? (number + 1 + w.written.length + 1)
          (rawLines rest) (top.set (String.ofList name) (.param (String.ofList value))) stack := by
  obtain ⟨number, top, stack, hlevel, hbehind⟩ := parseWith_behind hbefore hd
  refine ⟨number, top, stack, hlevel, hbehind, fun rest hrest => ?_⟩
  have hread : heredocValue stack.length w.written = value := by
    rw [hlevel]
    exact heredocValue_shifted hvalue w.spaces_le w.shifted
  rw [hbehind, rawLines, readLines_feed, w.lines_text hname hrest, Progress.feedAll_append,
    Progress.feedAll_value (w.ofChars_opener hname) (w.isTerminator_written hterm) w.ends, ok_bind,
    hread, rawLines, readLines_feed]

/-- An empty line, and two more. -/
def verse : List Char := "\nif\n  x".toList

/-- A value in a block, with its marked lines moved by two spaces. -/
def handwrittenVerse : Handwritten 1 verse where
  front := ['\t']
  back := ['\r']
  margins := by simp [isMargin]
  firstLine := by decide
  spaces := 2
  spaces_le := by decide
  written := ["\n".toList, "  if\n".toList, "    x\r\n".toList]
  shifted := .cons (.left (by decide) (by decide)) (.cons (.moved _) (.cons (.moved _) .nil))
  last := ">>>\n".toList
  ends := by decide
  lastLine := ⟨">>>".toList, by decide, .inr rfl⟩

/-- The two spaces are taken off, the indentation of the last line is not, and the parameter behind
the value is read next. -/
theorem parseWith_handwritten_verse :
    EndsLine "s\x7b\n".toList ∧ FitsParam ['n'] ∧ hasTerminator verse = false ∧ FlushLeft verse ∧
    ∀ files, ∃ (top : Document) (stack : List OpenBlock), stack.length = 1 ∧
      parseWith files {} "s\x7b\n\tn=<<<\r\n\n  if\n    x\r\n>>>\n".toList =
        .ok (closeAll (top.set "n" (.param "\nif\n  x")) stack) ∧
      parseWith files {} "s\x7b\n\tn=<<<\r\n\n  if\n    x\r\n>>>\nb=1".toList =
        .ok (closeAll ((top.set "n" (.param "\nif\n  x")).set "b" (.param "1")) stack) := by
  have hbefore : EndsLine "s\x7b\n".toList := by decide
  have hname : FitsParam ['n'] := by decide
  have hterm : hasTerminator verse = false := by decide
  have hvalue : FlushLeft verse := ⟨"if\n".toList, by decide, by decide⟩
  refine ⟨hbefore, hname, hterm, hvalue, fun files => ?_⟩
  have hd : parseWith files {} "s\x7b\n".toList = .ok _ := parseWith_eq_ok.mpr ⟨_, rfl, rfl, rfl⟩
  obtain ⟨_, top, stack, hlevel, -, hread⟩ :=
    parseWith_handwritten files {} hbefore hd hname hterm hvalue handwrittenVerse
  refine ⟨top, stack, hlevel, ?_, ?_⟩
  · exact (hread [] (by simp)).trans (by rw [rawLines, readLines_feed]; rfl)
  · exact (hread "b=1".toList fun _ => by decide).trans (by rw [rawLines, readLines_feed]; rfl)

end BlockDoc.Dump
