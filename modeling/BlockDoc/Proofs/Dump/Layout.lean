/-
# The layout of a dump

A dump can be laid out in many ways: lines may have blanks around them, they may end with or
without a carriage return, comments may stand behind them, and there may be lines with a comment or
with nothing between them.  None of it changes what is read.  The exception is a value on lines of
its own, whose lines are taken as they stand; so a change of the layout has to keep out of such
values, and where they begin and end depends on all the lines before (`Relaid`).

* A line says the same in another layout (`Respaced.ofChars_eq`).  The margins are trimmed of more
  kinds of characters than the blanks in front of a comment, and the comment is cut off between the
  two; that the difference does not show is because there is no line end inside of a line
  (`bare_remark`).
* The line that ends a value is told without its margins, but with a comment behind it
  (`Respaced.isTerminator_eq`).  A comment there keeps the value open (`remark_behind_terminator`).
* The reader goes through both texts together.  Between lines it is in the same state; inside of a
  value it takes the same lines (`Alike`), and every line of the relation keeps that (`Relaid.alike`).
  Only the numbers of the lines differ, which no document tells.

Main statement: `parseWith_relaid`.
-/
import BlockDoc.Proofs.Dump.Advance
import BlockDoc.Proofs.Dump.Inclusion

namespace BlockDoc.Dump

open Text (isMargin isBlank)

/-! ## 1. Two layouts of a line -/

/-- How a line can end; only the last one of a text has no end. -/
def lineEnds : List (List Char) := [[], ['\n'], ['\r', '\n']]

/-- What may be appended to a line: nothing, or a blank and a comment. -/
inductive IsRemark : List Char → Prop
  | nothing : IsRemark []
  | comment {blank : Char} {text : List Char} : isBlank blank = true →
      IsRemark (blank :: '/' :: '/' :: text)

/-- The same line, untouched, or if there is no line end inside of it, with blanks around it, with
something of a kind appended to it and with another end. -/
inductive Respaced (appended : List Char → Prop) : List Char → List Char → Prop
  | same (line : List Char) : Respaced appended line line
  | around (content front back remark before after : List Char) :
      '\r' ∉ content → '\n' ∉ content → (∀ c ∈ front, isBlank c = true) →
      (∀ c ∈ back, isBlank c = true) → appended remark → before ∈ lineEnds → after ∈ lineEnds →
      Respaced appended (content ++ before) (front ++ (content ++ (back ++ remark)) ++ after)

/-- A line with nothing on it, or with a comment and nothing else. -/
inductive IsFiller : List Char → Prop
  | blank (front after : List Char) : (∀ c ∈ front, isBlank c = true) → after ∈ lineEnds →
      IsFiller (front ++ after)
  | comment (front text after : List Char) : (∀ c ∈ front, isBlank c = true) → after ∈ lineEnds →
      IsFiller (front ++ ('/' :: '/' :: text ++ after))

/-- **Two layouts of the lines of a dump.**  Outside of values lines are respaced, and fillers come
in; inside of a value, from behind its first line on, all lines stay as they are.  `ending` is what
may be appended to the line that ends a value. -/
inductive Relaid (ending : List Char → Prop) :
    (inside : Bool) → List (List Char) → List (List Char) → Prop
  | nil {inside : Bool} : Relaid ending inside [] []
  | filler {filler : List Char} {ls ls' : List (List Char)} : IsFiller filler →
      Relaid ending false ls ls' → Relaid ending false ls (filler :: ls')
  | line {line line' : List Char} {ls ls' : List (List Char)} : Respaced IsRemark line line' →
      Relaid ending (Line.ofChars line).opensValue ls ls' →
      Relaid ending false (line :: ls) (line' :: ls')
  | body {line : List Char} {ls ls' : List (List Char)} : isTerminator line = false →
      Relaid ending true ls ls' → Relaid ending true (line :: ls) (line :: ls')
  | terminator {line line' : List Char} {ls ls' : List (List Char)} : isTerminator line = true →
      Respaced ending line line' → Relaid ending false ls ls' →
      Relaid ending true (line :: ls) (line' :: ls')

/-! ## 2. What a line says in another layout -/

theorem isMargin_of_isBlank {c : Char} (h : isBlank c = true) : isMargin c = true := by
  by_contra hm
  rw [isBlank_of_isMargin (Bool.eq_false_iff.mpr hm)] at h
  cases h

theorem isMargin_of_mem_lineEnds {after : List Char} (h : after ∈ lineEnds) :
    ∀ c ∈ after, isMargin c = true := by
  simp only [lineEnds, List.mem_cons, List.not_mem_nil, or_false] at h
  rcases h with rfl | rfl | rfl <;> simp [isMargin]

/-- No margin is part of the mark of a comment. -/
theorem notMem_mark_of_isMargin {c : Char} (h : isMargin c = true) : c ∉ ['/', '/'] := by
  intro hmem
  obtain rfl : c = '/' := by simpa using hmem
  cases h

/-- A line without a comment and without what stands in front of the comment or at the end. -/
def uncommented (line : List Char) : List Char :=
  match Text.before? ['/', '/'] line with
  | some content => Text.trimEnd isBlank content
  | none => Text.trimEnd isMargin line

/-- The end of a line may be trimmed after its comment is looked for. -/
theorem bare_eq (line : List Char) : bare line = uncommented (line.dropWhile isMargin) := by
  obtain ⟨back, hback, he⟩ := Text.exists_eq_trimEnd_append isMargin (line.dropWhile isMargin)
  rw [bare, Text.trim, uncommented]
  cases hcut : Text.before? ['/', '/'] (Text.trimEnd isMargin (line.dropWhile isMargin)) with
  | some content =>
    have hline := Text.before?_append hcut back
    rw [← he] at hline
    rw [hline]
  | none =>
    have hline : Text.before? ['/', '/'] (line.dropWhile isMargin) = none := by
      rw [Text.before?_eq_none_iff] at hcut ⊢
      intro hin
      rw [he] at hin
      exact hcut (Text.infix_of_append (fun c hc => notMem_mark_of_isMargin (hback c hc)) hin)
    rw [hline]

/-- A comment that is added goes with the blanks in front of it, and an earlier comment stays the
first one. -/
theorem uncommented_remark {content back text : List Char} {blank : Char}
    (hreturn : '\r' ∉ content) (hnewline : '\n' ∉ content) (hback : ∀ c ∈ back, isBlank c = true)
    (hblank : isBlank blank = true) :
    uncommented (content ++ (back ++ blank :: '/' :: '/' :: text)) = uncommented content := by
  rw [uncommented, uncommented]
  cases hcut : Text.before? ['/', '/'] content with
  | some front => rw [Text.before?_append hcut]
  | none =>
    have hfree : ¬ ['/', '/'] <:+: content ++ back := fun hin =>
      Text.before?_eq_none_iff.mp hcut (Text.infix_of_append
        (fun c hc => notMem_mark_of_isMargin (isMargin_of_isBlank (hback c hc))) hin)
    have hgap : ∀ c ∈ back ++ [blank], isBlank c = true := by
      simpa [or_imp, forall_and] using ⟨hback, hblank⟩
    have hsame : ∀ c ∈ content, isBlank c = isMargin c := by
      intro c hc
      rw [isBlank, isMargin, beq_false_of_ne (ne_of_mem_of_not_mem hc hreturn),
        beq_false_of_ne (ne_of_mem_of_not_mem hc hnewline), Bool.or_false, Bool.or_false]
    have hcut' : Text.before? ['/', '/'] (content ++ (back ++ blank :: '/' :: '/' :: text)) =
        some (content ++ (back ++ [blank])) := by
      rw [← List.append_assoc, ← List.append_assoc]
      exact Text.before?_append_mark (notMem_mark_of_isMargin (isMargin_of_isBlank hblank)) hfree text
    rw [hcut']
    exact (Text.trimEnd_append hgap).trans (Text.trimEnd_congr hsame)

/-- **A comment behind a line is cut off**, with the blanks in front of it. -/
theorem bare_remark {content back text : List Char} {blank : Char}
    (hreturn : '\r' ∉ content) (hnewline : '\n' ∉ content) (hback : ∀ c ∈ back, isBlank c = true)
    (hblank : isBlank blank = true) :
    bare (content ++ (back ++ blank :: '/' :: '/' :: text)) = bare content := by
  rw [bare_eq, bare_eq, List.dropWhile_append]
  by_cases hnone : content.dropWhile isMargin = []
  · -- nothing stands in front of the comment but margins
    have hgap : ∀ c ∈ back ++ [blank], isMargin c = true := by
      simpa [or_imp, forall_and] using
        ⟨fun c hc => isMargin_of_isBlank (hback c hc), isMargin_of_isBlank hblank⟩
    have hdrop : (back ++ blank :: '/' :: '/' :: text).dropWhile isMargin = '/' :: '/' :: text := by
      rw [show back ++ blank :: '/' :: '/' :: text = back ++ [blank] ++ '/' :: '/' :: text by simp,
        List.dropWhile_append_of_pos hgap]
      rfl
    rw [hnone, List.isEmpty_nil, if_pos rfl, hdrop]
    rfl
  · rw [if_neg (by rwa [List.isEmpty_iff])]
    have hinner := (List.dropWhile_suffix isMargin (l := content)).subset
    exact uncommented_remark (fun h => hreturn (hinner h)) (fun h => hnewline (hinner h)) hback hblank

section

variable {appended : List Char → Prop} {line line' : List Char}

/-- **A line says the same in another layout.** -/
theorem Respaced.ofChars_eq (h : Respaced IsRemark line line') :
    Line.ofChars line' = Line.ofChars line := by
  obtain - | ⟨content, front, back, remark, before, after, hreturn, hnewline, hfront, hback,
    hremark, hb, ha⟩ := h
  · rfl
  have hafter := isMargin_of_mem_lineEnds ha
  have hbefore := isMargin_of_mem_lineEnds hb
  have hfront' : ∀ c ∈ front, isMargin c = true := fun c hc => isMargin_of_isBlank (hfront c hc)
  have hback' : ∀ c ∈ back, isMargin c = true := fun c hc => isMargin_of_isBlank (hback c hc)
  have hbare : bare (content ++ (back ++ remark)) = bare content := by
    cases hremark with
    | nothing =>
      rw [List.append_nil]
      exact @bare_margins [] content back (by simp) hback'
    | comment hblank => exact bare_remark hreturn hnewline hback hblank
  have hline : bare (content ++ before) = bare content :=
    @bare_margins [] content before (by simp) hbefore
  rw [Line.ofChars, Line.ofChars, List.append_assoc, bare_margins hfront' hafter, hbare, hline]

/-- **A line that ends a value does so in another layout**, without a comment. -/
theorem Respaced.isTerminator_eq (h : Respaced (· = []) line line') :
    isTerminator line' = isTerminator line := by
  obtain - | ⟨content, front, back, remark, before, after, -, -, hfront, hback, rfl, hb, ha⟩ := h
  · rfl
  have hfront' : ∀ c ∈ front, isMargin c = true := fun c hc => isMargin_of_isBlank (hfront c hc)
  have hback' : ∀ c ∈ back, isMargin c = true := fun c hc => isMargin_of_isBlank (hback c hc)
  have hline' : Text.trim isMargin (front ++ ((content ++ (back ++ [])) ++ after)) =
      Text.trim isMargin (content ++ (back ++ [])) :=
    Text.trim_append hfront' (isMargin_of_mem_lineEnds ha)
  rw [isTerminator, List.append_assoc, hline', ← isTerminator, List.append_nil,
    isTerminator_margin hback', isTerminator_margin (isMargin_of_mem_lineEnds hb)]

/-- A filler means nothing. -/
theorem IsFiller.ofChars_eq {filler : List Char} (h : IsFiller filler) :
    Line.ofChars filler = .noise := by
  cases h with
  | blank front after hfront hafter =>
    have hline : bare (front ++ ([] ++ after)) = bare [] :=
      bare_margins (fun c hc => isMargin_of_isBlank (hfront c hc)) (isMargin_of_mem_lineEnds hafter)
    rw [Line.ofChars, ← List.nil_append after, hline]
    rfl
  | comment front text after hfront hafter =>
    rw [Line.ofChars, bare_margins (fun c hc => isMargin_of_isBlank (hfront c hc))
      (isMargin_of_mem_lineEnds hafter), bare_eq]
    rfl

end

/-! ## 3. Reading both texts -/

section

variable {files : FileReader} {charset : Charset} {limit : Nat} {baseDir? : Option String}

/-- If the reader succeeds on some lines, it succeeds on others with the same document, whatever it
has read so far. -/
def ReadAlike (files : FileReader) (charset : Charset) (limit : Nat) (baseDir? : Option String)
    (ls ls' : List RawLine) : Prop :=
  ∀ number number' top stack d,
    readLines files charset limit baseDir? number ls top stack = .ok d →
    readLines files charset limit baseDir? number' ls' top stack = .ok d

/-- The reader treats some lines like others.  Inside of a value: if there is an end to the value,
the others have it too, with the same lines before it, and they are read alike behind it. -/
def Alike (files : FileReader) (charset : Charset) (limit : Nat) (baseDir? : Option String) :
    (inside : Bool) → List RawLine → List RawLine → Prop
  | false, ls, ls' => ReadAlike files charset limit baseDir? ls ls'
  | true, ls, ls' => ∀ start start' body rest, takeBody start ls = .ok (body, rest) →
      ∃ rest', takeBody start' ls' = .ok (body, rest') ∧
        ReadAlike files charset limit baseDir? rest rest'

/-- A line that says the same in both texts. -/
theorem Alike.line {line line' : List Char} {ls ls' : List RawLine}
    (hline : Line.ofChars line' = Line.ofChars line)
    (h : Alike files charset limit baseDir? (Line.ofChars line).opensValue ls ls') :
    Alike files charset limit baseDir? false (some line :: ls) (some line' :: ls') := by
  intro number number' top stack d hd
  cases hopens : (Line.ofChars line).opensValue with
  | true =>
    obtain ⟨name, hname⟩ := Line.exists_heredoc hopens
    rw [hopens] at h
    rw [readLines_value hname] at hd
    obtain ⟨⟨body, rest⟩, hbody, hd⟩ := bind_eq_ok.1 hd
    obtain ⟨rest', hbody', hrest⟩ := h _ (number' + 1) body rest hbody
    rw [readLines_value (hline.trans hname), hbody', ok_bind]
    exact hrest _ _ _ _ d hd
  | false =>
    rw [hopens] at h
    rw [readLines_line hopens] at hd
    obtain ⟨s, hs, hd⟩ := bind_eq_ok.1 hd
    rw [readLines_line (by rwa [hline]), hline, hs, ok_bind]
    exact h _ _ _ _ d hd

/-- **Two layouts are treated alike**, from any of their lines on. -/
theorem Relaid.alike {inside : Bool} {ls ls' : List (List Char)} (h : Relaid (· = []) inside ls ls') :
    Alike files charset limit baseDir? inside (ls.map some) (ls'.map some) := by
  induction h with
  | @nil inside =>
    cases inside with
    | true =>
      intro start start' body rest hbody
      cases hbody
    | false =>
      intro number number' top stack d hd
      rw [List.map_nil, readLines.eq_def] at hd ⊢
      exact hd
  | @filler filler ls ls' hfiller _ ih =>
    intro number number' top stack d hd
    rw [List.map_cons, readLines_line (by rw [hfiller.ofChars_eq]; rfl), hfiller.ofChars_eq]
    exact ih number _ top stack d hd
  | line hline _ ih => exact .line hline.ofChars_eq ih
  | @body line ls ls' hterm _ ih =>
    intro start start' body rest hbody
    rw [List.map_cons, takeBody, if_neg (by rw [hterm]; decide)] at hbody ⊢
    obtain ⟨⟨body, rest⟩, hbody, he⟩ := bind_eq_ok.1 hbody
    cases he
    obtain ⟨rest', hbody', hrest⟩ := ih start start' body rest hbody
    exact ⟨rest', by rw [hbody']; rfl, hrest⟩
  | @terminator line line' ls ls' hterm hline _ ih =>
    intro start start' body rest hbody
    rw [List.map_cons, takeBody, if_pos hterm] at hbody
    cases hbody
    rw [List.map_cons, takeBody, if_pos (hline.isTerminator_eq.trans hterm)]
    exact ⟨_, rfl, ih⟩

end

/-- **The layout of a dump does not matter.**  A dump that is read is read as the same document in
every other layout of its lines: with blanks around lines, with comments behind them, with other line
ends, and with blank lines and comments between them.  Only the lines of a value on lines of its own
have to stay, and the line that ends it may have blanks around it, but no comment. -/
theorem parseWith_relaid (files : FileReader) (o : Options) {t t' : List Char} {d : Document}
    (h : Relaid (· = []) false (Text.lines t) (Text.lines t')) (hd : parseWith files o t = .ok d) :
    parseWith files o t' = .ok d :=
  h.alike 0 0 (.empty true) [] d hd

/-- A dump with a block that starts with the content of a file, with a value on lines of its own and
with a comment. -/
def plainLayout : List Char :=
  "Ship^\x7b\nPart=b.txt\x7b\n\x7d\n Info=<<<\n  Rigel //\n  >>>\nx=1//y\r\n\x7d\nz=2".toList

/-- The same dump in another layout: every line outside of the value is changed, and there are new
ones in front, between the blocks and at the end. -/
def laxLayout : List Char :=
  ("// ships\r\n\t Ship^\x7b // \x7b\r\n \t\nPart=b.txt\x7b\t\n\x7d  // end=\x7b\n" ++
    " Info=<<<\t// text\n  Rigel //\n\t  >>> \r\n  x=1//y //z\n \x7d\r\nz=2 \n//").toList

/-- What they hold. -/
def shipDocument : Document :=
  .ofItems true [.block "Ship" true [.block "Part" true [.param "q" "7" ""] "",
    .param "Info" "Rigel //" "", .param "x" "1" ""] "", .param "z" "2" ""]

/-- A file that holds `q=7`. -/
def partFile : FileReader := fun _ => .ok [0x71, 0x3D, 0x37]

/-- What can be checked of two layouts of a line. -/
theorem Respaced.checked {appended : List Char → Prop}
    (content front back remark before after : List Char)
    (h : '\r' ∉ content ∧ '\n' ∉ content ∧ front.all isBlank = true ∧ back.all isBlank = true ∧
      before ∈ lineEnds ∧ after ∈ lineEnds) (hremark : appended remark) :
    Respaced appended (content ++ before) (front ++ (content ++ (back ++ remark)) ++ after) :=
  .around content front back remark before after h.1 h.2.1 (List.all_eq_true.mp h.2.2.1)
    (List.all_eq_true.mp h.2.2.2.1) hremark h.2.2.2.2.1 h.2.2.2.2.2

/-- The two layouts, line by line. -/
theorem relaid_ship : Relaid (· = []) false (Text.lines plainLayout) (Text.lines laxLayout) := by
  have hplain : Text.lines plainLayout = ["Ship^\x7b\n".toList, "Part=b.txt\x7b\n".toList,
      "\x7d\n".toList, " Info=<<<\n".toList, "  Rigel //\n".toList, "  >>>\n".toList,
      "x=1//y\r\n".toList, "\x7d\n".toList, "z=2".toList] := by decide +kernel
  have hlax : Text.lines laxLayout = ["// ships\r\n".toList, "\t Ship^\x7b // \x7b\r\n".toList,
      " \t\n".toList, "Part=b.txt\x7b\t\n".toList, "\x7d  // end=\x7b\n".toList,
      " Info=<<<\t// text\n".toList, "  Rigel //\n".toList, "\t  >>> \r\n".toList,
      "  x=1//y //z\n".toList, " \x7d\r\n".toList, "z=2 \n".toList, "//".toList] := by
    decide +kernel
  rw [hplain, hlax]
  refine .filler (.comment [] " ships".toList ['\r', '\n'] (by simp) (by decide)) ?_
  refine .line (.checked "Ship^\x7b".toList "\t ".toList [] " // \x7b".toList ['\n'] ['\r', '\n']
    (by decide) (.comment rfl)) ?_
  refine .filler (.blank " \t".toList ['\n'] (List.all_eq_true.mp rfl) (by decide)) ?_
  refine .line (.checked "Part=b.txt\x7b".toList [] ['\t'] [] ['\n'] ['\n']
    (by decide) .nothing) ?_
  refine .line (.checked ['\x7d'] [] [' '] " // end=\x7b".toList ['\n'] ['\n']
    (by decide) (.comment rfl)) ?_
  refine .line (.checked " Info=<<<".toList [] [] "\t// text".toList ['\n'] ['\n']
    (by decide) (.comment rfl)) ?_
  refine .body rfl (.terminator rfl ?_ ?_)
  · exact .checked "  >>>".toList ['\t'] [' '] [] ['\n'] ['\r', '\n'] (by decide) rfl
  refine .line (.checked "x=1//y".toList [' ', ' '] [] " //z".toList ['\r', '\n'] ['\n']
    (by decide) (.comment rfl)) ?_
  refine .line (.checked ['\x7d'] [' '] [] [] ['\n'] ['\r', '\n'] (by decide) .nothing) ?_
  refine .line (.checked "z=2".toList [] [' '] [] [] ['\n'] (by decide) .nothing) ?_
  exact .filler (.comment [] [] [] (by simp) (by decide)) .nil

/-- Both layouts hold the same document. -/
theorem parseWith_relaid_ship :
    Relaid (· = []) false (Text.lines plainLayout) (Text.lines laxLayout) ∧
      parseWith partFile {} plainLayout = .ok shipDocument ∧
      parseWith partFile {} laxLayout = .ok shipDocument := by
  have hd : (Source.ofText plainLayout).read partFile {} = .ok shipDocument :=
    Source.read_of_iterate (n := 13) rfl
  exact ⟨relaid_ship, hd, parseWith_relaid partFile {} relaid_ship hd⟩

/-- A value on lines of its own. -/
def closedValue : List Char := "a=<<<\nx\n>>>\n".toList

/-- The same dump with a comment behind the line that ends the value. -/
def remarkedValue : List Char := "a=<<<\nx\n>>> // y\n".toList

/-- **A comment behind the line that ends a value keeps the value open**: of all changes to the
layout outside of values this one alone matters. -/
theorem remark_behind_terminator :
    Relaid IsRemark false (Text.lines closedValue) (Text.lines remarkedValue) ∧
      (∀ files, parseWith files {} closedValue = .ok (.ofItems true [.param "a" "x" ""])) ∧
      ∀ files, parseWith files {} remarkedValue = .error (.unterminatedHeredoc 1) := by
  have hclosed : Text.lines closedValue = ["a=<<<\n".toList, "x\n".toList, ">>>\n".toList] := by
    decide
  have hremarked : Text.lines remarkedValue =
      ["a=<<<\n".toList, "x\n".toList, ">>> // y\n".toList] := by decide
  refine ⟨?_, fun files => ?_, fun files => ?_⟩
  · rw [hclosed, hremarked]
    refine .line (.same _) (.body rfl (.terminator rfl ?_ .nil))
    exact .checked ">>>".toList [] [] " // y".toList ['\n'] ['\n'] (by decide) (.comment rfl)
  · have hd : (Source.ofText closedValue).read files {} =
        .ok (.ofItems true [.param "a" "x" ""]) := Source.read_of_iterate (n := 2) rfl
    exact hd
  · have hd : (Source.ofText remarkedValue).read files {} = .error (.unterminatedHeredoc 1) :=
      Source.read_of_iterate (n := 1) rfl
    exact hd

end BlockDoc.Dump
