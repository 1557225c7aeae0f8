/-
# Values on lines of their own

The writer puts the indentation of a level in front of every line of a value and a line end
behind the last one.  The reader takes the lines up to the one that reads `>>>`, finds out how far
they are indented, and takes indentation and line end off again.  Both follow the lines of the
value, and so do the proofs (`Text.lines_induct`).

The two things to see are that a line of the body ends it only if a line of the value would
(`isTerminator_body`), and that a line which the reader measures is indented at least as far as
the level calls for, whatever it holds (`commonIndent_body`).

Of any other body, one that was not written by this writer, less is known.  What is taken off its
lines is margin, which does not count where a line is compared with `>>>`, so the value has no line
that would end it either (`hasTerminator_heredocValue`).
-/
import BlockDoc.Dump.Reader
import BlockDoc.Proofs.Dump.Line

namespace BlockDoc.Dump

open Text (isMargin)

variable {level : Nat}

/-! ## 1. Lines of a written text -/

theorem newline_notMem_indent : '\n' ∉ indent level := fun h =>
  absurd (List.eq_of_mem_replicate h) (by decide)

/-- **A written line** is the next line of its text. -/
theorem rawLines_written (level : Nat) {content : List Char} (h : '\n' ∉ content)
    (rest : List Char) :
    rawLines (indent level ++ (content ++ lineEnd) ++ rest) =
      some (indent level ++ (content ++ lineEnd)) :: rawLines rest := by
  have hfront : '\n' ∉ indent level ++ (content ++ ['\r']) := by
    simp [newline_notMem_indent, h]
  have hlines := Text.lines_cons hfront rest
  simp only [List.append_assoc, List.cons_append, List.nil_append] at hlines
  simp [rawLines, lineEnd, hlines]

/-- The lines of some text. -/
def AreLines (lines : List RawLine) : Prop := ∃ text, lines = rawLines text

theorem areLines_rawLines (text : List Char) : AreLines (rawLines text) := ⟨text, rfl⟩

/-- The first line of a text and the lines behind it.  A line with another one behind it ends in a
line feed. -/
theorem AreLines.of_cons {l : RawLine} {rest : List RawLine} (h : AreLines (l :: rest)) :
    AreLines rest ∧ ∃ line, l = some line ∧ Text.IsLine line ∧
      (rest ≠ [] → ∃ content, '\n' ∉ content ∧ line = content ++ ['\n']) := by
  obtain ⟨text, h⟩ := h
  cases text using Text.lines_induct with
  | nil => cases h
  | last _ hcs hne =>
    rw [rawLines, Text.lines_of_notMem hcs hne] at h
    obtain ⟨rfl, rfl⟩ := List.cons.inj h
    exact ⟨areLines_rawLines [], _, rfl, ⟨_, hcs, .inl rfl⟩, fun hr => absurd rfl hr⟩
  | line cs rest' hcs _ =>
    rw [rawLines, Text.lines_cons hcs] at h
    obtain ⟨rfl, rfl⟩ := List.cons.inj h
    exact ⟨areLines_rawLines rest', _, rfl, ⟨cs, hcs, .inr rfl⟩, fun _ => ⟨cs, hcs, rfl⟩⟩

theorem AreLines.rest {l : RawLine} {rest : List RawLine} (h : AreLines (l :: rest)) :
    AreLines rest := h.of_cons.1

theorem AreLines.isLine {line : List Char} {rest : List RawLine}
    (h : AreLines (some line :: rest)) : Text.IsLine line := by
  obtain ⟨-, _, he, hline, -⟩ := h.of_cons
  cases he
  exact hline

/-! ## 2. The body of a value -/

/-- The text of a value on lines of its own, up to the line that ends it. -/
def bodyText (level : Nat) (value : List Char) : List Char :=
  (Text.lines value).flatMap (fun line => indent level ++ line) ++ lineEnd

/-- The lines of that text. -/
def body (level : Nat) (value : List Char) : List (List Char) := Text.lines (bodyText level value)

theorem rawLines_bodyText (value rest : List Char) :
    rawLines (bodyText level value ++ rest) = (body level value).map some ++ rawLines rest := by
  have h := Text.lines_append
    ((Text.lines value).flatMap (fun line => indent level ++ line) ++ ['\r'])
  simp only [List.append_assoc, List.cons_append, List.nil_append] at h
  simp [rawLines, body, bodyText, lineEnd, h rest]

theorem body_nil : body level [] = [lineEnd] := rfl

theorem body_last {cs : List Char} (h : '\n' ∉ cs) (hne : cs ≠ []) :
    body level cs = [indent level ++ (cs ++ lineEnd)] := by
  have hfront : '\n' ∉ indent level ++ (cs ++ ['\r']) := by
    simp [newline_notMem_indent, h]
  have hlines := Text.lines_newline hfront
  simp only [List.append_assoc, List.cons_append, List.nil_append] at hlines
  simp [body, bodyText, Text.lines_of_notMem h hne, lineEnd, hlines]

theorem body_line {cs : List Char} (h : '\n' ∉ cs) (rest : List Char) :
    body level (cs ++ '\n' :: rest) = (indent level ++ (cs ++ ['\n'])) :: body level rest := by
  have hfront : '\n' ∉ indent level ++ cs := by
    simp [newline_notMem_indent, h]
  have hlines := Text.lines_cons hfront (bodyText level rest)
  simp only [List.append_assoc] at hlines
  rw [body, body, bodyText, Text.lines_cons h]
  simp only [List.flatMap_cons, List.append_assoc, List.cons_append, List.nil_append]
  exact hlines

/-! ## 3. Where a body ends -/

theorem isTerminator_indented {cs back : List Char} (hb : ∀ c ∈ back, isMargin c = true) :
    isTerminator (indent level ++ (cs ++ back)) = isTerminator cs := by
  rw [isTerminator, isTerminator, Text.trim_append isMargin_of_mem_indent hb]

theorem hasTerminator_of_notMem {cs : List Char} (h : '\n' ∉ cs) :
    hasTerminator cs = isTerminator cs := by
  rw [hasTerminator, List.splitOn_eq_singleton h, List.any_cons, List.any_nil, Bool.or_false]

@[simp] theorem hasTerminator_nil : hasTerminator [] = false := rfl

theorem hasTerminator_append {cs : List Char} (rest : List Char) :
    hasTerminator (cs ++ '\n' :: rest) = (hasTerminator cs || hasTerminator rest) := by
  rw [hasTerminator, List.splitOn_append_cons_self, List.any_append, ← hasTerminator,
    ← hasTerminator]

/-- **No line ends a body early** unless a line of the value would. -/
theorem isTerminator_body {value : List Char} (h : hasTerminator value = false) :
    ∀ line ∈ body level value, isTerminator line = false := by
  induction value using Text.lines_induct with
  | nil =>
    intro line hline
    rw [body_nil, List.mem_singleton] at hline
    rw [hline]
    decide
  | last cs hcs hne =>
    intro line hline
    rw [body_last hcs hne, List.mem_singleton] at hline
    rw [hline, isTerminator_indented isMargin_of_mem_lineEnd, ← hasTerminator_of_notMem hcs]
    exact h
  | line cs rest hcs ih =>
    rw [hasTerminator_append, Bool.or_eq_false_iff] at h
    intro line hline
    rw [body_line hcs, List.mem_cons] at hline
    rcases hline with rfl | hline
    · rw [isTerminator_indented (by simp [isMargin]), ← hasTerminator_of_notMem hcs]
      exact h.1
    · exact ih h.2 line hline

/-- The reader takes the lines up to the first one that ends them. -/
theorem takeBody_append {lines : List (List Char)} (h : ∀ line ∈ lines, isTerminator line = false)
    {last : List Char} (hlast : isTerminator last = true) (start : Nat) (rest : List RawLine) :
    takeBody start (lines.map some ++ some last :: rest) = .ok (lines, rest) := by
  induction lines with
  | nil => rw [List.map_nil, List.nil_append, takeBody, if_pos hlast]
  | cons line lines ih =>
    have hline : ¬ isTerminator line = true := by
      rw [h line List.mem_cons_self]
      decide
    rw [List.map_cons, List.cons_append, takeBody, if_neg hline,
      ih fun l hl => h l (List.mem_cons_of_mem _ hl)]
    rfl

/-- Lines none of which ends a value are no value. -/
theorem takeBody_unended {lines : List (List Char)} (h : ∀ line ∈ lines, isTerminator line = false)
    (start : Nat) : takeBody start (lines.map some) = .error (.unterminatedHeredoc start) := by
  induction lines with
  | nil => rfl
  | cons line lines ih =>
    obtain ⟨hline, hlines⟩ := List.forall_mem_cons.mp h
    rw [List.map_cons, takeBody, hline, ih hlines]
    rfl

/-- **The body of a value is taken as it was written.** -/
theorem takeBody_written {value : List Char} (h : hasTerminator value = false) (start : Nat)
    (rest : List Char) :
    takeBody start (rawLines (bodyText level value ++
        (indent level ++ (['>', '>', '>'] ++ lineEnd) ++ rest))) =
      .ok (body level value, rawLines rest) := by
  rw [rawLines_bodyText, rawLines_written level (by decide)]
  exact takeBody_append (isTerminator_body h) isTerminator_written start _

/-! ## 4. What a body holds -/

theorem leadingSpaces_replicate (n : Nat) (cs : List Char) :
    leadingSpaces (List.replicate n ' ' ++ cs) = n + leadingSpaces cs := by
  have hspace : ∀ c ∈ List.replicate n ' ', (c == ' ') = true := by
    intro c hc
    rw [List.eq_of_mem_replicate hc]
    rfl
  rw [leadingSpaces, List.takeWhile_append_of_pos hspace, List.length_append, ← leadingSpaces,
    List.length_replicate]

theorem leadingSpaces_indented (cs : List Char) :
    leadingSpaces (indent level ++ cs) = indentWidth level + leadingSpaces cs :=
  leadingSpaces_replicate _ cs

/-- A line of a body is indented, unless it is the line end behind the value. -/
theorem mem_body {value line : List Char} (h : line ∈ body level value) :
    line = lineEnd ∨ ∃ cs, line = indent level ++ cs := by
  induction value using Text.lines_induct with
  | nil =>
    rw [body_nil, List.mem_singleton] at h
    exact .inl h
  | last cs hcs hne =>
    rw [body_last hcs hne, List.mem_singleton] at h
    exact .inr ⟨_, h⟩
  | line cs rest hcs ih =>
    rw [body_line hcs, List.mem_cons] at h
    rcases h with rfl | h
    · exact .inr ⟨_, rfl⟩
    · exact ih h

/-- **The indentation that is found** is the one that was written. -/
theorem commonIndent_body (value : List Char) :
    commonIndent level (body level value) = indentWidth level := by
  unfold commonIndent
  split
  next line hline =>
    have hmark := List.find?_some hline
    rcases mem_body (List.mem_of_find?_eq_some hline) with rfl | ⟨cs, rfl⟩
    · exact absurd hmark (by decide)
    · rw [leadingSpaces_indented]
      exact Nat.min_eq_right (Nat.le_add_right _ _)
  next => rfl

/-- A line without the spaces that were put in front of it. -/
theorem drop_replicate (n : Nat) (cs : List Char) :
    (List.replicate n ' ' ++ cs).drop (min (leadingSpaces (List.replicate n ' ' ++ cs)) n) = cs := by
  have hmin : min (leadingSpaces (List.replicate n ' ' ++ cs)) n =
      (List.replicate n ' ').length := by
    rw [leadingSpaces_replicate, Nat.min_eq_right (Nat.le_add_right _ _), List.length_replicate]
  rw [hmin, List.drop_left]

/-- A line of a body without its indentation. -/
theorem drop_indented (cs : List Char) :
    (indent level ++ cs).drop (min (leadingSpaces (indent level ++ cs)) (indentWidth level)) =
      cs := drop_replicate _ cs

/-- Without their indentation the lines of a body are the value and a line end. -/
theorem flatMap_body (value : List Char) :
    ((body level value).flatMap fun line =>
      line.drop (min (leadingSpaces line) (indentWidth level))) = value ++ lineEnd := by
  induction value using Text.lines_induct with
  | nil =>
    rw [body_nil, List.flatMap_cons, List.flatMap_nil, List.append_nil]
    exact congrArg (lineEnd.drop ·) (Nat.zero_min _)
  | last cs hcs hne =>
    rw [body_last hcs hne, List.flatMap_cons, List.flatMap_nil, List.append_nil, drop_indented]
  | line cs rest hcs ih =>
    rw [body_line hcs, List.flatMap_cons, drop_indented, ih]
    simp only [List.append_assoc, List.cons_append, List.nil_append]

theorem chomp_lineEnd (cs : List Char) : chomp (cs ++ lineEnd) = cs := by
  simp [chomp, lineEnd]

/-- **A value is read back from its body**, whatever it is. -/
theorem heredocValue_body (value : List Char) : heredocValue level (body level value) = value := by
  simp only [heredocValue, commonIndent_body, flatMap_body, chomp_lineEnd]

/-! ## 5. Values from any body -/

/-- **The lines that were taken** end in a line feed, and none of them ends the value. -/
theorem AreLines.takeBody {start : Nat} {lines rest : List RawLine} {body : List (List Char)}
    (h : AreLines lines) (hb : takeBody start lines = .ok (body, rest)) :
    AreLines rest ∧ ∀ line ∈ body, isTerminator line = false ∧
      ∃ content, '\n' ∉ content ∧ line = content ++ ['\n'] := by
  induction lines generalizing body with
  | nil => cases hb
  | cons l lines ih =>
    obtain ⟨hrest, line, rfl, -, hfeed⟩ := h.of_cons
    rw [Dump.takeBody] at hb
    split at hb
    next =>
      cases hb
      exact ⟨hrest, by simp⟩
    next hterm =>
      obtain ⟨⟨body', rest'⟩, hb', hb⟩ := bind_eq_ok.1 hb
      cases hb
      obtain ⟨hrest', hbody'⟩ := ih hrest hb'
      refine ⟨hrest', List.forall_mem_cons.mpr ⟨⟨Bool.eq_false_iff.mpr hterm, hfeed ?_⟩, hbody'⟩⟩
      -- there is at least the line that ends the value
      rintro rfl
      cases hb'

/-- What stands behind the marks of a line does not matter. -/
theorem trim_append_margin {cs back : List Char} (hb : ∀ c ∈ back, isMargin c = true) :
    Text.trim isMargin (cs ++ back) = Text.trim isMargin cs := by
  have h : Text.trim isMargin ([] ++ (cs ++ back)) = Text.trim isMargin cs :=
    Text.trim_append (by simp) hb
  rwa [List.nil_append] at h

theorem isTerminator_margin {cs back : List Char} (hb : ∀ c ∈ back, isMargin c = true) :
    isTerminator (cs ++ back) = isTerminator cs := by
  rw [isTerminator, isTerminator, trim_append_margin hb]

/-- One more character of the margin. -/
theorem hasTerminator_concat {c : Char} (hc : isMargin c = true) (cs : List Char) :
    hasTerminator (cs ++ [c]) = hasTerminator cs := by
  have hback : ∀ d ∈ [c], isMargin d = true := by simpa using hc
  by_cases hnew : c = '\n'
  · subst hnew
    rw [hasTerminator_append, hasTerminator_nil, Bool.or_false]
  induction cs using Text.lines_induct with
  | nil =>
    rw [hasTerminator_of_notMem (by simpa using Ne.symm hnew), isTerminator_margin hback]
    rfl
  | last cs hcs _ =>
    have hcs' : '\n' ∉ cs ++ [c] := by simp [hcs, Ne.symm hnew]
    rw [hasTerminator_of_notMem hcs', hasTerminator_of_notMem hcs, isTerminator_margin hback]
  | line cs rest _ ih =>
    rw [List.append_assoc, List.cons_append, hasTerminator_append, hasTerminator_append, ih]

/-- A line end behind a text does not matter. -/
theorem hasTerminator_chomp (cs : List Char) : hasTerminator (chomp cs) = hasTerminator cs := by
  unfold chomp
  split
  next rest hrev =>
    have hcs : cs = rest.reverse ++ ['\r'] ++ ['\n'] := by
      rw [← List.reverse_reverse cs, hrev]
      simp
    rw [hcs, hasTerminator_concat (by decide), hasTerminator_concat (by decide)]
  next rest _ hrev =>
    have hcs : cs = rest.reverse ++ ['\n'] := by
      rw [← List.reverse_reverse cs, hrev]
      simp
    rw [hcs, hasTerminator_concat (by decide)]
  next => rfl

/-- A line without some of the spaces in front of it. -/
theorem drop_spaces {content : List Char} (h : '\n' ∉ content) {spaces : Nat}
    (hs : spaces ≤ leadingSpaces (content ++ ['\n'])) :
    ∃ cs, '\n' ∉ cs ∧ (content ++ ['\n']).drop spaces = cs ++ ['\n'] ∧
      isTerminator cs = isTerminator (content ++ ['\n']) := by
  have htake : (content ++ ['\n']).take spaces <+: (content ++ ['\n']).takeWhile (· == ' ') :=
    List.prefix_of_prefix_length_le (List.take_prefix _ _) (List.takeWhile_prefix _)
      (by rw [List.length_take]; exact (Nat.min_le_left _ _).trans hs)
  have hspace : ∀ c ∈ (content ++ ['\n']).take spaces, c = ' ' := fun c hc =>
    eq_of_beq (List.mem_takeWhile_imp (p := (· == ' ')) (htake.subset hc))
  have hle : spaces ≤ content.length := by
    by_contra hlt
    refine absurd (hspace '\n' ?_) (by decide)
    rw [List.take_of_length_le (by simp; omega)]
    simp
  have hdrop : (content ++ ['\n']).drop spaces = content.drop spaces ++ ['\n'] :=
    List.drop_append_of_le_length hle
  refine ⟨content.drop spaces, fun hmem => h (List.mem_of_mem_drop hmem), hdrop, ?_⟩
  have hfront : ∀ c ∈ content.take spaces, isMargin c = true := by
    intro c hc
    have hmem : c ∈ (content ++ ['\n']).take spaces := by
      rw [List.take_append_of_le_length hle]
      exact hc
    rw [hspace c hmem]
    rfl
  have htrim : Text.trim isMargin (content.take spaces ++ (content.drop spaces ++ ['\n'])) =
      Text.trim isMargin (content.drop spaces) :=
    Text.trim_append hfront (by simp [isMargin])
  rw [← List.append_assoc, List.take_append_drop] at htrim
  rw [isTerminator, isTerminator, htrim]

/-- **No line of a value from lines of its own ends it.** -/
theorem hasTerminator_heredocValue {body : List (List Char)}
    (h : ∀ line ∈ body, isTerminator line = false ∧
      ∃ content, '\n' ∉ content ∧ line = content ++ ['\n']) :
    hasTerminator (heredocValue level body) = false := by
  rw [heredocValue, hasTerminator_chomp]
  generalize commonIndent level body = spaces
  induction body with
  | nil => rfl
  | cons line body ih =>
    obtain ⟨⟨hterm, content, hcontent, rfl⟩, hbody⟩ := List.forall_mem_cons.mp h
    obtain ⟨cs, hcs, hdrop, he⟩ := drop_spaces hcontent (Nat.min_le_left _ spaces)
    rw [List.flatMap_cons, hdrop, List.append_assoc, List.singleton_append, hasTerminator_append,
      ih hbody, hasTerminator_of_notMem hcs, he, hterm]
    rfl

end BlockDoc.Dump
