/-
# What a line says, and what it cannot say

The writer makes lines of five forms, and the reader tells each of them for what it is
(`ofChars_param`, `ofChars_heredoc`, `ofChars_opening`, `ofChars_closing`, `isTerminator_written`).
That takes a name that fits on a line.  Nothing smaller will do, because no line of any text has
a name that does not fit (`named_ofChars`).
-/
import BlockDoc.Dump.Writer
import BlockDoc.Proofs.Text.Cutting
import Mathlib.Tactic.MkIffOfInductiveProp

namespace BlockDoc.Dump

open Text (isMargin isBlank)

/-! ## 1. Names that fit on a line -/

/-- Every blank is a margin. -/
theorem isBlank_of_isMargin {c : Char} (h : isMargin c = false) : isBlank c = false := by
  simp only [isMargin, isBlank, Bool.or_eq_false_iff] at h ⊢
  exact ⟨h.1.1.1, h.2⟩

/-- What can be left of a line without its margins and without a comment. -/
@[mk_iff]
structure Bare (content : List Char) : Prop where
  /-- Lines end at their first line feed. -/
  newline : '\n' ∉ content
  /-- A comment is cut off. -/
  comment : ¬ ['/', '/'] <:+: content
  /-- The margin in front is cut off. -/
  head : ∀ c ∈ content.head?, isMargin c = false

/-- A name that fits on a line, in front of an equals sign or an opening brace. -/
@[mk_iff]
structure Fits (name : List Char) : Prop extends Bare name where
  /-- A name ends at the first equals sign. -/
  equals : '=' ∉ name
  /-- Blanks behind a name are cut off. -/
  last : ∀ c ∈ name.getLast?, isBlank c = false

/-- A name that fits on the line of a parameter: it is not taken for the end of a block. -/
@[mk_iff]
structure FitsParam (name : List Char) : Prop extends Fits name where
  /-- A closing brace ends a block. -/
  brace : '}' ∉ name.head?

instance : DecidablePred Bare := fun content =>
  decidable_of_iff ('\n' ∉ content ∧ ¬ ['/', '/'] <:+: content ∧
    content.head?.any isMargin = false) (by rw [bare_iff, Option.any_eq_false]; rfl)

instance : DecidablePred Fits := fun name =>
  decidable_of_iff (Bare name ∧ '=' ∉ name ∧ name.getLast?.any isBlank = false)
    (by rw [fits_iff, Option.any_eq_false]; rfl)

instance : DecidablePred FitsParam := fun name => decidable_of_iff _ (fitsParam_iff name).symm

theorem Bare.of_isPrefix {front content : List Char} (h : Bare content) (hf : front <+: content) :
    Bare front where
  newline hmem := h.newline (hf.subset hmem)
  comment hin := h.comment (hin.trans hf.isInfix)
  head c hc := h.head c (Text.head?_of_isPrefix hf c hc)

/-- A name fits on a line once the blanks behind it are off. -/
theorem Bare.fits_trimEnd {front : List Char} (h : Bare front) (heq : '=' ∉ front) :
    Fits (Text.trimEnd isBlank front) where
  toBare := h.of_isPrefix Text.trimEnd_isPrefix
  equals hmem := heq (Text.trimEnd_isPrefix.subset hmem)
  last := Text.getLast?_trimEnd

/-! ## 2. Lines that were written -/

variable {level : Nat} {name value : List Char}

theorem isMargin_of_mem_replicate {n : Nat} : ∀ c ∈ List.replicate n ' ', isMargin c = true := by
  intro c hc
  rw [List.eq_of_mem_replicate hc]
  rfl

theorem isMargin_of_mem_indent : ∀ c ∈ indent level, isMargin c = true :=
  isMargin_of_mem_replicate

theorem isMargin_of_mem_lineEnd : ∀ c ∈ lineEnd, isMargin c = true := by
  simp [lineEnd, isMargin]

/-- **A content without margins and without a comment** is all that is left of its line. -/
theorem bare_written {content : List Char} (h : Bare content)
    (hlast : ∀ c ∈ content.getLast?, isMargin c = false) :
    bare (indent level ++ (content ++ lineEnd)) = content := by
  have htrim : Text.trim isMargin (indent level ++ (content ++ lineEnd)) = content := by
    rw [Text.trim_append isMargin_of_mem_indent isMargin_of_mem_lineEnd,
      Text.trim_eq_self h.head hlast]
  have hcomment : Text.before? ['/', '/'] content = none := Text.before?_eq_none_iff.mpr h.comment
  simp only [bare, htrim, hcomment]

/-- A name in front of a mark and a rest without margins and without a comment. -/
theorem Fits.bare_append (h : Fits name) {mark : Char} {rest : List Char}
    (hm : isMargin mark = false) (hslash : mark ≠ '/') (hnew : '\n' ∉ rest)
    (hcom : ¬ ['/', '/'] <:+: rest) :
    Bare (name ++ mark :: rest) where
  newline := by
    intro hmem
    rcases List.mem_append.mp hmem with hmem | hmem
    · exact h.newline hmem
    · rcases List.mem_cons.mp hmem with rfl | hmem
      · exact absurd hm (by decide)
      · exact hnew hmem
  comment hin := (Text.infix_append_cons (by simpa using hslash) hin).elim h.comment hcom
  head := by
    intro c hc
    cases name with
    | nil =>
      obtain rfl : mark = c := by simpa using hc
      exact hm
    | cons d name => exact h.head c hc

/-- What the value of a parameter is like if it stays on the line of its name. -/
structure Plain (value : List Char) : Prop where
  /-- There is no line end. -/
  carriage : '\r' ∉ value
  newline : '\n' ∉ value
  /-- There is no comment. -/
  comment : ¬ ['/', '/'] <:+: value
  /-- It does not begin like a value on lines of its own. -/
  heredoc : ['<', '<', '<'].isPrefixOf value = false
  /-- It does not end like the start of a block. -/
  brace : value.getLast? ≠ some '{'
  /-- It has no blanks around it. -/
  head : ∀ c ∈ value.head?, isBlank c = false
  last : ∀ c ∈ value.getLast?, isBlank c = false

theorem plain_of_needsHeredoc (h : needsHeredoc value = false) : Plain value := by
  simp only [needsHeredoc, Bool.or_eq_false_iff, List.contains_eq_mem, decide_eq_false_iff_not,
    beq_eq_false_iff_ne, bne_eq_false_iff_eq] at h
  obtain ⟨⟨⟨⟨⟨hreturn, hnewline⟩, hcomment⟩, hheredoc⟩, hbrace⟩, hlength⟩ := h
  have htrim := Text.trim_eq_self_of_length hlength
  refine ⟨hreturn, hnewline, Text.before?_eq_none_iff.mp ?_, hheredoc, hbrace, ?_, ?_⟩
  · rwa [occurs, Option.isSome_eq_false_iff, Option.isNone_iff_eq_none] at hcomment
  · rw [← htrim]
    exact Text.head?_trim
  · rw [← htrim]
    exact Text.getLast?_trim

/-- The last character behind a mark. -/
theorem getLast?_append_cons {front rest : List Char} {mark : Char} :
    ∀ c ∈ (front ++ mark :: rest).getLast?, c = mark ∨ c ∈ rest.getLast? := by
  intro c hc
  rw [List.getLast?_append_cons] at hc
  cases rest with
  | nil =>
    obtain rfl : mark = c := by simpa using hc
    exact .inl rfl
  | cons d rest => exact .inr hc

theorem Plain.isMargin_last (h : Plain value) : ∀ c ∈ value.getLast?, isMargin c = false := by
  intro c hc
  have hblank := h.last c hc
  have hmem := List.mem_of_getLast? hc
  have hreturn : c ≠ '\r' := fun e => h.carriage (e ▸ hmem)
  have hnewline : c ≠ '\n' := fun e => h.newline (e ▸ hmem)
  simp only [isBlank, isMargin, Bool.or_eq_false_iff, beq_eq_false_iff_ne] at hblank ⊢
  exact ⟨⟨⟨hblank.1, hnewline⟩, hreturn⟩, hblank.2⟩

/-- What is told by a name in front of an equals sign. -/
theorem classify_equals (hname : FitsParam name) (hbrace : value.getLast? ≠ some '{')
    (hvalue : ∀ c ∈ value.head?, isBlank c = false) :
    classify (name ++ '=' :: value) =
      if ['<', '<', '<'].isPrefixOf value then .heredoc name else .param name value := by
  have hlast : (name ++ '=' :: value).getLast? ≠ some '{' := by
    intro h
    rcases getLast?_append_cons _ h with e | e
    · exact absurd e (by decide)
    · exact hbrace e
  have hhead : (name ++ '=' :: value).head? ≠ some '}' := by
    cases name with
    | nil => simp
    | cons c name => exact hname.brace
  rw [classify, if_neg hlast, if_neg hhead, Text.splitOnce?_append hname.equals]
  simp only [Text.trimEnd_eq_self hname.last, Text.dropWhile_eq_self hvalue]

/-- **The line of a parameter** is told. -/
theorem ofChars_param (hname : FitsParam name) (hvalue : needsHeredoc value = false) :
    Line.ofChars (indent level ++ (name ++ ('=' :: value) ++ lineEnd)) = .param name value := by
  have hplain := plain_of_needsHeredoc hvalue
  have hbare : Bare (name ++ '=' :: value) :=
    hname.bare_append (by decide) (by decide) hplain.newline hplain.comment
  have hlast : ∀ c ∈ (name ++ '=' :: value).getLast?, isMargin c = false := by
    intro c hc
    rcases getLast?_append_cons c hc with rfl | hc
    · rfl
    · exact hplain.isMargin_last c hc
  rw [Line.ofChars, bare_written hbare hlast, classify_equals hname hplain.brace hplain.head,
    hplain.heredoc]
  rfl

/-- **The first line of a parameter** whose value has lines of its own is told. -/
theorem ofChars_heredoc (hname : FitsParam name) :
    Line.ofChars (indent level ++ (name ++ ['=', '<', '<', '<'] ++ lineEnd)) = .heredoc name := by
  have hbare : Bare (name ++ '=' :: ['<', '<', '<']) :=
    hname.bare_append (by decide) (by decide) (by decide) (by decide)
  have hlast : ∀ c ∈ (name ++ '=' :: ['<', '<', '<']).getLast?, isMargin c = false := by
    intro c hc
    rcases getLast?_append_cons c hc with rfl | hc
    · rfl
    · obtain rfl : '<' = c := by simpa using hc
      rfl
  rw [Line.ofChars, bare_written hbare hlast, classify_equals hname (by decide) (by simp [isBlank])]
  rfl

/-- **The line that starts a block** is told. -/
theorem ofChars_opening (hname : Fits name) (sorted : Bool) :
    Line.ofChars (indent level ++ (name ++ [if sorted then '^' else '~', '{'] ++ lineEnd)) =
      .opening name sorted none := by
  have hbare : Bare (name ++ [if sorted then '^' else '~', '{']) := by
    refine hname.bare_append ?_ ?_ (by decide) (by decide)
    all_goals cases sorted <;> decide
  have hlast : ∀ c ∈ (name ++ [if sorted then '^' else '~', '{']).getLast?, isMargin c = false := by
    intro c hc
    obtain rfl : '{' = c := by simpa using hc
    rfl
  have hopen : (name ++ [if sorted then '^' else '~', '{']).getLast? = some '{' := by simp
  have hdrop : (name ++ [if sorted then '^' else '~', '{']).dropLast =
      name ++ [if sorted then '^' else '~'] := by simp
  have hmark : Text.trimEnd isBlank (name ++ [if sorted then '^' else '~']) =
      name ++ [if sorted then '^' else '~'] := by
    refine Text.trimEnd_eq_self fun c hc => ?_
    obtain rfl : (if sorted then '^' else '~') = c := by simpa using hc
    cases sorted <;> rfl
  have horder : orderMark (name ++ [if sorted then '^' else '~']) = (name, sorted) := by
    cases sorted <;>
      simp [orderMark, Text.trimEnd_eq_self hname.last]
  have hnone := Text.splitOnce?_eq_none_iff.mpr hname.equals
  rw [Line.ofChars, bare_written hbare hlast, classify, if_pos hopen, hdrop, openingOf, hmark,
    horder]
  simp only [hnone]

/-- **The line that ends a block** is told. -/
theorem ofChars_closing : Line.ofChars (indent level ++ (['}'] ++ lineEnd)) = .closing := by
  have hbare : Bare ['}'] := by decide
  rw [Line.ofChars, bare_written hbare (by simp [isMargin])]
  rfl

/-- **A blank line** means nothing. -/
theorem ofChars_blank : Line.ofChars (indent level ++ ([] ++ lineEnd)) = .noise := by
  have hbare : Bare [] := by decide
  rw [Line.ofChars, bare_written hbare (by simp)]
  rfl

/-- **The line that ends a value** is told. -/
theorem isTerminator_written :
    isTerminator (indent level ++ (['>', '>', '>'] ++ lineEnd)) = true := by
  rw [isTerminator, Text.trim_append isMargin_of_mem_indent isMargin_of_mem_lineEnd]
  rfl

/-! ## 3. Lines of any text -/

/-- The name on a line, if there is one, fits on a line. -/
def Line.Named : Line → Prop
  | .opening name _ _ => Fits name
  | .param name _ => FitsParam name
  | .heredoc name => FitsParam name
  | .closing => True
  | .noise => True

/-- The margins of a line are cut off, whatever they are. -/
theorem bare_margins {front cs back : List Char} (hf : ∀ c ∈ front, isMargin c = true)
    (hb : ∀ c ∈ back, isMargin c = true) : bare (front ++ (cs ++ back)) = bare cs := by
  rw [bare, bare, Text.trim_append hf hb]

/-- The margins of a line mean nothing. -/
theorem ofChars_margins {front cs back : List Char} (hf : ∀ c ∈ front, isMargin c = true)
    (hb : ∀ c ∈ back, isMargin c = true) :
    Line.ofChars (front ++ (cs ++ back)) = Line.ofChars cs := by
  rw [Line.ofChars, Line.ofChars, bare_margins hf hb]

/-- **What is left of a line** has no line feed, no comment and no margin in front. -/
theorem bare_ofLine {line : List Char} (h : Text.IsLine line) : Bare (bare line) := by
  have htrim : '\n' ∉ Text.trim isMargin line := by
    obtain ⟨content, hcontent, rfl | rfl⟩ := h
    · exact fun hmem => hcontent (Text.trim_infix.subset hmem)
    · have happ : Text.trim isMargin ([] ++ (content ++ ['\n'])) = Text.trim isMargin content :=
        Text.trim_append (by simp) (by simp [isMargin])
      rw [← List.nil_append (content ++ ['\n']), happ]
      exact fun hmem => hcontent (Text.trim_infix.subset hmem)
  unfold bare
  dsimp only
  split
  next content hc =>
    obtain ⟨hpre, hmark⟩ := Text.before?_eq_some (by decide) hc
    have hcontent : Bare content :=
      ⟨fun hmem => htrim (hpre.subset hmem), hmark,
        fun c hh => Text.head?_trim c (Text.head?_of_isPrefix hpre c hh)⟩
    exact hcontent.of_isPrefix Text.trimEnd_isPrefix
  next hc => exact ⟨htrim, Text.before?_eq_none_iff.mp hc, Text.head?_trim⟩

/-- Nothing is put into a line. -/
theorem bare_subset (line : List Char) : bare line ⊆ line := by
  unfold bare
  dsimp only
  split
  next content hcontent =>
    obtain ⟨hfront, -⟩ := Text.before?_eq_some (by decide) hcontent
    have hkept : Text.trimEnd isBlank content <+: Text.trim isMargin line :=
      Text.trimEnd_isPrefix.trans hfront
    exact List.Subset.trans hkept.subset Text.trim_infix.subset
  next => exact Text.trim_infix.subset

/-- **A line without an equals sign and without braces says nothing.** -/
theorem ofChars_noise {line : List Char} (hequals : '=' ∉ line) (hopening : '{' ∉ line)
    (hclosing : '}' ∉ line) : Line.ofChars line = .noise := by
  have hlast : (bare line).getLast? ≠ some '{' := fun h =>
    hopening (bare_subset line (List.mem_of_getLast? h))
  have hhead : (bare line).head? ≠ some '}' := fun h =>
    hclosing (bare_subset line (List.mem_of_mem_head? h))
  have hsplit : Text.splitOnce? '=' (bare line) = none :=
    Text.splitOnce?_eq_none_iff.mpr fun h => hequals (bare_subset line h)
  rw [Line.ofChars, classify, if_neg hlast, if_neg hhead, hsplit]

/-- A mark of the order is cut off with the blanks in front of it. -/
theorem orderMark_fst (head : List Char) (hlast : ∀ c ∈ head.getLast?, isBlank c = false) :
    ∃ front, front <+: head ∧ (orderMark head).1 = Text.trimEnd isBlank front := by
  unfold orderMark
  split
  · exact ⟨_, List.dropLast_prefix head, rfl⟩
  · exact ⟨_, List.dropLast_prefix head, rfl⟩
  · exact ⟨head, List.prefix_refl head, (Text.trimEnd_eq_self hlast).symm⟩

/-- The name of a block fits on a line. -/
theorem named_openingOf {head : List Char} (h : Bare head) : (openingOf head).Named := by
  obtain ⟨front, hfront, heq⟩ :=
    orderMark_fst (Text.trimEnd isBlank head) Text.getLast?_trimEnd
  have hbare : Bare front := h.of_isPrefix (hfront.trans Text.trimEnd_isPrefix)
  have hfst : Bare (orderMark (Text.trimEnd isBlank head)).1 := by
    rw [heq]
    exact hbare.of_isPrefix Text.trimEnd_isPrefix
  unfold openingOf
  dsimp only
  split
  next hn =>
    rw [heq] at hn ⊢
    have hne := Text.splitOnce?_eq_none_iff.mp hn
    exact ⟨hbare.of_isPrefix Text.trimEnd_isPrefix, hne, Text.getLast?_trimEnd⟩
  next name path hs =>
    obtain ⟨hpre, hne⟩ := Text.splitOnce?_eq_some hs
    exact (hfst.of_isPrefix hpre).fits_trimEnd hne

/-- The value of a parameter on the line of its name: it has no line feed and no blanks around
it. -/
@[mk_iff]
structure Inline (value : List Char) : Prop where
  /-- It is on one line. -/
  newline : '\n' ∉ value
  /-- Blanks in front of it are cut off. -/
  head : ∀ c ∈ value.head?, isBlank c = false
  /-- Blanks behind it are cut off. -/
  last : ∀ c ∈ value.getLast?, isBlank c = false

/-- The last character that is left of a line is no blank. -/
theorem last_bare (line : List Char) : ∀ c ∈ (bare line).getLast?, isBlank c = false := by
  unfold bare
  dsimp only
  split
  next => exact Text.getLast?_trimEnd
  next => exact fun c hc => isBlank_of_isMargin (Text.getLast?_trim c hc)

/-- **Every value on the line of its name** is on one line and has no blanks around it. -/
theorem inline_ofChars {line name value : List Char} (h : Text.IsLine line)
    (hline : Line.ofChars line = .param name value) : Inline value := by
  have hbare := bare_ofLine h
  have hlast := last_bare line
  rw [Line.ofChars] at hline
  generalize bare line = content at hbare hlast hline
  unfold classify at hline
  split at hline
  next =>
    unfold openingOf at hline
    dsimp only at hline
    split at hline <;> cases hline
  next =>
    split at hline
    next => cases hline
    next =>
      split at hline
      next => cases hline
      next front back hs =>
        dsimp only at hline
        split at hline
        next => cases hline
        next =>
          cases hline
          have hback := Text.splitOnce?_suffix hs
          have hdrop : back.dropWhile isBlank <:+ content :=
            (List.dropWhile_suffix _).trans hback
          exact ⟨fun hmem => hbare.newline (hdrop.subset hmem), Text.head?_dropWhile,
            fun c hc => hlast c (Text.getLast?_of_isSuffix hdrop c hc)⟩

/-- **Every name on a line fits on a line.** -/
theorem named_ofChars {line : List Char} (h : Text.IsLine line) : (Line.ofChars line).Named := by
  have hbare := bare_ofLine h
  rw [Line.ofChars]
  generalize bare line = content at hbare ⊢
  unfold classify
  split
  next => exact named_openingOf (hbare.of_isPrefix (List.dropLast_prefix content))
  next =>
    split
    next => trivial
    next hbrace =>
      split
      next => trivial
      next name value hs =>
        obtain ⟨hpre, hne⟩ := Text.splitOnce?_eq_some hs
        have hfits : FitsParam (Text.trimEnd isBlank name) :=
          ⟨(hbare.of_isPrefix hpre).fits_trimEnd hne, fun hmem =>
            hbrace (Text.head?_of_isPrefix (Text.trimEnd_isPrefix.trans hpre) _ hmem)⟩
        dsimp only
        split
        · exact hfits
        · exact hfits

end BlockDoc.Dump
