/-
# Closing braces at the end

A block that is still open where a text ends is closed there.  So it makes no difference whether a
text says so: lines that read `}` may stand behind a dump, as many as one likes, and closing braces
behind a listing.  Three ways to close a block have to agree for that: a closing brace, the end of
the text, and a closing brace without a block, which is passed over.

* Behind the end of a dump such lines do what the end does (`readLines_idle`).  Before it, both
  texts have the same lines, up to the line end that the last one may get; that is the relation
  `Closes`, and reading respects it line by line (`readLines_closes`), failures included.
* A value on lines of its own that has no end takes these lines to be part of it, and fails as it
  did before (`takeBody_closes`).
* In a listing the braces are parts behind all others (`tokens_replicate`), and reading comes to
  them last (`readTokens_replicate`).

Main statement: `closing_braces_idle`.
-/
import BlockDoc.Listing
import BlockDoc.Proofs.Dump.Advance
import BlockDoc.Proofs.Dump.Heredoc

namespace BlockDoc

namespace Dump

open Text (isMargin)

/-! ## 1. Lines that can stand behind a text -/

/-- A line that ends no value and does nothing but to close a block, if that much. -/
structure Idle (line : List Char) : Prop where
  /-- It does not end a value on lines of its own. -/
  terminator : isTerminator line = false
  /-- It closes a block, or nothing. -/
  effect : Line.ofChars line = .closing ∨ Line.ofChars line = .noise

/-- Whether a line reads `}`. -/
def IsBrace (line : List Char) : Prop := Text.trim isMargin line = ['\x7d']

instance : DecidablePred IsBrace := fun line =>
  inferInstanceAs (Decidable (Text.trim isMargin line = ['\x7d']))

theorem IsBrace.idle {line : List Char} (h : IsBrace line) : Idle line where
  terminator := by
    rw [isTerminator, show Text.trim isMargin line = ['\x7d'] from h]
    decide
  effect := by
    rw [Line.ofChars, bare, show Text.trim isMargin line = ['\x7d'] from h]
    exact .inl (by decide)

theorem idle_newline : Idle ['\n'] := ⟨by decide, .inr (by decide)⟩

/-- **The lines of two texts**, the second with some idle lines behind the first, whose last line
has got a line end that it may have been without. -/
inductive Closes : List RawLine → List RawLine → Prop
  /-- The first text has come to its end. -/
  | behind {idle : List (List Char)} : (∀ line ∈ idle, Idle line) → Closes [] (idle.map some)
  /-- A line that both texts have, but for what stands behind it. -/
  | line {line back : List Char} {ls ls' : List RawLine} : (∀ c ∈ back, isMargin c = true) →
      (ls ≠ [] → back = []) → Closes ls ls' → Closes (some line :: ls) (some (line ++ back) :: ls')

/-- **Behind a line feed there may be closing braces.** -/
theorem closes_rawLines (t : List Char) {s : List Char} (h : ∀ line ∈ Text.lines s, IsBrace line) :
    Closes (rawLines t) (rawLines (t ++ '\n' :: s)) := by
  have hidle : ∀ line ∈ Text.lines s, Idle line := fun line hline => (h line hline).idle
  induction t using Text.lines_induct with
  | nil =>
    have hlines : Text.lines ([] ++ '\n' :: s) = ['\n'] :: Text.lines s :=
      Text.lines_cons List.not_mem_nil s
    rw [rawLines, rawLines, hlines]
    exact .behind (List.forall_mem_cons.mpr ⟨idle_newline, hidle⟩)
  | last cs hcs hne =>
    rw [rawLines, rawLines, Text.lines_of_notMem hcs hne, Text.lines_cons hcs]
    exact .line (by simp [isMargin]) (fun hn => absurd rfl hn) (.behind hidle)
  | line cs rest hcs ih =>
    have hlines : Text.lines (cs ++ '\n' :: rest ++ '\n' :: s) =
        (cs ++ ['\n']) :: Text.lines (rest ++ '\n' :: s) := by
      rw [List.append_assoc, List.cons_append, Text.lines_cons hcs]
    rw [rawLines, rawLines, Text.lines_cons hcs, hlines]
    have hline : Closes (some (cs ++ ['\n']) :: rawLines rest)
        (some (cs ++ ['\n'] ++ []) :: rawLines (rest ++ '\n' :: s)) :=
      .line (by simp) (fun _ => rfl) ih
    rwa [List.append_nil] at hline

/-! ## 2. Reading such texts -/

variable {files : FileReader} {charset : Charset} {limit number : Nat} {baseDir? : Option String}
  {start : Nat} {ls ls' : List RawLine} {top : Document} {stack : List OpenBlock}

/-- **Idle lines close what is open**, as the end of a text does. -/
theorem readLines_idle {idle : List (List Char)} (h : ∀ line ∈ idle, Idle line) :
    readLines files charset limit baseDir? number (idle.map some) top stack =
      .ok (closeAll top stack) := by
  induction idle generalizing number top stack with
  | nil => rw [List.map_nil, readLines.eq_def]
  | cons line idle ih =>
    obtain ⟨hline, hidle⟩ := List.forall_mem_cons.mp h
    rcases hline.effect with hs | hs
    · rw [List.map_cons, readLines_line (by rw [hs]; rfl), hs]
      cases stack with
      | nil => exact ih hidle
      | cons b outer => exact ih hidle
    · rw [List.map_cons, readLines_line (by rw [hs]; rfl), hs]
      exact ih hidle

/-- Idle lines do not end a value. -/
theorem takeBody_idle {idle : List (List Char)} (h : ∀ line ∈ idle, Idle line) :
    takeBody start (idle.map some) = .error (.unterminatedHeredoc start) :=
  takeBody_unended (fun line hline => (h line hline).terminator) start

/-- **The same lines are taken for a value**, or there is no end to it in either text. -/
theorem takeBody_closes (h : Closes ls ls') :
    OutcomesAgree (fun p q => p.1 = q.1 ∧ Closes p.2 q.2) (takeBody start ls)
      (takeBody start ls') := by
  induction h with
  | behind hidle =>
    rw [takeBody_idle hidle]
    exact .error _
  | @line line back ls ls' hback hlast h ih =>
    rw [takeBody, takeBody, isTerminator_margin hback]
    by_cases hterm : isTerminator line = true
    · rw [if_pos hterm, if_pos hterm]
      exact .ok ⟨rfl, h⟩
    rw [if_neg hterm, if_neg hterm]
    rcases eq_or_ne ls [] with rfl | hne
    · -- the line is the last one, so there is no end to the value
      cases h with
      | behind hidle =>
        rw [takeBody_idle hidle]
        exact .error _
    · obtain rfl := hlast hne
      rw [List.append_nil]
      exact ih.bind fun p q hpq => .ok ⟨congrArg (line :: ·) hpq.1, hpq.2⟩

/-- **Closing what is open at the end changes nothing**, whatever was read so far. -/
theorem readLines_closes (h : Closes ls ls') :
    readLines files charset limit baseDir? number ls' top stack =
      readLines files charset limit baseDir? number ls top stack := by
  induction hn : ls.length using Nat.strong_induction_on generalizing ls ls' number top stack with
  | _ n ih =>
    cases h with
    | behind hidle => rw [readLines_idle hidle, readLines.eq_def]
    | @line line back ls ls' hback hlast h =>
      have hline : Line.ofChars (line ++ back) = Line.ofChars line :=
        @ofChars_margins [] line back (by simp) hback
      cases hopens : (Line.ofChars line).opensValue with
      | true =>
        obtain ⟨name, hname⟩ := Line.exists_heredoc hopens
        rw [readLines_value hname, readLines_value (hline.trans hname)]
        refine ((takeBody_closes h).attach.bind fun p q ⟨hp, hbody, hrest⟩ => .of_eq ?_).eq.symm
        have hlen := length_of_takeBody hp
        rw [← hbody]
        exact (ih p.2.length (by rw [← hn, List.length_cons]; omega) hrest rfl).symm
      | false =>
        rw [readLines_line hopens, readLines_line (by rw [hline]; exact hopens), hline]
        refine bind_congr fun s => ?_
        exact ih ls.length (by rw [← hn]; simp) h rfl

end Dump

/-! ## 3. Listings -/

namespace Listing

variable {limit : Nat} {top : Block} {stack : List Block}

theorem scan_closing (segment code : List Char) :
    scan segment ('\x7d' :: code) = lineTokens segment.reverse ++ .closing :: scan [] code := by
  rw [scan, if_neg (by decide), if_pos rfl]

theorem scan_replicate (segment code : List Char) (k : Nat) :
    scan segment (code ++ List.replicate k '\x7d') =
      scan segment code ++ List.replicate k .closing := by
  fun_induction scan segment code with
  | case1 segment =>
    rw [List.nil_append]
    induction k generalizing segment with
    | zero => exact (List.append_nil _).symm
    | succ k ih =>
      rw [List.replicate_succ, List.replicate_succ, scan_closing, ih]
      rfl
  | case2 segment cs ih =>
    rw [List.cons_append, scan, if_pos rfl, ih, List.append_assoc, List.cons_append]
  | case3 segment cs hopening ih =>
    rw [List.cons_append, scan_closing, ih, List.append_assoc, List.cons_append]
  | case4 segment c cs hopening hclosing ih =>
    rw [List.cons_append, scan, if_neg hopening, if_neg hclosing, ih]

/-- **Closing braces behind a listing** are parts behind all others. -/
theorem tokens_replicate (code : List Char) (k : Nat) :
    tokens (code ++ List.replicate k '\x7d') = tokens code ++ List.replicate k .closing :=
  scan_replicate [] code k

/-- **They close what is open**, as the end of a listing does. -/
theorem readTokens_closing (k : Nat) :
    readTokens limit top stack (List.replicate k .closing) = .ok (top.closeAll stack) := by
  induction k generalizing top stack with
  | zero => rfl
  | succ k ih =>
    rw [List.replicate_succ]
    cases stack with
    | nil => exact ih
    | cons outer stack => exact ih

theorem readTokens_replicate (parts : List Token) (k : Nat) :
    readTokens limit top stack (parts ++ List.replicate k .closing) =
      readTokens limit top stack parts := by
  fun_induction readTokens limit top stack parts with
  | case1 top stack => exact readTokens_closing k
  | case2 top stack text rest ih => exact ih
  | case3 top stack rest hlevel => exact if_pos hlevel
  | case4 top stack rest hlevel ih => exact (if_neg hlevel).trans ih
  | case5 top rest ih => exact ih
  | case6 top rest outer stack ih => exact ih

end Listing

/-! ## 4. Both readers -/

/-- **Closing braces at the end change nothing.**  Behind a line feed a dump may go on with lines
that read `}`, with any margins around the brace and with or without a last line end, and a listing
may go on with closing braces: what is read is the same document, entry by entry, or the same
error. -/
theorem closing_braces_idle (files : FileReader) (o : Dump.Options) (t s code : List Char) (k : Nat)
    (hs : ∀ line ∈ Text.lines s, Dump.IsBrace line) :
    Dump.parseWith files o (t ++ '\n' :: s) = Dump.parseWith files o t ∧
      Listing.parse (code ++ List.replicate k '\x7d') = Listing.parse code := by
  refine ⟨Dump.readLines_closes (Dump.closes_rawLines t hs), ?_⟩
  rw [Listing.parse, Listing.tokens_replicate, Listing.readTokens_replicate, ← Listing.parse]

/-- Two blocks are open behind the last line, which has no line end; one brace more than needed is
added, with margins of several kinds. -/
theorem closing_braces_idle_nested :
    (∀ line ∈ Text.lines "\x7d\r\n\t\x7d \n\x7d".toList, Dump.IsBrace line) ∧
      ∀ files,
        Dump.parseWith files {} ("A\x7b\nB~\x7b\nx=<<".toList ++
          '\n' :: "\x7d\r\n\t\x7d \n\x7d".toList) =
          Dump.parseWith files {} "A\x7b\nB~\x7b\nx=<<".toList ∧
        Listing.parse ("a\x7bb\x7bc".toList ++ List.replicate 3 '\x7d') =
          Listing.parse "a\x7bb\x7bc".toList := by
  have hs : ∀ line ∈ Text.lines "\x7d\r\n\t\x7d \n\x7d".toList, Dump.IsBrace line := by decide
  exact ⟨hs, fun files => closing_braces_idle files {} _ _ _ 3 hs⟩

end BlockDoc
