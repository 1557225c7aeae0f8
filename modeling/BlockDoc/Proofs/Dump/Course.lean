/-
# The course of reading

A value on lines of its own takes several lines at once, so the reader cannot be stopped behind any
line.  Here it is taken apart further: between two lines it knows the open document, the blocks
around it, how many lines there were, and, inside of a value, the lines of it so far (`Progress`).
Every line takes one such state to the next or fails (`Progress.feed`).  What is left for the end
of the text is to close what is open, and to refuse a value without an end (`Progress.finish`).

* Reading is to feed the lines in turn and to finish (`readLines_feed`).  So of two texts, one
  behind the other, both are read in turn (`parseWith_append`, `parseWith_behind`).
* Where a line stands, how many blocks are open before it and whether it belongs to a value, is told
  from the lines before it alone (`Standing`).  The reader agrees with that until it fails
  (`Progress.standing_feed`, `standing_readUpTo`), whatever it reads and wherever that comes from.
-/
import BlockDoc.Proofs.Dump.Advance
import BlockDoc.Proofs.Dump.Heredoc

namespace BlockDoc.Dump

/-! ## 1. Where a line stands -/

/-- Where a line stands among the lines of a dump. -/
structure Standing where
  /-- How many blocks are open before the line. -/
  level : Nat
  /-- Whether the line belongs to a value on lines of its own, or ends it. -/
  inside : Bool
  deriving DecidableEq

/-- Where the line behind a line stands. -/
def Standing.next (s : Standing) (line : List Char) : Standing :=
  if s.inside then ⟨s.level, !isTerminator line⟩
  else match Line.ofChars line with
    | .opening _ _ _ => ⟨s.level + 1, false⟩
    | .closing => ⟨s.level - 1, false⟩
    | .heredoc _ => ⟨s.level, true⟩
    | .param _ _ => ⟨s.level, false⟩
    | .noise => ⟨s.level, false⟩

/-- Where the line behind some lines stands. -/
def standing (lines : List (List Char)) : Standing := lines.foldl Standing.next ⟨0, false⟩

/-! ## 2. One line after the other -/

/-- A value whose end was not seen yet. -/
structure OpenValue where
  /-- The name of the parameter. -/
  name : List Char
  /-- The number of the line that asks for the value. -/
  start : Nat
  /-- The lines of the value so far. -/
  body : List (List Char)

/-- What the reader knows between two lines. -/
structure Progress where
  /-- How many lines there were. -/
  number : Nat
  /-- The document that is open. -/
  top : Document
  /-- The documents around it. -/
  stack : List OpenBlock
  /-- The value that is open, inside of one. -/
  value? : Option OpenValue

/-- The name on the first line of a value on lines of its own. -/
def Line.valueName? : Line → Option (List Char)
  | .heredoc name => some name
  | _ => none

theorem Line.valueName?_eq_none {l : Line} (h : l.opensValue = false) : l.valueName? = none := by
  cases l with
  | heredoc name => cases h
  | _ => rfl

/-- A line of a value is kept, or ends it. -/
def Progress.collect (p : Progress) (v : OpenValue) (line : List Char) : Progress :=
  if isTerminator line then
    { p with
      number := p.number + 1
      top := p.top.set (String.ofList v.name)
        (.param (String.ofList (heredocValue p.stack.length v.body)))
      value? := none }
  else { p with number := p.number + 1, value? := some { v with body := v.body ++ [line] } }

/-- Read one line. -/
def Progress.feed (files : FileReader) (charset : Charset) (limit : Nat) (baseDir? : Option String)
    (p : Progress) (line : List Char) : Except Error Progress :=
  match p.value? with
  | some v => .ok (p.collect v line)
  | none => do
    let s ← advance files charset limit baseDir? p.top p.stack (Line.ofChars line)
    .ok ⟨p.number + 1, s.1, s.2,
      (Line.ofChars line).valueName?.map fun name => ⟨name, p.number + 1, []⟩⟩

/-- The text is at its end. -/
def Progress.finish (p : Progress) : Except Error Document :=
  match p.value? with
  | some v => .error (.unterminatedHeredoc v.start)
  | none => .ok (closeAll p.top p.stack)

/-- Read some lines in turn. -/
def Progress.feedAll (files : FileReader) (charset : Charset) (limit : Nat)
    (baseDir? : Option String) (p : Progress) (lines : List (List Char)) : Except Error Progress :=
  lines.foldlM (Progress.feed files charset limit baseDir?) p

variable {files : FileReader} {charset : Charset} {limit number : Nat} {baseDir? : Option String}
  {top : Document} {stack : List OpenBlock} {line : List Char} {lines rest : List (List Char)}
  {p q : Progress}

@[simp] theorem Progress.feedAll_nil :
    p.feedAll files charset limit baseDir? [] = .ok p := rfl

theorem Progress.feedAll_cons : p.feedAll files charset limit baseDir? (line :: lines) =
    (p.feed files charset limit baseDir? line >>= fun q =>
      q.feedAll files charset limit baseDir? lines) := List.foldlM_cons

theorem Progress.feedAll_append : p.feedAll files charset limit baseDir? (lines ++ rest) =
    (p.feedAll files charset limit baseDir? lines >>= fun q =>
      q.feedAll files charset limit baseDir? rest) := List.foldlM_append

theorem Progress.feedAll_concat : p.feedAll files charset limit baseDir? (lines ++ [line]) =
    (p.feedAll files charset limit baseDir? lines >>= fun q =>
      q.feed files charset limit baseDir? line) := by
  rw [feedAll_append]
  refine bind_congr fun q => ?_
  rw [feedAll_cons]
  exact bind_pure _

/-- Between lines a line does what it says. -/
theorem Progress.feed_outside (hp : p.value? = none) :
    p.feed files charset limit baseDir? line =
      (advance files charset limit baseDir? p.top p.stack (Line.ofChars line) >>= fun s =>
        .ok ⟨p.number + 1, s.1, s.2,
          (Line.ofChars line).valueName?.map fun name => ⟨name, p.number + 1, []⟩⟩) := by
  rw [feed, hp]

/-- Inside of a value a line belongs to it, or ends it. -/
theorem Progress.feed_inside {v : OpenValue} (hp : p.value? = some v) :
    p.feed files charset limit baseDir? line = .ok (p.collect v line) := by
  rw [feed, hp]

/-- The lines of a value are kept. -/
theorem Progress.feedAll_body {v : OpenValue} {body : List (List Char)}
    (hbody : ∀ line ∈ body, isTerminator line = false) :
    feedAll files charset limit baseDir? ⟨number, top, stack, some v⟩ body =
      .ok ⟨number + body.length, top, stack, some { v with body := v.body ++ body }⟩ := by
  induction body generalizing number v with
  | nil => rw [feedAll_nil, List.append_nil]; rfl
  | cons line body ih =>
    obtain ⟨hline, hbody⟩ := List.forall_mem_cons.mp hbody
    rw [feedAll_cons, feed_inside rfl, ok_bind, collect, hline, if_neg Bool.false_ne_true, ih hbody,
      List.append_assoc, List.singleton_append, List.length_cons, Nat.add_assoc,
      Nat.add_comm 1 body.length]

/-- **A value on lines of its own**, from the line that asks for it to the line that ends it. -/
theorem Progress.feedAll_value {name last : List Char} {body : List (List Char)}
    (hline : Line.ofChars line = .heredoc name) (hbody : ∀ line ∈ body, isTerminator line = false)
    (hlast : isTerminator last = true) :
    feedAll files charset limit baseDir? ⟨number, top, stack, none⟩ (line :: (body ++ [last])) =
      .ok ⟨number + 1 + body.length + 1,
        top.set (String.ofList name) (.param (String.ofList (heredocValue stack.length body))),
        stack, none⟩ := by
  rw [feedAll_cons, feed_outside rfl, hline]
  simp only [advance, ok_bind, Line.valueName?, Option.map_some]
  rw [feedAll_append, feedAll_body hbody, ok_bind, feedAll_cons, feed_inside rfl, ok_bind,
    feedAll_nil, collect, if_pos hlast, List.nil_append]

/-- Some lines end a value, or none of them does. -/
theorem terminator_cases (lines : List (List Char)) :
    (∀ line ∈ lines, isTerminator line = false) ∨
    ∃ body last rest, lines = body ++ last :: rest ∧ (∀ line ∈ body, isTerminator line = false) ∧
      isTerminator last = true := by
  cases hfind : lines.find? isTerminator with
  | none =>
    left
    intro line hline
    exact Bool.eq_false_iff.mpr (List.find?_eq_none.mp hfind line hline)
  | some last =>
    right
    obtain ⟨hlast, body, rest, hlines, hbody⟩ := List.find?_eq_some_iff_append.mp hfind
    exact ⟨body, last, rest, hlines, fun line hline => by simpa using hbody line hline, hlast⟩

/-- **Reading is to feed the lines in turn and to finish.** -/
theorem readLines_feed (lines : List (List Char)) :
    readLines files charset limit baseDir? number (lines.map some) top stack =
      (Progress.feedAll files charset limit baseDir? ⟨number, top, stack, none⟩ lines >>=
        Progress.finish) := by
  induction hn : lines.length using Nat.strong_induction_on
    generalizing lines number top stack with
  | _ n ih =>
    cases lines with
    | nil =>
      rw [List.map_nil, readLines.eq_def]
      rfl
    | cons line lines =>
      cases hopens : (Line.ofChars line).opensValue with
      | false =>
        rw [List.map_cons, readLines_line hopens, Progress.feedAll_cons, Progress.feed_outside rfl,
          Line.valueName?_eq_none hopens]
        simp only [bind_assoc, ok_bind, Option.map_none]
        refine bind_congr fun s => ?_
        exact ih lines.length (by rw [← hn]; simp) lines rfl
      | true =>
        obtain ⟨name, hname⟩ := Line.exists_heredoc hopens
        rw [List.map_cons, readLines_value hname]
        rcases terminator_cases lines with hbody | ⟨body, last, rest, rfl, hbody, hlast⟩
        · -- the value has no end, and fails at the end of the text
          rw [takeBody_unended hbody, Progress.feedAll_cons, Progress.feed_outside rfl, hname]
          simp only [advance, ok_bind, Line.valueName?, Option.map_some]
          rw [Progress.feedAll_body hbody]
          rfl
        · -- the lines behind the value are read as if there were no others
          have hvalue : Progress.feedAll files charset limit baseDir? ⟨number, top, stack, none⟩
              (line :: (body ++ [last])) = .ok _ := Progress.feedAll_value hname hbody hlast
          have hlines : line :: (body ++ last :: rest) = line :: (body ++ [last]) ++ rest := by simp
          rw [List.map_append, List.map_cons, takeBody_append hbody hlast, ok_bind, hlines,
            Progress.feedAll_append, hvalue, ok_bind]
          exact ih rest.length (by rw [← hn]; simp; omega) rest rfl

/-! ## 3. Where the reader stands -/

/-- Where the next line stands, as the reader knows it. -/
def Progress.standing (p : Progress) : Standing := ⟨p.stack.length, p.value?.isSome⟩

theorem Progress.stack_eq_nil (h : p.standing.level = 0) : p.stack = [] :=
  List.length_eq_zero_iff.mp h

theorem Progress.value?_eq_none (h : p.standing.inside = false) : p.value? = none :=
  Option.isNone_iff_eq_none.mp (Option.isSome_eq_false_iff.mp h)

/-- **A line that is read leads where it says.** -/
theorem Progress.standing_feed (h : p.feed files charset limit baseDir? line = .ok q) :
    q.standing = p.standing.next line := by
  cases hp : p.value? with
  | some v =>
    rw [feed_inside hp] at h
    cases h
    rw [Standing.next, standing, standing, hp, collect]
    cases hline : isTerminator line <;> rfl
  | none =>
    rw [feed_outside hp] at h
    obtain ⟨s, hs, h⟩ := bind_eq_ok.1 h
    cases h
    rw [Standing.next, standing, standing, hp]
    cases hline : Line.ofChars line with
    | opening name sorted path? =>
      rw [hline, advance] at hs
      split at hs
      next => cases hs
      next =>
        obtain ⟨content, -, hs⟩ := bind_eq_ok.1 hs
        cases hs
        rfl
    | closing =>
      rw [hline] at hs
      cases hstack : p.stack with
      | nil =>
        rw [hstack] at hs
        cases hs
        rfl
      | cons b outer =>
        rw [hstack] at hs
        cases hs
        rfl
    | param name value =>
      rw [hline] at hs
      cases hs
      rfl
    | heredoc name =>
      rw [hline] at hs
      cases hs
      rfl
    | noise =>
      rw [hline] at hs
      cases hs
      rfl

/-- **Lines that are read lead where they say.** -/
theorem Progress.standing_feedAll (h : p.feedAll files charset limit baseDir? lines = .ok q) :
    q.standing = lines.foldl Standing.next p.standing := by
  induction lines generalizing p with
  | nil =>
    cases h
    rfl
  | cons line lines ih =>
    rw [feedAll_cons] at h
    obtain ⟨p', hp', h⟩ := bind_eq_ok.1 h
    rw [ih h, standing_feed hp', List.foldl_cons]

theorem Progress.number_feed (h : p.feed files charset limit baseDir? line = .ok q) :
    q.number = p.number + 1 := by
  cases hp : p.value? with
  | some v =>
    rw [feed_inside hp] at h
    cases h
    unfold collect
    split <;> rfl
  | none =>
    rw [feed_outside hp] at h
    obtain ⟨s, -, h⟩ := bind_eq_ok.1 h
    cases h
    rfl

/-- All lines are counted. -/
theorem Progress.number_feedAll (h : p.feedAll files charset limit baseDir? lines = .ok q) :
    q.number = p.number + lines.length := by
  induction lines generalizing p with
  | nil =>
    cases h
    rfl
  | cons line lines ih =>
    rw [feedAll_cons] at h
    obtain ⟨p', hp', h⟩ := bind_eq_ok.1 h
    rw [ih h, number_feed hp', List.length_cons]
    omega

/-! ## 4. Texts -/

/-- What is behind a text begins with a line of its own. -/
def EndsLine (t : List Char) : Prop := ∀ c ∈ t.getLast?, c = '\n'

instance : DecidablePred EndsLine := fun t =>
  decidable_of_iff (t.getLast?.all (· == '\n') = true) (by
    rw [EndsLine]
    cases t.getLast? <;> simp)

/-- The reader before the first line. -/
def Progress.start : Progress := ⟨0, .empty true, [], none⟩

/-- Read a text as far as it goes, and keep open what is open. -/
def readUpTo (files : FileReader) (o : Options) (t : List Char) : Except Error Progress :=
  Progress.start.feedAll files o.charset o.limit o.baseDir? (Text.lines t)

variable {o : Options} {t s : List Char} {d : Document}

theorem parseWith_eq_finish : parseWith files o t = (readUpTo files o t >>= Progress.finish) :=
  readLines_feed _

/-- **A text with another one behind it** is read up to there, and then on. -/
theorem parseWith_append (ht : EndsLine t) : parseWith files o (t ++ s) =
    (readUpTo files o t >>= fun p =>
      p.feedAll files o.charset o.limit o.baseDir? (Text.lines s) >>= Progress.finish) := by
  rw [parseWith_eq_finish, readUpTo, Text.lines_append_lines ht, Progress.feedAll_append,
    bind_assoc, ← readUpTo]

/-- Where the reader stands behind a text. -/
theorem standing_readUpTo (h : readUpTo files o t = .ok p) :
    p.standing = standing (Text.lines t) := Progress.standing_feedAll h

theorem number_readUpTo (h : readUpTo files o t = .ok p) :
    p.number = (Text.lines t).length := by
  rw [Progress.number_feedAll h]
  exact Nat.zero_add _

theorem Progress.finish_eq_ok : p.finish = .ok d ↔ p.value? = none ∧ closeAll p.top p.stack = d := by
  unfold finish
  cases p.value? with
  | none => simp
  | some v => simp

/-- **A text is read if and only if** all its lines are and no value is open behind them. -/
theorem parseWith_eq_ok : parseWith files o t = .ok d ↔
    ∃ p, readUpTo files o t = .ok p ∧ p.value? = none ∧ closeAll p.top p.stack = d := by
  rw [parseWith_eq_finish, bind_eq_ok]
  simp only [Progress.finish_eq_ok]

/-- **Behind a text that is read** the reader goes on with what is open there. -/
theorem parseWith_behind (ht : EndsLine t) (hd : parseWith files o t = .ok d) :
    ∃ number top stack, stack.length = (standing (Text.lines t)).level ∧
      ∀ s, parseWith files o (t ++ s) =
        readLines files o.charset o.limit o.baseDir? number (rawLines s) top stack := by
  obtain ⟨p, hp, hnone, -⟩ := parseWith_eq_ok.mp hd
  refine ⟨p.number, p.top, p.stack, congrArg Standing.level (standing_readUpTo hp), fun s => ?_⟩
  have hbetween : p = ⟨p.number, p.top, p.stack, none⟩ := by rw [← hnone]
  rw [parseWith_append ht, hp, ok_bind, rawLines, readLines_feed, ← hbetween]

end BlockDoc.Dump
