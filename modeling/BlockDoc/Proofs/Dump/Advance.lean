/-
# What a line does

Reading goes from line to line, and between two lines nothing is known but the open document, the
blocks around it and the number of the line.  A line that says something changes the first two
(`advance`); it may include another dump, whose reading is a computation of its own.  Only a value
on lines of its own takes more lines than the one that asks for it.

So reading is one step and then the rest (`readLines_line`, `readLines_value`), and a law about all
the ways to go on from a line is proved for `advance` once, whatever the line says.
-/
import BlockDoc.Dump.Reader
import Mathlib.Tactic.Conv

namespace BlockDoc.Dump

variable {files : FileReader} {charset : Charset} {limit number : Nat} {baseDir? : Option String}
  {line : List Char} {rest : List RawLine} {top : Document} {stack : List OpenBlock}

/-- Whether the value of a line stands on the lines behind it. -/
def Line.opensValue : Line → Bool
  | .heredoc _ => true
  | _ => false

theorem Line.exists_heredoc {l : Line} (h : l.opensValue = true) : ∃ name, l = .heredoc name := by
  cases l with
  | heredoc name => exact ⟨name, rfl⟩
  | _ => cases h

/-- What a block starts with: nothing, or what is in another dump. -/
def contentOf (files : FileReader) (charset : Charset) (limit : Nat) (baseDir? : Option String)
    (sorted : Bool) : Option (List Char) → Except Error Document
  | none => .ok (.empty sorted)
  | some path => do
    let (text, dir?) ← openFile files charset (resolve baseDir? (String.ofList path))
    let included ← readLines files charset limit dir? 0 (rawLines text) (.empty true) []
    .ok (included.setSorted sorted)

/-- What a line makes of the open document and the blocks around it.  The first line of a value on
lines of its own leaves them as they are. -/
def advance (files : FileReader) (charset : Charset) (limit : Nat) (baseDir? : Option String)
    (top : Document) (stack : List OpenBlock) :
    Line → Except Error (Document × List OpenBlock)
  | .opening name sorted path? =>
    if stack.length + 1 ≥ limit then .error (.nestingTooDeep limit)
    else do
      let content ← contentOf files charset (limit - (stack.length + 1)) baseDir? sorted path?
      .ok (content, ⟨top, String.ofList name⟩ :: stack)
  | .closing => match stack with
    | [] => .ok (top, [])
    | b :: outer => .ok (b.outer.set b.name (.block top), outer)
  | .param name value => .ok (top.set (String.ofList name) (.param (String.ofList value)), stack)
  | .heredoc _ => .ok (top, stack)
  | .noise => .ok (top, stack)

/-- **A line does what it says**, and the lines behind it are read. -/
theorem readLines_line (h : (Line.ofChars line).opensValue = false) :
    readLines files charset limit baseDir? number (some line :: rest) top stack =
      (advance files charset limit baseDir? top stack (Line.ofChars line) >>= fun s =>
        readLines files charset limit baseDir? (number + 1) rest s.1 s.2) := by
  conv_lhs => rw [readLines.eq_def]
  dsimp only
  cases hline : Line.ofChars line with
  | opening name sorted path? =>
    dsimp only [advance]
    by_cases hlevel : stack.length + 1 ≥ limit
    · rw [dif_pos hlevel, if_pos hlevel]
      rfl
    · rw [dif_neg hlevel, if_neg hlevel]
      cases path? with
      | none => rfl
      | some path =>
        dsimp only [contentOf]
        cases openFile files charset (resolve baseDir? (String.ofList path)) with
        | error e => rfl
        | ok opened =>
          simp only [ok_bind]
          cases readLines files charset (limit - (stack.length + 1)) opened.2 0
              (rawLines opened.1) (.empty true) [] <;> rfl
  | closing => cases stack <;> rfl
  | param name value => rfl
  | heredoc name =>
    rw [hline] at h
    cases h
  | noise => rfl

/-- **A value on lines of its own** is collected, and the lines behind it are read. -/
theorem readLines_value {name : List Char} (h : Line.ofChars line = .heredoc name) :
    readLines files charset limit baseDir? number (some line :: rest) top stack =
      (takeBody (number + 1) rest >>= fun r =>
        readLines files charset limit baseDir? (number + 1 + r.1.length + 1) r.2
          (top.set (String.ofList name)
            (.param (String.ofList (heredocValue stack.length r.1)))) stack) := by
  conv_lhs => rw [readLines.eq_def]
  simp only [h]
  split
  next e he => rw [he]; rfl
  next body rest' he => rw [he]; rfl

end BlockDoc.Dump
