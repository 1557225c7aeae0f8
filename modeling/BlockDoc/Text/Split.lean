/-
# Cutting texts

A text is cut into lines after every line feed, and the line feeds stay: nothing is lost.
Inside a line, the parts before and after a mark are told apart by its first occurrence.  A text
can also be cut at a byte of its encoding, if a character ends there.
-/

namespace BlockDoc.Text

/-- The pieces of a sequence, each up to and including an element that satisfies `p`; what is
behind the last such element is a piece of its own, unless it is empty. -/
def cutAfter {α : Type} (p : α → Bool) (xs : List α) : List (List α) :=
  xs.foldr (fun x pieces =>
    if p x then [x] :: pieces
    else match pieces with
      | [] => [[x]]
      | piece :: rest => (x :: piece) :: rest) []

/-- The lines of a text, each with the line feed that ends it; a text that ends in a line feed
has no further line after it. -/
def lines (cs : List Char) : List (List Char) := cutAfter (· == '\n') cs

/-- The text before and after the first occurrence of `sep`. -/
def splitOnce? (sep : Char) : List Char → Option (List Char × List Char)
  | [] => none
  | c :: cs =>
    if c = sep then some ([], cs)
    else (splitOnce? sep cs).map fun (before, after) => (c :: before, after)

/-- The text before the first occurrence of `mark`. -/
def before? (mark : List Char) : List Char → Option (List Char)
  | [] => if mark = [] then some [] else none
  | c :: cs =>
    if mark.isPrefixOf (c :: cs) then some [] else (before? mark cs).map (c :: ·)

/-- The characters that the first `n` bytes of a text in UTF-8 encode.  There are none if these bytes
end inside a character, or if the text is shorter. -/
def takeBytes? : Nat → List Char → Option (List Char)
  | 0, _ => some []
  | _ + 1, [] => none
  | n + 1, c :: cs =>
    if c.utf8Size ≤ n + 1 then (takeBytes? (n + 1 - c.utf8Size) cs).map (c :: ·) else none

@[simp] theorem cutAfter_nil {α : Type} (p : α → Bool) : cutAfter p [] = [] := rfl

theorem cutAfter_cons {α : Type} (p : α → Bool) (x : α) (xs : List α) :
    cutAfter p (x :: xs) =
      if p x then [x] :: cutAfter p xs
      else match cutAfter p xs with
        | [] => [[x]]
        | piece :: rest => (x :: piece) :: rest := rfl

/-- Nothing is lost or changed. -/
theorem flatten_cutAfter {α : Type} (p : α → Bool) (xs : List α) :
    (cutAfter p xs).flatten = xs := by
  induction xs with
  | nil => rfl
  | cons x xs ih =>
    rw [cutAfter_cons]
    split
    next => simp [ih]
    next =>
      split
      next hl => rw [hl] at ih; simp at ih; simp [← ih]
      next piece rest hl => rw [hl] at ih; simp at ih; simp [← ih]

/-- No line is lost or changed. -/
theorem flatten_lines (cs : List Char) : (lines cs).flatten = cs := flatten_cutAfter _ cs

end BlockDoc.Text
