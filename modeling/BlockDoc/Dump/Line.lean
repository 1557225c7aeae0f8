/-
# The lines of a text dump

    Ship^{                      // `^` sorted block, `~` unsorted block, sorted by default
        Name=Rigel
        Hull=hulls/heavy.txt{   // a block that starts with the content of another dump
        }
        Info=<<<
        First line
        Second line
        >>>
    }

A line is told by its form, after the margins and a comment are cut off: one that ends in an
opening brace starts a block, one that starts with a closing brace ends it, one with an equals
sign holds a parameter, and anything else means nothing.  A parameter whose value begins with
`<<<` takes its value from the lines that follow.
-/
import BlockDoc.Text.Blank
import BlockDoc.Text.Split

namespace BlockDoc.Dump

/-- What a line of a dump says. -/
inductive Line where
  /-- A block starts, with the content of another dump if a path is given. -/
  | opening (name : List Char) (sorted : Bool) (path? : Option (List Char))
  /-- A block ends. -/
  | closing
  /-- A parameter with its value. -/
  | param (name value : List Char)
  /-- A parameter whose value stands on the lines that follow. -/
  | heredoc (name : List Char)
  /-- Nothing. -/
  | noise
  deriving DecidableEq

/-- A line without its margins and without a comment. -/
def bare (line : List Char) : List Char :=
  let line := Text.trim Text.isMargin line
  match Text.before? ['/', '/'] line with
  | some content => Text.trimEnd Text.isBlank content
  | none => line

/-- The head of a block without the mark of its order, and whether the block is sorted. -/
def orderMark (head : List Char) : List Char × Bool :=
  match head.getLast? with
  | some '^' => (Text.trimEnd Text.isBlank head.dropLast, true)
  | some '~' => (Text.trimEnd Text.isBlank head.dropLast, false)
  | _ => (head, true)

/-- The line that starts a block, from what stands in front of the brace. -/
def openingOf (head : List Char) : Line :=
  let (head, sorted) := orderMark (Text.trimEnd Text.isBlank head)
  match Text.splitOnce? '=' head with
  | none => .opening head sorted none
  | some (name, path) =>
    let path := path.dropWhile Text.isBlank
    .opening (Text.trimEnd Text.isBlank name) sorted (if path = [] then none else some path)

/-- What a line says, its margins and its comment cut off. -/
def classify (line : List Char) : Line :=
  if line.getLast? = some '{' then openingOf line.dropLast
  else if line.head? = some '}' then .closing
  else match Text.splitOnce? '=' line with
    | none => .noise
    | some (name, value) =>
      let name := Text.trimEnd Text.isBlank name
      let value := value.dropWhile Text.isBlank
      if ['<', '<', '<'].isPrefixOf value then .heredoc name else .param name value

/-- What a line says. -/
def Line.ofChars (line : List Char) : Line := classify (bare line)

/-! ## Values on lines of their own -/

/-- Whether a line ends a value on lines of its own. -/
def isTerminator (line : List Char) : Bool := Text.trim Text.isMargin line == ['>', '>', '>']

/-- The number of spaces at the front. -/
def leadingSpaces (line : List Char) : Nat := (line.takeWhile (· == ' ')).length

/-- The width of indentation at a level of nesting. -/
def indentWidth (level : Nat) : Nat := 4 * level

/-- How many spaces are taken off the lines of a value at a level of nesting: as many as the
first line with a mark on it has, but no more than the level calls for. -/
def commonIndent (level : Nat) (body : List (List Char)) : Nat :=
  match body.find? fun line => Text.trim Text.isMargin line ≠ [] with
  | some line => min (leadingSpaces line) (indentWidth level)
  | none => indentWidth level

/-- A text without the line end behind it. -/
def chomp (cs : List Char) : List Char :=
  match cs.reverse with
  | '\n' :: '\r' :: rest => rest.reverse
  | '\n' :: rest => rest.reverse
  | _ => cs

/-- The value that some lines at a level of nesting hold. -/
def heredocValue (level : Nat) (body : List (List Char)) : List Char :=
  let spaces := commonIndent level body
  chomp (body.flatMap fun line => line.drop (min (leadingSpaces line) spaces))

end BlockDoc.Dump
