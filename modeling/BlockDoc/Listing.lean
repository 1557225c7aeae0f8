/-
# Code listings

A listing is text that is structured by braces.  Every line with something on it becomes a
parameter, and every pair of braces a block.  Both are named by their position among their
neighbours, counted from zero, and no block is sorted, so a listing keeps its order.

A closing brace without an open block is passed over, and blocks that are open at the end are
closed there.
-/
import BlockDoc.Document.Basic
import BlockDoc.Error
import BlockDoc.Text.Blank

namespace BlockDoc.Listing

/-- A part of a listing. -/
inductive Token where
  /-- A line with something on it, without the white space around it. -/
  | line (text : List Char)
  /-- An opening brace. -/
  | opening
  /-- A closing brace. -/
  | closing
  deriving DecidableEq

/-- The lines with something on them in a text without braces. -/
def lineTokens (segment : List Char) : List Token :=
  ((segment.splitOn '\n').map (Text.trim Text.isSpace)).filterMap fun line =>
    if line = [] then none else some (.line line)

/-- The parts of a listing, behind the last brace and `segment`, the latter in reverse. -/
def scan (segment : List Char) : List Char → List Token
  | [] => lineTokens segment.reverse
  | c :: cs =>
    if c = '\x7b' then lineTokens segment.reverse ++ .opening :: scan [] cs
    else if c = '\x7d' then lineTokens segment.reverse ++ .closing :: scan [] cs
    else scan (c :: segment) cs

/-- The parts of a listing. -/
def tokens (code : List Char) : List Token := scan [] code

/-- A document that grows by positions. -/
structure Block where
  /-- What was collected so far. -/
  document : Document
  /-- The next position. -/
  next : Nat

namespace Block

/-- A block without entries. -/
def start : Block := ⟨.empty false, 0⟩

/-- Put a value at the next position. -/
def add (b : Block) (v : Value) : Block := ⟨b.document.set (toString b.next) v, b.next + 1⟩

/-- Close a block and all blocks around it. -/
def closeAll (top : Block) : List Block → Document
  | [] => top.document
  | outer :: rest => closeAll (outer.add (.block top.document)) rest

end Block

/-- Read on inside `top`, with the blocks around it on the stack. -/
def readTokens (limit : Nat) (top : Block) (stack : List Block) :
    List Token → Except Error Document
  | [] => .ok (top.closeAll stack)
  | .line text :: rest => readTokens limit (top.add (.param (String.ofList text))) stack rest
  | .opening :: rest =>
    if stack.length + 1 ≥ limit then .error (.nestingTooDeep limit)
    else readTokens limit .start (top :: stack) rest
  | .closing :: rest => match stack with
    | [] => readTokens limit top [] rest
    | outer :: stack => readTokens limit (outer.add (.block top.document)) stack rest

/-- Read a listing. -/
def parse (code : List Char) : Except Error Document :=
  readTokens maxDepth .start [] (tokens code)

end BlockDoc.Listing
