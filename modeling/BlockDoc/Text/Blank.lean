/-
# White space

Three kinds of white space matter.  Paths, labels and code lines are trimmed of every character
with the property White_Space.  A dump line is trimmed of tabs, line ends and plain spaces
where it is told apart by its first characters, and of tabs and plain spaces at its end.
-/

namespace BlockDoc.Text

/-- Characters with the property White_Space. -/
def isSpace (c : Char) : Bool :=
  let n := c.toNat
  (0x09 ≤ n && n ≤ 0x0d) || n == 0x20 || n == 0x85 || n == 0xa0 || n == 0x1680 ||
    (0x2000 ≤ n && n ≤ 0x200a) || n == 0x2028 || n == 0x2029 || n == 0x202f || n == 0x205f ||
    n == 0x3000

/-- Tab, line feed, carriage return and space. -/
def isMargin (c : Char) : Bool := c == '\t' || c == '\n' || c == '\r' || c == ' '

/-- Tab and space. -/
def isBlank (c : Char) : Bool := c == '\t' || c == ' '

/-- Drop what satisfies `p` from the end. -/
def trimEnd (p : Char → Bool) (cs : List Char) : List Char := (cs.reverse.dropWhile p).reverse

/-- Drop what satisfies `p` from both ends. -/
def trim (p : Char → Bool) (cs : List Char) : List Char := trimEnd p (cs.dropWhile p)

/-- A string without the white space around it. -/
def trimmed (s : String) : String := String.ofList (trim isSpace s.toList)

end BlockDoc.Text
