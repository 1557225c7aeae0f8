/-
# Paths

A path is a text in which slashes separate names.  Repeated slashes, names `.` inside a path and
a slash at its end carry no meaning of their own; a slash at the front does, and so does a name
`.` at the front of a relative path, and so does `..` anywhere.
-/
import BlockDoc.Text.Blank

namespace BlockDoc.Path

/-- The part of a path that is no list of names (a slash or a dot at the front) and the texts
between the slashes behind it. -/
def parts (path : String) : List Char × List (List Char) :=
  match path.toList with
  | '/' :: body => (['/'], body.splitOn '/')
  | ['.'] => (['.'], [])
  | '.' :: '/' :: body => (['.'], [] :: body.splitOn '/')
  | body => ([], body.splitOn '/')

/-- Whether a text between slashes is no name. -/
def isFiller (part : List Char) : Bool := part == [] || part == ['.']

/-- The texts between slashes without the meaningless ones at the end. -/
def trimParts (ps : List (List Char)) : List (List Char) :=
  (ps.reverse.dropWhile isFiller).reverse

/-- What tells paths apart: the front and the names. -/
def key (path : String) : List Char × List (List Char) :=
  let (front, ps) := parts path
  (front, ps.filter fun part => !isFiller part)

/-- Whether two paths are the same but for meaningless parts. -/
def same (a b : String) : Bool := key a == key b

/-- Whether a path starts at the root of the file system. -/
def isAbsolute (path : String) : Bool := path.toList.head? == some '/'

/-- The path without its last name. -/
def parent? (path : String) : Option String :=
  let (front, ps) := parts path
  match trimParts ps with
  | [] => if front = ['.'] then some "" else none
  | p :: ps =>
    some (String.ofList (front ++ ['/'].intercalate (trimParts (p :: ps).dropLast)))

/-- A path taken from a directory.  An absolute path forgets the directory. -/
def join (dir path : String) : String :=
  if isAbsolute path then path
  else if dir = "" || dir.toList.getLast? == some '/' then dir ++ path
  else dir ++ "/" ++ path

end BlockDoc.Path
