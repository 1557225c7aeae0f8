/-
# Reading a text dump

The reader goes through the lines once.  It keeps the document that is open at the moment and
a stack of the documents around it.  A block that is still open at the end is closed there, and
a closing brace without a block is passed over.

A block may start with the content of another dump.  That dump is read as a document of its
own, and what is left of the nesting limit is its limit.  The limit is smaller by one at least,
so dumps that include each other come to an end.

Files come in as a function from paths to contents, so that reading stays a function of what
is in the files.
-/
import BlockDoc.Charset.Basic
import BlockDoc.Document.Basic
import BlockDoc.Dump.Line
import BlockDoc.Files.Path
import BlockDoc.Files.Reader
import BlockDoc.Outcome

namespace BlockDoc.Dump

/-- How a dump is read. -/
structure Options where
  /-- The character set of the files. -/
  charset : Charset := .windows1251
  /-- The directory that relative paths in the dump start from. -/
  baseDir? : Option String := none
  /-- The nesting limit, included dumps counted. -/
  limit : Nat := maxDepth

/-- A line as it was found, line end included; `none` if it is not well-formed. -/
abbrev RawLine := Option (List Char)

/-- A block that is still open: the document around it and the name it will have there. -/
structure OpenBlock where
  /-- The document around the block. -/
  outer : Document
  /-- The name of the block. -/
  name : String

/-- Close all open blocks. -/
def closeAll (top : Document) : List OpenBlock → Document
  | [] => top
  | b :: rest => closeAll (b.outer.set b.name (.block top)) rest

/-- Split off the lines up to a terminator.  `start` is the number of the line that asked for
them. -/
def takeBody (start : Nat) : List RawLine → Except Error (List (List Char) × List RawLine)
  | [] => .error (.unterminatedHeredoc start)
  | none :: _ => .error (.io .malformedText)
  | some line :: rest =>
    if isTerminator line then .ok ([], rest)
    else do
      let (body, rest) ← takeBody start rest
      .ok (line :: body, rest)

theorem length_of_takeBody {start : Nat} {lines rest : List RawLine} {body : List (List Char)}
    (h : takeBody start lines = .ok (body, rest)) :
    rest.length + body.length + 1 = lines.length := by
  induction lines generalizing body with
  | nil => simp [takeBody] at h
  | cons l ls ih =>
    cases l with
    | none => simp [takeBody] at h
    | some line =>
      rw [takeBody] at h
      split at h
      · obtain ⟨rfl, rfl⟩ : [] = body ∧ ls = rest := by simpa using h
        simp
      · obtain ⟨⟨body', rest'⟩, hb, h⟩ := bind_eq_ok.1 h
        obtain ⟨rfl, rfl⟩ : line :: body' = body ∧ rest' = rest := by simpa using h
        have := ih hb
        simp
        omega

/-- Read the text of a dump from a file, with the directory that its own paths start from. -/
def openFile (files : FileReader) (charset : Charset) (path : String) :
    Except Error (List Char × Option String) :=
  match files path with
  | .error e => .error (.io e)
  | .ok bytes => match charset.decode? bytes with
    | none => .error (.charset (.malformedFile path charset.name))
    | some text => .ok (text, Path.parent? path)

/-- Where a path in a dump leads. -/
def resolve (baseDir? : Option String) (path : String) : String :=
  match baseDir? with
  | none => path
  | some dir => Path.join dir path

/-- The lines of a text. -/
def rawLines (text : List Char) : List RawLine := (Text.lines text).map some

/-- Read on inside `top`, with the blocks around it on the stack, after `number` lines. -/
def readLines (files : FileReader) (charset : Charset) (limit : Nat) (baseDir? : Option String)
    (number : Nat) (lines : List RawLine) (top : Document) (stack : List OpenBlock) :
    Except Error Document :=
  match lines with
  | [] => .ok (closeAll top stack)
  | none :: _ => .error (.io .malformedText)
  | some line :: rest =>
    match Line.ofChars line with
    | .opening name sorted path? =>
      if _h : stack.length + 1 ≥ limit then .error (.nestingTooDeep limit)
      else
        let stack' := ⟨top, String.ofList name⟩ :: stack
        match path? with
        | none =>
          readLines files charset limit baseDir? (number + 1) rest (.empty sorted) stack'
        | some path =>
          match openFile files charset (resolve baseDir? (String.ofList path)) with
          | .error e => .error e
          | .ok (text, dir?) =>
            match readLines files charset (limit - (stack.length + 1)) dir? 0 (rawLines text)
                (.empty true) [] with
            | .error e => .error e
            | .ok included =>
              readLines files charset limit baseDir? (number + 1) rest
                (included.setSorted sorted) stack'
    | .closing => match stack with
      | [] => readLines files charset limit baseDir? (number + 1) rest top []
      | b :: outer =>
        readLines files charset limit baseDir? (number + 1) rest
          (b.outer.set b.name (.block top)) outer
    | .param name value =>
      readLines files charset limit baseDir? (number + 1) rest
        (top.set (String.ofList name) (.param (String.ofList value))) stack
    | .heredoc name =>
      match _h : takeBody (number + 1) rest with
      | .error e => .error e
      | .ok (body, rest') =>
        readLines files charset limit baseDir? (number + 1 + body.length + 1) rest'
          (top.set (String.ofList name)
            (.param (String.ofList (heredocValue stack.length body)))) stack
    | .noise => readLines files charset limit baseDir? (number + 1) rest top stack
termination_by (limit, lines.length)
decreasing_by
  · exact Prod.Lex.right _ (by simp)
  · exact Prod.Lex.left _ _ (by omega)
  · exact Prod.Lex.right _ (by simp)
  · exact Prod.Lex.right _ (by simp)
  · exact Prod.Lex.right _ (by simp)
  · exact Prod.Lex.right _ (by simp)
  · exact Prod.Lex.right _ (by have := length_of_takeBody _h; simp; omega)
  · exact Prod.Lex.right _ (by simp)

/-- Read a dump from its text. -/
def parseWith (files : FileReader) (o : Options) (text : List Char) : Except Error Document :=
  readLines files o.charset o.limit o.baseDir? 0 (rawLines text) (.empty true) []

/-- Read a dump from its text with the usual options. -/
def parse (files : FileReader) (text : List Char) : Except Error Document :=
  parseWith files {} text

/-- The lines of some bytes in UTF-8, each with the line feed that ends it. -/
def rawLinesOfBytes (bytes : Bytes) : List RawLine :=
  (Text.cutAfter (· == 0x0A) bytes).map Charset.decodeUtf8?

/-- Read a dump from bytes in UTF-8.  A line that is not well-formed is an error when it is
reached. -/
def parseBytes (files : FileReader) (o : Options) (bytes : Bytes) : Except Error Document :=
  readLines files o.charset o.limit o.baseDir? 0 (rawLinesOfBytes bytes) (.empty true) []

/-- Read a dump from a file.  Paths in it start from the directory of the file. -/
def loadFile (files : FileReader) (o : Options) (path : String) : Except Error Document := do
  let (text, dir?) ← openFile files o.charset path
  parseWith files { o with baseDir? := dir? } text

end BlockDoc.Dump
