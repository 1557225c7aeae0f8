/-
# Documents in files

Reading a document takes a way to read files and a path.  Writing one is described by an
`Emission`: the bytes that end up in the file, and whether the document was written.  A text
dump or a binary document is written into a file that was emptied before, so a failure leaves
behind what was written up to there; an archive is put together first, so a failure leaves the
file alone.
-/
import BlockDoc.Archive.Basic
import BlockDoc.Dump.Reader
import BlockDoc.Dump.Writer
import BlockDoc.Files.Store

namespace BlockDoc

/-! ## 1. Reading -/

/-- Read a binary document from a file.  A directory can be opened like a file and fails only
when its content is asked for. -/
def Binary.loadFile (files : FileReader) (layout : Layout) (path : String) :
    Except Error Document :=
  match files path with
  | .error .isADirectory => .error (.binaryIo .isADirectory)
  | .error e => .error (.io e)
  | .ok bytes => parse layout bytes

/-- Read the document of an archive file. -/
def Archive.loadFile (files : FileReader) (path : String) (z : Compression := .zlib) :
    Except Error Document :=
  match files path with
  | .error e => .error (.io e)
  | .ok bytes => parse bytes z

/-! ## 2. Writing -/

/-- What becomes of a file when a document is written to it. -/
structure Emission where
  /-- The new content of the file; `none` if it is not touched. -/
  content? : Option Bytes
  /-- Whether the document was written. -/
  result : Except Error Unit

/-- Write a text dump. -/
def Dump.emission (c : Charset) (d : Document) : Emission :=
  match Dump.encode c d with
  | .ok bytes => ⟨some bytes, .ok ()⟩
  | .error e => ⟨some [], .error e⟩

/-- Write a binary document. -/
def Binary.emission (layout : Layout) (d : Document) : Emission :=
  let (bytes, result) := writeDocument layout maxDepth d
  ⟨some bytes, result⟩

/-- Write an archive. -/
def Archive.emission (seed : Int32) (d : Document) (z : Compression := .zlib) : Emission :=
  match build d seed z with
  | .ok bytes => ⟨some bytes, .ok ()⟩
  | .error e => ⟨none, .error e⟩

/-- Let an emission happen to the file at a path.  A file that cannot be written is the first
thing to fail. -/
def Store.emit (s : Store) (path : String) (e : Emission) : Store × Except Error Unit :=
  match e.content? with
  | none => (s, e.result)
  | some bytes => match s.write path bytes with
    | .error f => (s, .error (.io f))
    | .ok s' => (s', e.result)

end BlockDoc
