/-
# Conversions

A conversion reads one file, with the dumps it includes, and writes another.  The reading part
is a function of what is in the files; it ends in the document and in what is to be written.
-/
import BlockDoc.Command.Config
import BlockDoc.Files.Document
import BlockDoc.Listing

namespace BlockDoc.Command

/-- Why a conversion failed. -/
inductive ConvertError where
  /-- Something is wrong with the request. -/
  | config (cause : ConfigError)
  /-- A document could not be read from the path, or not be written to it. -/
  | convert (path : String) (cause : Error)
  /-- A listing could not be read from the path. -/
  | read (path : String) (cause : IoFailure)
  deriving DecidableEq

/-- The words for a failed conversion. -/
def ConvertError.message : ConvertError → String
  | .config cause => "Configuration error: " ++ cause.message
  | .convert path cause => "Failed to convert " ++ path ++ ": " ++ cause.message
  | .read path cause => "Failed to read " ++ path ++ ": " ++ cause.message

/-- A result with a document, its error with the file in which it happened. -/
def inFile {α : Type} (path : String) (r : Except Error α) : Except ConvertError α :=
  r.mapError (.convert path)

/-- The layout of binary documents. -/
def layoutOf (grouped : Bool) : Binary.Layout := if grouped then .grouped else .plain

/-- Read a code listing. -/
def readListing (files : FileReader) (charset : Charset) (path : String) :
    Except ConvertError Document :=
  match files path with
  | .error e => .error (.read path e)
  | .ok bytes => match charset.decode? bytes with
    | none => .error (.convert path (.charset (.malformed charset.name)))
    | some text => inFile path (Listing.parse text)

/-- Read the document that a request starts from. -/
def readInput (files : FileReader) (charset : Charset) (c : Config)
    (z : Compression := .zlib) : Except ConvertError Document :=
  match c.conversion with
  | .unpack => inFile c.input (Archive.loadFile files c.input z)
  | .pack _ => inFile c.input (Dump.loadFile files { charset } c.input)
  | .decode grouped => inFile c.input (Binary.loadFile files (layoutOf grouped) c.input)
  | .encode _ => inFile c.input (Dump.loadFile files { charset } c.input)
  | .code => readListing files charset c.input

/-- What a request writes for a document. -/
def outputOf (charset : Charset) (d : Document) (c : Conversion) (z : Compression := .zlib) :
    Emission :=
  match c with
  | .unpack => Dump.emission charset d
  | .pack seed => Archive.emission seed d z
  | .decode _ => Dump.emission charset d
  | .encode grouped => Binary.emission (layoutOf grouped) d
  | .code => Dump.emission charset d

/-- Read what a request reads, and say what it writes. -/
def plan (files : FileReader) (c : Config) (z : Compression := .zlib) :
    Except ConvertError (Document × Emission) := do
  let charset ← c.charset.mapError .config
  let d ← readInput files charset c z
  .ok (d, outputOf charset d c.conversion z)

/-- Fulfil a request: the files afterwards, and the document that was written. -/
def run (s : Store) (c : Config) (z : Compression := .zlib) :
    Store × Except ConvertError Document :=
  match plan s.read c z with
  | .error e => (s, .error e)
  | .ok (d, e) =>
    let (s', r) := s.emit c.output e
    (s', (inFile c.output r).map fun _ => d)

end BlockDoc.Command
