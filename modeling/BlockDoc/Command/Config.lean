/-
# What the program is asked to do

A configuration names a conversion, the file to read and the file to write, and the character
set of texts by its label.  It is checked before any file is touched.
-/
import BlockDoc.Charset.Label
import BlockDoc.Files.Path

namespace BlockDoc.Command

/-- A conversion between the forms of a document. -/
inductive Conversion where
  /-- From an archive to a text dump. -/
  | unpack
  /-- From a text dump to an archive with the given seed. -/
  | pack (seed : Int32)
  /-- From a binary document to a text dump. -/
  | decode (grouped : Bool)
  /-- From a text dump to a binary document. -/
  | encode (grouped : Bool)
  /-- From a code listing to a text dump. -/
  | code
  deriving DecidableEq

/-- A complete request. -/
structure Config where
  /-- The label of the character set of texts. -/
  label : String
  /-- How much is to be logged. -/
  logLevel : String
  /-- The conversion. -/
  conversion : Conversion
  /-- The file to read. -/
  input : String
  /-- The file to write. -/
  output : String
  deriving DecidableEq

/-- What can be wrong with a request. -/
inductive ConfigError where
  /-- The label is none of those of the seven character sets. -/
  | unknownEncoding (label : String)
  /-- The log level is none of the five. -/
  | invalidLogLevel (level : String)
  /-- There is nothing to read. -/
  | missingInput (path : String)
  /-- The file to read would be overwritten. -/
  | sameInputOutput (path : String)
  deriving DecidableEq

/-- The words for what is wrong with a request. -/
def ConfigError.message : ConfigError → String
  | .unknownEncoding label => "Unknown text encoding: " ++ label
  | .invalidLogLevel level =>
    "Invalid log level '" ++ level ++ "': expected trace, debug, info, warn or error"
  | .missingInput path => "Input file not found: " ++ path
  | .sameInputOutput path => "Output path is the same as the input: " ++ path

/-- The number that some decimal digits stand for; there must be a digit. -/
def digitsValue? (cs : List Char) : Option Nat :=
  if cs ≠ [] ∧ cs.all Char.isDigit then
    some (cs.foldl (fun n c => 10 * n + (c.toNat - '0'.toNat)) 0)
  else none

/-- Whether a text is a log level: a number from one to five, with a plus sign or without, or a
name in any case. -/
def isLogLevel (level : String) : Bool :=
  let digits := match level.toList with
    | '+' :: rest => rest
    | cs => cs
  match digitsValue? digits with
  | some n => 1 ≤ n && n ≤ 5
  | none => ["error", "warn", "info", "debug", "trace"].contains (level.map Char.toLower)

/-- The character set of texts. -/
def Config.charset (c : Config) : Except ConfigError Charset :=
  match Charset.ofLabel? c.label with
  | some set => .ok set
  | none => .error (.unknownEncoding c.label)

/-- Check a request, where `present` tells whether a path leads to something. -/
def Config.validate (present : String → Bool) (c : Config) : Except ConfigError Unit := do
  let _ ← c.charset
  if !isLogLevel c.logLevel then .error (.invalidLogLevel c.logLevel)
  else if !present c.input then .error (.missingInput c.input)
  else if Path.same c.input c.output then .error (.sameInputOutput c.input)
  else .ok ()

end BlockDoc.Command
