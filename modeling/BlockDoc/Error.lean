/-
# What can go wrong

Every failure of reading, writing or looking into a document is one value of `Error`: a cause
with the facts that belong to it.  The wording is given once, in `Error.message`.
-/
import BlockDoc.Text.Quoted

namespace BlockDoc

/-- A part of encoded data, named where the data end inside it. -/
inductive Region where
  /-- The flag and the entry count of a document. -/
  | documentHeader
  /-- The flag and the entry count of a block. -/
  | blockHeader
  /-- The two words in front of an entry of a run. -/
  | groupHeader
  /-- The kind byte of an entry. -/
  | entryKind
  /-- A text in sixteen-bit units. -/
  | wideString
  /-- The magic and the size in front of compressed data. -/
  | frameHeader
  deriving DecidableEq

/-- The words for a region. -/
def Region.label : Region → String
  | .documentHeader => "document header"
  | .blockHeader => "block header"
  | .groupHeader => "group header"
  | .entryKind => "entry kind"
  | .wideString => "wide string"
  | .frameHeader => "compression frame header"

/-- Why a file could not be read or written. -/
inductive IoFailure where
  /-- There is nothing under the path. -/
  | notFound
  /-- The path leads through something that is no directory. -/
  | notADirectory
  /-- The path leads to a directory. -/
  | isADirectory
  /-- A name in the path is too long. -/
  | nameTooLong
  /-- The path holds a null character. -/
  | nullInName
  /-- A line is not well-formed UTF-8. -/
  | malformedText
  /-- The content was not at hand when the path was asked for. -/
  | unread (path : String)
  /-- Any other reason, in the words of the system. -/
  | other (reason : String)
  deriving DecidableEq

/-- The words for a failure of a file operation. -/
def IoFailure.message : IoFailure → String
  | .notFound => "No such file or directory (os error 2)"
  | .notADirectory => "Not a directory (os error 20)"
  | .isADirectory => "Is a directory (os error 21)"
  | .nameTooLong => "File name too long (os error 36)"
  | .nullInName => "file name contained an unexpected NUL byte"
  | .malformedText => "stream did not contain valid UTF-8"
  | .unread path => "content of " ++ path ++ " not at hand"
  | .other reason => reason

/-- Why characters and bytes could not be turned into each other. -/
inductive CharsetFailure where
  /-- Some character of the document has no bytes. -/
  | unrepresentable (charset : String)
  /-- The bytes of a file are not text. -/
  | malformedFile (path charset : String)
  /-- Some bytes are not text. -/
  | malformed (charset : String)
  deriving DecidableEq

/-- The words for a failure of an encoding. -/
def CharsetFailure.message : CharsetFailure → String
  | .unrepresentable charset =>
    "document contains characters not representable in " ++ charset
  | .malformedFile path charset => path ++ " is not valid " ++ charset
  | .malformed charset => "not valid " ++ charset

/-- Why a compressed stream could not be expanded. -/
inductive InflateFailure where
  /-- The data end before the stream does, and nothing wrong was seen up to there. -/
  | incomplete
  /-- The stream breaks a rule of its format. -/
  | corrupt
  /-- The expanded data exceed the limit. -/
  | tooLarge (limit : Nat)
  deriving DecidableEq

/-- The words for a failure to expand. -/
def InflateFailure.message : InflateFailure → String
  | .incomplete => "ZLib: incomplete deflate stream"
  | .corrupt => "ZLib: corrupt deflate stream"
  | .tooLarge limit => s!"decompressed size exceeds limit of {limit} bytes"

/-- A failure with documents in memory or in files. -/
inductive Error where
  /-- No entry has this name. -/
  | keyNotFound (name : String)
  /-- The path leads through an entry that is no block. -/
  | pathNotFound (path segment : String)
  /-- The path leads to something other than a parameter. -/
  | notAParameter (path : String)
  /-- The path leads to something other than a block. -/
  | notABlock (path : String)
  /-- Entries are never removed from a document. -/
  | removal
  /-- A kind byte that stands neither for a parameter nor for a block. -/
  | invalidKind (byte : UInt8)
  /-- An entry without content cannot be encoded. -/
  | undefinedEntry (name : String)
  /-- A text at this offset is not well-formed UTF-16. -/
  | invalidWideString (offset : Nat)
  /-- The data end inside this region. -/
  | unexpectedEof (region : Region)
  /-- Blocks are nested deeper than the limit allows. -/
  | nestingTooDeep (limit : Nat)
  /-- A here-document that starts at this line has no end. -/
  | unterminatedHeredoc (line : Nat)
  /-- The value of this entry has no form in a text dump. -/
  | unrepresentableValue (name : String)
  /-- Characters and bytes do not match. -/
  | charset (failure : CharsetFailure)
  /-- The magic of a compressed frame is unknown. -/
  | invalidMagic (magic : List UInt8)
  /-- An archive of this size cannot hold its header. -/
  | archiveTooShort (size : Nat)
  /-- A compressed frame cannot be expanded. -/
  | inflate (failure : InflateFailure)
  /-- A payload of this size does not fit into a frame. -/
  | payloadTooLarge (size : Nat)
  /-- The content of an archive does not have the recorded hash. -/
  | hashMismatch (expected actual : UInt32)
  /-- A file operation failed. -/
  | io (failure : IoFailure)
  /-- A file operation failed while encoded data were read. -/
  | binaryIo (failure : IoFailure)
  deriving DecidableEq

/-- The words for a recorded hash that does not fit. -/
def hashMismatchMessage (expected actual : UInt32) : String :=
  "Checksum mismatch: expected " ++ Text.hexPadded 8 expected.toNat ++
    ", got " ++ Text.hexPadded 8 actual.toNat

/-- The words for an error. -/
def Error.message : Error → String
  | .keyNotFound name => "key not found: " ++ Text.quote name
  | .pathNotFound path segment =>
    "path not found: " ++ Text.quote path ++ " (at segment " ++ Text.quote segment ++ ")"
  | .notAParameter path => "not a parameter: " ++ Text.quote path
  | .notABlock path => "not a block: " ++ Text.quote path
  | .removal => "unsupported operation: removing entries from a BlockPar document"
  | .invalidKind byte => s!"invalid entry kind: {byte.toNat}"
  | .undefinedEntry name => "entry " ++ Text.quote name ++ " has undefined content"
  | .invalidWideString offset => s!"invalid UTF-16 string at offset {offset}"
  | .unexpectedEof region => "unexpected end of data: " ++ region.label
  | .nestingTooDeep limit => s!"nesting depth exceeds limit of {limit}"
  | .unterminatedHeredoc line => s!"heredoc starting at line {line} is not terminated"
  | .unrepresentableValue name =>
    "value of " ++ Text.quote name ++ " cannot be written as text"
  | .charset failure => "text encoding error: " ++ failure.message
  | .invalidMagic magic =>
    "invalid compression magic: expected ZL01 or ZL02, got [" ++
      ", ".intercalate (magic.map Text.hexByteUpper) ++ "]"
  | .archiveTooShort size => s!"archive too short: {size} bytes"
  | .inflate failure => "decompression failed: " ++ failure.message
  | .payloadTooLarge size => s!"compression error: payload of {size} bytes is too large"
  | .hashMismatch expected actual =>
    "integrity check failed: " ++ hashMismatchMessage expected actual
  | .io failure => "I/O error: " ++ failure.message
  | .binaryIo failure => "binary parsing error: " ++ failure.message

/-- Whether an error comes from looking into a document, and not from reading or writing. -/
def Error.isLookup : Error → Bool
  | .keyNotFound _ => true
  | .pathNotFound _ _ => true
  | .notAParameter _ => true
  | .notABlock _ => true
  | _ => false

end BlockDoc
