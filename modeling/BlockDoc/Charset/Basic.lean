/-
# Character sets

Text files are bytes in one of seven character sets.  Reading follows two rules that hold
whatever set is asked for: a byte-order mark at the front overrules it and is taken off, once;
and bytes that stand for no character make the whole text unreadable, nothing is replaced.
Writing puts no mark in front.  The two sixteen-bit sets are for reading only: a text that is
to be written in one of them is written in UTF-8.
-/
import BlockDoc.Bytes
import BlockDoc.Charset.CodePage
import BlockDoc.Text.Utf16

namespace BlockDoc

/-- The character sets of text files. -/
inductive Charset where
  | utf8
  | utf16le
  | utf16be
  | windows1251
  | windows1252
  | koi8r
  | ibm866
  deriving DecidableEq

namespace Charset

/-- The canonical name. -/
def name : Charset → String
  | .utf8 => "UTF-8"
  | .utf16le => "UTF-16LE"
  | .utf16be => "UTF-16BE"
  | .windows1251 => "windows-1251"
  | .windows1252 => "windows-1252"
  | .koi8r => "KOI8-R"
  | .ibm866 => "IBM866"

/-- The upper half of its code page, if the set is one. -/
def page? : Charset → Option (Array Nat)
  | .utf8 | .utf16le | .utf16be => none
  | .windows1251 => some windows1251Upper
  | .windows1252 => some windows1252Upper
  | .koi8r => some koi8rUpper
  | .ibm866 => some ibm866Upper

/-! ## 1. Reading -/

/-- The text of some bytes in UTF-8. -/
def decodeUtf8? (bytes : Bytes) : Option (List Char) :=
  (ByteArray.mk bytes.toArray).utf8Decode?.map Array.toList

/-- The sixteen-bit units of some bytes, if their number is even. -/
def unitsOfBytes? (unit : UInt8 → UInt8 → Nat) : Bytes → Option (List Nat)
  | [] => some []
  | [_] => none
  | a :: b :: rest => (unitsOfBytes? unit rest).map (unit a b :: ·)

/-- The text of some bytes, byte-order marks not considered. -/
def decodeBare? (c : Charset) (bytes : Bytes) : Option (List Char) :=
  match c with
  | .utf8 => decodeUtf8? bytes
  | .utf16le => (unitsOfBytes? (fun a b => Word.value [a, b]) bytes).bind Text.ofUnits?
  | .utf16be => (unitsOfBytes? (fun a b => Word.value [b, a]) bytes).bind Text.ofUnits?
  | page => page.page?.map fun upper => bytes.map (ofByte upper)

/-- The set that a byte-order mark at the front announces, with the bytes behind the mark. -/
def mark? : Bytes → Option (Charset × Bytes)
  | 0xEF :: 0xBB :: 0xBF :: rest => some (.utf8, rest)
  | 0xFF :: 0xFE :: rest => some (.utf16le, rest)
  | 0xFE :: 0xFF :: rest => some (.utf16be, rest)
  | _ => none

/-- The text of some bytes.  A byte-order mark overrules the set that was asked for. -/
def decode? (c : Charset) (bytes : Bytes) : Option (List Char) :=
  match mark? bytes with
  | some (marked, rest) => marked.decodeBare? rest
  | none => c.decodeBare? bytes

/-! ## 2. Writing -/

/-- The bytes of a text in UTF-8. -/
def encodeUtf8 (cs : List Char) : Bytes := cs.flatMap String.utf8EncodeChar

/-- The bytes of a text, if every character has some. -/
def encode? (c : Charset) (cs : List Char) : Option Bytes :=
  match c.page? with
  | none => some (encodeUtf8 cs)
  | some upper => cs.mapM (toByte? upper)

end Charset

end BlockDoc
