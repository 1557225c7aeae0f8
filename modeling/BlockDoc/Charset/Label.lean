/-
# Labels of character sets

A character set is asked for by one of its labels.  White space around a label and the case of
its ASCII letters do not count.  Only the labels of the seven sets are known; every other label is
refused, also one that a standard gives to a set that is not among them.
-/
import BlockDoc.Charset.Basic
import BlockDoc.Text.Blank

namespace BlockDoc.Charset

/-- The labels of a set, in lower case. -/
def labels : Charset → List String
  | .utf8 =>
    ["unicode-1-1-utf-8", "unicode11utf8", "unicode20utf8", "utf-8", "utf8", "x-unicode20utf8"]
  | .utf16le =>
    ["csunicode", "iso-10646-ucs-2", "ucs-2", "unicode", "unicodefeff", "utf-16", "utf-16le"]
  | .utf16be => ["unicodefffe", "utf-16be"]
  | .windows1251 => ["cp1251", "windows-1251", "x-cp1251"]
  | .windows1252 =>
    ["ansi_x3.4-1968", "ascii", "cp1252", "cp819", "csisolatin1", "ibm819", "iso-8859-1",
      "iso-ir-100", "iso8859-1", "iso88591", "iso_8859-1", "iso_8859-1:1987", "l1", "latin1",
      "us-ascii", "windows-1252", "x-cp1252"]
  | .koi8r => ["cskoi8r", "koi", "koi8", "koi8-r", "koi8_r"]
  | .ibm866 => ["866", "cp866", "csibm866", "ibm866"]

/-- All sets. -/
def all : List Charset :=
  [.utf8, .utf16le, .utf16be, .windows1251, .windows1252, .koi8r, .ibm866]

/-- The set that a label asks for, if it is a label of one of the seven sets. -/
def ofLabel? (label : String) : Option Charset :=
  let key := (Text.trimmed label).map Char.toLower
  all.find? fun c => c.labels.contains key

/-- Every set is asked for by each of its labels. -/
theorem ofLabel?_of_mem {c : Charset} {label : String} (h : label ∈ c.labels) :
    ofLabel? label = some c := by
  have hall : ∀ label ∈ c.labels, ofLabel? label = some c := by cases c <;> decide +kernel
  exact hall label h

end BlockDoc.Charset
