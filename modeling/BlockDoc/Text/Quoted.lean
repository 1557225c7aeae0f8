/-
# Texts in double quotes

Names and paths appear in error messages in double quotes.  Inside the quotes a backslash
starts an escape: `\0`, `\t`, `\r`, `\n`, `\\`, `\"`, and `\u{…}` with the hexadecimal number of
any other character that a reader could not see.  Everything else stands for itself.
-/
import BlockDoc.Text.Hex
import BlockDoc.Text.Hidden

namespace BlockDoc.Text

/-- One character as it stands between quotes. -/
def quoteChar (c : Char) : String :=
  match c with
  | '\x00' => "\\0"
  | '\t' => "\\t"
  | '\r' => "\\r"
  | '\n' => "\\n"
  | '\\' => "\\\\"
  | '"' => "\\\""
  | _ => if isHidden c then "\\u\x7b" ++ hex c.toNat ++ "\x7d" else c.toString

/-- A text in double quotes. -/
def quote (s : String) : String :=
  "\"" ++ String.join (s.toList.map quoteChar) ++ "\""

end BlockDoc.Text
