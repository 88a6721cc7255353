import RubyWat.Text.Numeral
import RubyWat.Text.Printable

/-
  Texts between double quotes, as listings show them.

  A quote, a backslash and the usual control characters are written with a backslash, every
  other character that cannot be shown by its number in braces.
-/

-- Quoting

namespace RubyWat.Text

def quotedChar (c : Char) : String :=
  match c with
  | '\x00' => "\\0"
  | '\t' => "\\t"
  | '\r' => "\\r"
  | '\n' => "\\n"
  | '"' => "\\\""
  | '\\' => "\\\\"
  | c =>
    if isShown c then c.toString
    else "\\u\x7b" ++ Numeral.hex c.toNat ++ "\x7d"

def quoted (s : String) : String :=
  "\"" ++ String.join (s.toList.map quotedChar) ++ "\""

end RubyWat.Text
