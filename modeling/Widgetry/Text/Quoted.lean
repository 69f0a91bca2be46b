import Widgetry.Text.Hidden

/-!
# Quoted text in diagnostics

Text between double quotes, with backslash escapes for quotes, backslashes and line characters, and
hidden characters as their code point in braces.
-/

namespace Widgetry.Text

def hexLower (n : Nat) : String := String.ofList (Nat.toDigits 16 n)

def quoteChar (c : Char) : String :=
  if c = '\x00' then "\\0"
  else if c = '\t' then "\\t"
  else if c = '\r' then "\\r"
  else if c = '\n' then "\\n"
  else if c = '\\' then "\\\\"
  else if c = '"' then "\\\""
  else if isHidden c then "\\u\x7b" ++ hexLower c.toNat ++ "\x7d"
  else c.toString

def quoted (s : String) : String :=
  "\"" ++ String.join (s.toList.map quoteChar) ++ "\""

end Widgetry.Text
