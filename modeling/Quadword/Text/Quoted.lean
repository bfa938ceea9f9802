import Quadword.Text.Printable
import Quadword.Text.Combining

/-!
# Quoted characters

Messages show a character between single quotes. A character that would be invisible, that would
attach itself to the quote before it, or that the quoting itself uses is written as an escape.
-/

namespace Quadword.Text

/-- The escape that gives a character by its code point in hexadecimal. -/
def codeEscape (c : Char) : String :=
  "\\u\x7b" ++ String.ofList (Nat.toDigits 16 c.toNat) ++ "\x7d"

/-- A character as it stands between single quotes. -/
def escaped (c : Char) : String :=
  if c = '\x00' then "\\0"
  else if c = '\t' then "\\t"
  else if c = '\r' then "\\r"
  else if c = '\n' then "\\n"
  else if c = '\x27' then "\\'"
  else if c = '\\' then "\\\\"
  else if isCombining c then codeEscape c
  else if isPrintable c then String.singleton c
  else codeEscape c

def quoted (c : Char) : String := "'" ++ escaped c ++ "'"

end Quadword.Text
