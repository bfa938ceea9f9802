import Quadword.Text.Quoted

/-!
# Lexical errors
-/

namespace Quadword

/-- Why a text cannot be broken into tokens. -/
inductive LexError where
  /-- The next line is not valid UTF-8. -/
  | unreadable
  /-- A character that starts no token. -/
  | badChar (c : Char)
  /-- Characters that start an operator but do not complete one. -/
  | badOperator (text : String)
  /-- A `{` without its `}` on the same line. -/
  | unclosedMark
  /-- A mark in braces other than the known one. -/
  | unknownMark (text : String)
  /-- A block comment that is still open at the end. -/
  | unclosedComment
  /-- A `0x` without a hexadecimal digit after it. -/
  | missingDigits
  /-- A literal of more than 64 bits. -/
  | overflow
deriving DecidableEq

namespace LexError

def message : LexError → String
  | unreadable => "I/O error"
  | badChar c => "Bad character " ++ Text.quoted c ++ " in input stream"
  | badOperator text => "Malformed operator `" ++ text ++ "`"
  | unclosedMark => "Unterminated annotation"
  | unknownMark text => "Unknown annotation `\x7b" ++ text ++ "\x7d`"
  | unclosedComment => "Unterminated block comment"
  | missingDigits => "Expected hexadecimal digits after `0x`"
  | overflow => "Integer literal overflow, valid range is [0, 18446744073709551615]"

/-- What lies behind the error, where there is something behind it. -/
def cause? : LexError → Option String
  | unreadable => some "stream did not contain valid UTF-8"
  | _ => none

end LexError

end Quadword
