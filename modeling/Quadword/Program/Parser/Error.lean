import Quadword.Program.Printer
import Quadword.Program.Shape
import Quadword.Token.Basic

/-!
# Syntax errors
-/

namespace Quadword

/-- What the grammar asks for at some point. -/
inductive Expectation where
  | token (t : Token)
  | identifier
  | destination
  | literal
  | statement
  | assignment
  | comparison
  | reference
  | space
  | region
  | expression
  | lineEnd
deriving DecidableEq

def Expectation.describe : Expectation → String
  | token t => t.describe
  | identifier => "an identifier"
  | destination => "a label or `END`"
  | literal => "a literal number"
  | statement => "a statement"
  | assignment => "`=` or a compound assignment"
  | comparison => "a comparison"
  | reference => "a memory reference"
  | space => "`sp`, `data` or `const`"
  | region => "a region"
  | expression => "an expression"
  | lineEnd => "end of line"

/-- Why a list of tokens is not a program. -/
inductive ParseError where
  /-- Another token stands where the grammar asks for something. -/
  | expected (what : Expectation) (found : Token)
  | abruptEnd
  /-- The stack pointer can be aligned to 8 or 16 bytes only. -/
  | badAlignment (boundary : Word)
  /-- An offset of more than 31 bits. -/
  | badOffset (offset : Word)
  /-- An expression with too many operators for where it stands. -/
  | shape (role : Role)
  /-- A store to a region that cannot be written. -/
  | readOnly
  | duplicateLabel (name : String)
  | undefinedLabel (name : String)
  /-- An initial value for bytes that already have one. -/
  | overlap (region : Region) (offset : Word)
deriving DecidableEq

namespace ParseError

def message : ParseError → String
  | expected what found =>
    "Expected " ++ what.describe ++ ", found " ++ found.describe ++ " instead"
  | abruptEnd => "Abrupt end of program"
  | badAlignment boundary => "Alignment must be 8 or 16, found " ++ toString boundary.toNat
  | badOffset offset =>
    "Offset " ++ toString offset.toNat ++ " is out of range, the maximum is 2147483647"
  | shape .value => "At most one binary operator is allowed in " ++ Role.value.describe
  | shape role => "Operators are not allowed in " ++ role.describe
  | readOnly => "Region `const` is read-only"
  | duplicateLabel name => "Label `" ++ name ++ "` is defined more than once"
  | undefinedLabel name => "Label `" ++ name ++ "` is not defined"
  | overlap region offset => Initializer.overlapMessage region offset

end ParseError

end Quadword
