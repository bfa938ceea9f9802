import Quadword.Text.Blank
import Quadword.Token.Basic

/-!
# What tokens are spelled with

The characters that words and literals are made of, and the beginnings of operators.
-/

namespace Quadword.Lexical

def isWordStart (c : Char) : Bool := c.isAlpha || c = '_'

def isWordChar (c : Char) : Bool := c.isAlphanum || c = '_'

def isHexDigit (c : Char) : Bool :=
  c.isDigit || ('a' ≤ c && c ≤ 'f') || ('A' ≤ c && c ≤ 'F')

def digitValue (c : Char) : Nat :=
  if c.isDigit then c.toNat - 48
  else if 'a' ≤ c && c ≤ 'f' then c.toNat - 87
  else c.toNat - 55

/-- Whether some operator starts with the given characters. -/
def startsOperator (cs : List Char) : Bool :=
  Token.operators.any fun o => cs.isPrefixOf o.1.toList

def operatorOf? (spelling : String) : Option Token :=
  (Token.operators.find? fun o => o.1 = spelling).map Prod.snd

end Quadword.Lexical
