import Mathlib.Algebra.Group.Nat.Defs
import Quadword.Token.Error
import Quadword.Token.Spelling

/-!
# The front of a text

What stands at the front of a text is told here by looking ahead as far as it takes, in place of
going from state to state: a token, characters without a meaning (white space and comments), or a
fault, and how many characters are concerned (`front`). This is what the lexemes of the language are
compared with. A lexer finds the same (`found`), except that it counts the digits of a hexadecimal
literal in 32 bits, so it takes a multiple of 2^32 of them for none at all.

Operators are taken greedily: the run goes on for as long as some spelling starts with it. Whenever
a spelling can be extended towards a longer one, the first step of the extension is a spelling too,
so a greedy run never passes over a spelling that it should have stopped at.
-/

namespace Quadword

open Lexical

/-- What stands at the front of a non-empty text. -/
inductive Front where
  /-- A token that takes `extra` characters after the first one. -/
  | token (t : Token) (extra : Nat)
  /-- White space or a comment that takes `extra` characters after the first one. -/
  | blank (extra : Nat)
  /-- A fault that shows after `read` characters. -/
  | fault (cause : LexError) (read : Nat)
deriving DecidableEq

namespace Front

/-- One more than the largest value of a literal. -/
def literalLimit : Nat := 2 ^ 64

/--
The number that a run of digits writes after `value`, or the index of the first digit with which it
would pass the limit of a literal.
-/
def readDigits (base value : Nat) : List Char → Except Nat Nat
  | [] => .ok value
  | d :: ds =>
    let next := value * base + digitValue d
    if next < literalLimit then (readDigits base next ds).mapError (· + 1) else .error 0

/-- The literal with the given digits, after `lead` characters that belong to it. -/
def literal (base lead : Nat) (digits : List Char) : Front :=
  match readDigits base 0 digits with
  | .ok v => token (.number (BitVec.ofNat 64 v)) (lead + digits.length - 1)
  | .error i => fault .overflow (lead + i)

/-- A hexadecimal literal, from the characters after its `0x`. -/
def hexadecimal (cs : List Char) : Front :=
  match cs.takeWhile isHexDigit with
  | [] => fault .missingDigits 2
  | digits => literal 16 2 digits

def decimal (c : Char) (cs : List Char) : Front :=
  literal 10 0 (c :: cs.takeWhile Char.isDigit)

def word (c : Char) (cs : List Char) : Front :=
  let more := cs.takeWhile isWordChar
  token (Token.ofWord (String.ofList (c :: more))) more.length

/-- Extends the start of an operator for as long as it remains one. -/
def operatorRun (seen : List Char) : List Char → List Char
  | [] => seen
  | c :: cs => if startsOperator (seen ++ [c]) then operatorRun (seen ++ [c]) cs else seen

def operator (c : Char) (cs : List Char) : Front :=
  let run := operatorRun [c] cs
  match operatorOf? (String.ofList run) with
  | some t => token t (run.length - 1)
  | none => fault (.badOperator (String.ofList run)) run.length

/-- The number of characters up to and including the first end of a block comment. -/
def closeComment? : List Char → Option Nat
  | [] => none
  | '*' :: '/' :: _ => some 2
  | _ :: cs => (closeComment? cs).map (· + 1)

/-- A comment or a division, from the characters after a `/`. -/
def slash : List Char → Front
  -- the line break that ends a comment is a token of its own
  | '/' :: cs => blank (1 + (cs.takeWhile (· ≠ '\n')).length)
  | '*' :: cs =>
    match closeComment? cs with
    | some n => blank (1 + n)
    | none => fault .unclosedComment (2 + cs.length)
  | cs => operator '/' cs

/-- Whether a character can stand between the braces of a mark. -/
def isInside (c : Char) : Bool := c ≠ '\x7d' && c ≠ '\n'

/-- A mark in braces, from the characters after the opening brace. -/
def mark (cs : List Char) : Front :=
  let text := cs.takeWhile isInside
  match cs.drop text.length with
  | '\x7d' :: _ =>
    if String.ofList text = "wide" then token .wide (text.length + 1)
    else fault (.unknownMark (String.ofList text)) (1 + text.length)
  | _ => fault .unclosedMark (1 + text.length)

/-- A literal that starts with `0`, from the characters after it. -/
def zero : List Char → Front
  | 'x' :: cs => hexadecimal cs
  | 'X' :: cs => hexadecimal cs
  | cs => decimal '0' cs

end Front

/-- What stands at the front of the text with first character `c` and remaining characters `cs`. -/
def front (c : Char) (cs : List Char) : Front :=
  if c = '\n' then .token .newline 0
  else if c = '/' then .slash cs
  else if c = '\x7b' then .mark cs
  else if c = '0' then .zero cs
  else if c.isDigit then .decimal c cs
  else if isWordStart c then .word c cs
  else if startsOperator [c] then .operator c cs
  else if Text.isBlank c then .blank 0
  else .fault (.badChar c) 0

/-! ## What a lexer finds -/

namespace Lexical

/-- A hexadecimal literal with so many digits that a count of 32 bits comes back to zero. -/
def Wraps : List Char → Prop
  | '0' :: x :: cs =>
    (x = 'x' ∨ x = 'X') ∧ cs.takeWhile isHexDigit ≠ [] ∧
      (cs.takeWhile isHexDigit).length % 2 ^ 32 = 0
  | _ => False

instance (cs : List Char) : Decidable (Wraps cs) := by
  unfold Wraps
  split <;> infer_instance

end Lexical

/--
Where the digits are miscounted: behind `0x` stand digits, and their number is a multiple of 2^32.
-/
theorem Lexical.wraps_iff {x : Char} {cs : List Char} : Wraps ('0' :: x :: cs) ↔
    (x = 'x' ∨ x = 'X') ∧ cs.takeWhile isHexDigit ≠ [] ∧
      (cs.takeWhile isHexDigit).length % 2 ^ 32 = 0 := Iff.rfl

/-- What a lexer finds at the front of the text: what stands there, or a literal without digits. -/
def found (c : Char) (cs : List Char) : Front :=
  match front c cs with
  | .token t extra =>
    if Wraps (c :: cs) then .fault .missingDigits (extra + 1) else .token t extra
  | other => other

section

variable {c : Char} {cs : List Char} {t : Token} {n : Nat} {e : LexError}

/--
A token is found where one stands, unless the digits of it are miscounted. This and the next two
lemmas are how `found` is used.
-/
theorem found_eq_token :
    found c cs = .token t n ↔ front c cs = .token t n ∧ ¬ Wraps (c :: cs) := by
  unfold found
  -- a token may be turned into a fault, and nothing else is changed
  cases front c cs with
  | token u m => by_cases h : Wraps (c :: cs) <;> simp [h]
  | blank m => simp
  | fault e m => simp

theorem found_eq_blank : found c cs = .blank n ↔ front c cs = .blank n := by
  unfold found
  cases front c cs with
  | token u m => by_cases h : Wraps (c :: cs) <;> simp [h]
  | blank m => simp
  | fault e m => simp

/-- As long as no count wraps, what is found is what stands there. -/
theorem found_eq_front (h : ¬ Wraps (c :: cs)) : found c cs = front c cs := by
  unfold found
  cases front c cs with
  | token u m => exact if_neg h
  | _ => rfl

/-- A fault is found where one stands, and one is enough: no count has come to an end there. -/
theorem found_of_fault (h : front c cs = .fault e n) : found c cs = .fault e n := by
  rw [found, h]

/--
Where the count of the digits comes back to zero, a literal that stands there is taken for one
without digits.
-/
theorem found_of_wraps (h : front c cs = .token t n) (hw : Wraps (c :: cs)) :
    found c cs = .fault .missingDigits (n + 1) := by
  rw [found, h]
  exact if_pos hw

end

namespace Lexical

open Front

theorem not_wraps_of_ne {c : Char} (h : c ≠ '0') (cs : List Char) : ¬ Wraps (c :: cs) := by
  unfold Wraps
  split
  · next heq => exact absurd (List.cons.inj heq).1 h
  · exact not_false

/-- The digits of a literal are counted only if an `x` comes behind its zero. -/
theorem not_wraps_of_head? {cs : List Char} (h : ∀ x ∈ cs.head?, x ≠ 'x' ∧ x ≠ 'X') :
    ¬ Wraps ('0' :: cs) := by
  cases cs with
  | nil => exact not_false
  | cons x cs =>
    rintro ⟨hx | hx, -⟩
    · exact (h x rfl).1 hx
    · exact (h x rfl).2 hx

/--
Decimal digits are not counted, so a lexer cannot lose count of them. A single zero must not be
followed by the letter that makes the literal hexadecimal.
-/
theorem not_wraps_of_isDigit {ds rest : List Char} (hne : ds ≠ [])
    (hds : ∀ d ∈ ds, d.isDigit = true)
    (hrest : ds = ['0'] → ∀ x ∈ rest.head?, x ≠ 'x' ∧ x ≠ 'X') : ¬ Wraps (ds ++ rest) := by
  obtain ⟨d, ds, rfl⟩ := List.exists_cons_of_ne_nil hne
  by_cases hd : d = '0'
  · subst hd
    refine not_wraps_of_head? fun x hx => ?_
    cases ds with
    | nil => exact hrest rfl x hx
    | cons x' ds =>
      obtain rfl : x' = x := Option.some.inj hx
      -- an `x` is not a digit
      have hdigit := hds x' (by simp)
      refine ⟨?_, ?_⟩
      · rintro rfl
        cases hdigit
      · rintro rfl
        cases hdigit
  · exact not_wraps_of_ne hd _

variable {cs : List Char}

/-- A literal in which a lexer loses count is a fault to it, be it too large or not. -/
theorem Wraps.fault : Wraps cs → ∃ c cs' e n, cs = c :: cs' ∧ found c cs' = .fault e n := by
  intro h
  have hhead : ∃ x cs', (x = 'x' ∨ x = 'X') ∧ cs = '0' :: x :: cs' := by
    unfold Wraps at h
    split at h
    · next x cs' => exact ⟨x, cs', h.1, rfl⟩
    · exact h.elim
  obtain ⟨x, cs', hx, rfl⟩ := hhead
  have hfront : front '0' (x :: cs') = hexadecimal cs' := by
    rcases hx with rfl | rfl <;> rfl
  cases hcase : front '0' (x :: cs') with
  | token t n => exact ⟨_, _, _, _, rfl, found_of_wraps hcase h⟩
  | fault e n => exact ⟨_, _, _, _, rfl, found_of_fault hcase⟩
  | blank n =>
    -- what is found there starts with a digit
    rw [hfront, hexadecimal] at hcase
    split at hcase
    · cases hcase
    · unfold literal at hcase
      split at hcase <;> cases hcase

end Lexical

end Quadword
