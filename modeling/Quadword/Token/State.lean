import Quadword.Token.Error
import Quadword.Token.Spelling

/-!
# The states of a lexer

A lexer is always in one state. What it does next follows from the state and from the next
character, which it only looks at: it takes the character and goes to a state, or leaves the
character for the state that it goes to, or it is done.

Most tokens are known to be complete only by the character that follows them. The tokens for a line
break and for a mark in braces are not, but they too are emitted at the character that follows
(`State.complete`).
-/

namespace Quadword

/-! ## Literals

The value of a literal is carried along in 64 bits. Each base has its own test for a digit too many.
-/

/-- Moves a number up by one decimal place and adds a digit, if 64 bits can hold the result. -/
def pushDecimal? (value digit : Word) : Option Word :=
  if value.umulOverflow 10 then none
  else if (value * 10).uaddOverflow digit then none
  else some (value * 10 + digit)

/-- Moves a number up by one hexadecimal place and adds a digit, if no bit is lost. -/
def pushHex? (value digit : Word) : Option Word :=
  if value >>> 60 ≠ 0 then none else some (value <<< 4 ||| digit)

/-! ## States and moves -/

namespace Lexer

/-- What a lexer is in the middle of. -/
inductive State where
  /-- Before a token. -/
  | start
  /-- After a token that does not depend on what follows. -/
  | complete (t : Token)
  | slash
  | lineComment
  | blockComment
  /-- After a `*` in a block comment. -/
  | blockCommentStar
  /-- After a `0` in front. -/
  | zero
  | decimal (value : Word)
  /-- After `0x`. The digits are counted in 32 bits. -/
  | hex (value : Word) (digits : UInt32)
  | word (text : String)
  /-- In what some operator starts with. -/
  | operator (text : String)
  /-- In a mark in braces. -/
  | mark (text : String)
deriving DecidableEq

/-- What a lexer does at the next character. -/
inductive Move where
  /-- Takes the character and goes on. -/
  | take (s : State)
  /-- Goes on at the same character. -/
  | keep (s : State)
  | emit (t : Token)
  | fail (e : LexError)
  /-- Yields the end of the text. -/
  | finish
  /-- Yields nothing, since the end of the text has been yielded before. -/
  | stop

namespace State

open Lexical

/-- What starts at a character, between two tokens. -/
def begin (c : Char) : Move :=
  if c = '\n' then .take (complete .newline)
  else if c = '/' then .take slash
  else if c = '\x7b' then .take (mark "")
  else if c = '0' then .take zero
  -- the digit itself is pushed by the state
  else if c.isDigit then .keep (decimal 0)
  else if isWordStart c then .take (word (String.singleton c))
  else if startsOperator [c] then .keep (operator "")
  else if Text.isBlank c then .take start
  else .fail (.badChar c)

/-- What the characters between two braces come to. -/
def close (text : String) : Move :=
  if text = "wide" then .take (complete .wide) else .fail (.unknownMark text)

/-- The token of a whole operator, if it is one. -/
def operatorEnd (text : String) : Move :=
  match operatorOf? text with
  | some t => .emit t
  | none => .fail (.badOperator text)

/-- What a lexer in this state does at a character. -/
def moveAt : State → Char → Move
  | start, c => begin c
  | complete t, _ => .emit t
  | slash, '/' => .take lineComment
  | slash, '*' => .take blockComment
  | slash, _ => .keep (operator "/")
  -- the line break that ends a comment is a token of its own
  | lineComment, '\n' => .keep start
  | lineComment, _ => .take lineComment
  | blockComment, '*' => .take blockCommentStar
  | blockComment, _ => .take blockComment
  | blockCommentStar, '/' => .take start
  | blockCommentStar, '*' => .take blockCommentStar
  | blockCommentStar, _ => .take blockComment
  | zero, 'x' => .take (hex 0 0)
  | zero, 'X' => .take (hex 0 0)
  | zero, c => if c.isDigit then .keep (decimal 0) else .emit (.number 0)
  | decimal value, c =>
    if c.isDigit then
      match pushDecimal? value (.ofNat 64 (digitValue c)) with
      | some value => .take (decimal value)
      | none => .fail .overflow
    else .emit (.number value)
  | hex value digits, c =>
    if isHexDigit c then
      match pushHex? value (.ofNat 64 (digitValue c)) with
      | some value => .take (hex value (digits + 1))
      | none => .fail .overflow
    else if digits = 0 then .fail .missingDigits
    else .emit (.number value)
  | word text, c => if isWordChar c then .take (word (text.push c)) else .emit (.ofWord text)
  | operator text, c =>
    if startsOperator (text.toList ++ [c]) then .take (operator (text.push c))
    else operatorEnd text
  | mark text, '\x7d' => close text
  | mark _, '\n' => .fail .unclosedMark
  | mark text, c => .take (mark (text.push c))

/-- What a lexer in this state does at the end of the text, which it may have yielded before. -/
def moveEnd (finished : Bool) : State → Move
  | start => if finished then .stop else .finish
  | complete t => .emit t
  | slash => .keep (operator "/")
  | lineComment => .keep start
  | blockComment => .fail .unclosedComment
  | blockCommentStar => .fail .unclosedComment
  | zero => .emit (.number 0)
  | decimal value => .emit (.number value)
  | hex value digits => if digits = 0 then .fail .missingDigits else .emit (.number value)
  | word text => .emit (.ofWord text)
  | operator text => operatorEnd text
  | mark _ => .fail .unclosedMark

/-- What a lexer in this state does next. -/
def move (s : State) (finished : Bool) : Option Char → Move
  | some c => s.moveAt c
  | none => s.moveEnd finished

/-- How often a lexer can go on at the same character. -/
def rank : State → Nat
  | slash => 2
  | lineComment => 2
  | zero => 2
  | start => 1
  | _ => 0

/-! ## Going on at the same character -/

/-- A number or an operator starts at its own first character, which its state takes. -/
theorem begin_keep {c : Char} {s : State} :
    begin c = .keep s →
      c.isDigit = true ∧ s = decimal 0 ∨ startsOperator [c] = true ∧ s = operator "" := by
  -- only the two cases that keep the character are left
  fun_cases begin c with
  | case5 _ _ _ _ hdigit =>
    rintro ⟨⟩
    exact .inl ⟨hdigit, rfl⟩
  | case7 _ _ _ _ _ _ hstart =>
    rintro ⟨⟩
    exact .inr ⟨hstart, rfl⟩
  | _ => nofun

/--
Whatever starts at a character is started by taking it or by keeping it, or it is a fault. Nothing
is emitted there, since no token is empty.
-/
theorem begin_cases (c : Char) :
    (∃ s, begin c = .take s) ∨ (∃ s, begin c = .keep s) ∨ ∃ e, begin c = .fail e := by
  fun_cases begin c <;> simp

/-- What starts at a character takes it in the end, or fails there. -/
theorem moveAt_of_begin_keep {c : Char} {s : State} (h : begin c = .keep s) :
    s ≠ start ∧ ((∃ s', s.moveAt c = .take s') ∨ ∃ e, s.moveAt c = .fail e) := by
  rcases begin_keep h with ⟨hdigit, rfl⟩ | ⟨hstart, rfl⟩
  · refine ⟨nofun, ?_⟩
    rw [moveAt, if_pos hdigit]
    -- the digit is pushed, or it makes the number too large
    split
    · exact .inl ⟨_, rfl⟩
    · exact .inr ⟨_, rfl⟩
  · exact ⟨nofun, .inl ⟨operator ("".push c), if_pos hstart⟩⟩

/--
What is in braces is looked up when the closing brace has been taken, so it is done either way.
-/
theorem close_ne_keep (text : String) (s : State) : close text ≠ .keep s := by
  unfold close
  split <;> simp

theorem operatorEnd_ne_keep (text : String) (s : State) : operatorEnd text ≠ .keep s := by
  unfold operatorEnd
  split <;> simp

theorem operatorEnd_ne_take (text : String) (s : State) : operatorEnd text ≠ .take s := by
  unfold operatorEnd
  split <;> simp

/-- A state that is entered without taking a character ranks below the one before it. -/
theorem moveAt_keep {s s' : State} {c : Char} : s.moveAt c = .keep s' → s'.rank < s.rank := by
  fun_cases moveAt s c with
  | case1 =>
    intro h
    -- what starts at the character ranks lowest
    rcases begin_keep h with ⟨-, rfl⟩ | ⟨-, rfl⟩ <;> simp [rank]
  | case27 => exact fun h => absurd h (operatorEnd_ne_keep _ _)
  | case28 => exact fun h => absurd h (close_ne_keep _ _)
  | _ =>
    rintro ⟨⟩ <;> decide

/-- At the end of the text the state that is gone to ranks lower as well. -/
theorem moveEnd_keep {s s' : State} {finished : Bool} :
    s.moveEnd finished = .keep s' → s'.rank < s.rank := by
  fun_cases moveEnd finished s with
  | case13 => exact fun h => absurd h (operatorEnd_ne_keep _ _)
  | _ => rintro ⟨⟩ <;> decide

/-- So going on without a character comes to an end, wherever a lexer stands. -/
theorem move_keep {s s' : State} {finished : Bool} {c : Option Char}
    (h : s.move finished c = .keep s') : s'.rank < s.rank := by
  cases c with
  | none => exact moveEnd_keep h
  | some c => exact moveAt_keep h

/-- Nothing is taken at the end of the text. -/
theorem moveEnd_ne_take (s s' : State) (finished : Bool) : s.moveEnd finished ≠ .take s' := by
  cases s with
  | start => cases finished <;> simp [moveEnd]
  | hex value digits =>
    rw [moveEnd]
    split <;> simp
  | operator text => exact operatorEnd_ne_take text s'
  | _ => simp [moveEnd]

/-- There are at most two such steps in a row, as from a slash to an operator. -/
theorem rank_le (s : State) : s.rank ≤ 2 := by cases s <;> simp [rank]

end State

end Lexer

end Quadword
