import Quadword.Text.Position
import Quadword.Program.Parser.Error

/-!
# Reading tokens

A parser reads tokens from the front of a list and either produces a value or fails with a located
error. It also keeps the span of the token read last: that is where a failure is reported, and where
the span of what was just read ends.
-/

namespace Quadword

/-- The tokens still to be read, and the span of the last one that was. -/
structure Cursor where
  tokens : List (Located Token)
  last : Span

/-- A computation that reads tokens. -/
abbrev Parser := StateT Cursor (Except (Located ParseError))

namespace Parser

variable {α : Type}

/-- Fails at the token read last. -/
def fail (e : ParseError) : Parser α := fun c => .error ⟨e, c.last⟩

/-- The next token, which stays unread. -/
def peek : Parser Token := fun c =>
  match c.tokens with
  | [] => .error ⟨.abruptEnd, c.last⟩
  | t :: _ => .ok (t.value, c)

/-- The span of the next token, or that of the last one if there is no next. -/
def peekSpan : Parser Span := fun c =>
  match c.tokens with
  | [] => .ok (c.last, c)
  | t :: _ => .ok (t.span, c)

def next : Parser Token := fun c =>
  match c.tokens with
  | [] => .error ⟨.abruptEnd, c.last⟩
  | t :: ts => .ok (t.value, ⟨ts, t.span⟩)

/-- Reads the next token if it is `t`, and says whether it was. -/
def accept (t : Token) : Parser Bool := fun c =>
  match c.tokens with
  | [] => .ok (false, c)
  | u :: us => if u.value = t then .ok (true, ⟨us, u.span⟩) else .ok (false, c)

/-- Reads the next token, which has to be `t`. -/
def expect (t : Token) : Parser Unit := do
  let found ← next
  if found = t then pure () else fail (.expected (.token t) found)

/-- Reads with `p` if `p` succeeds, and reads nothing otherwise. -/
def attempt (p : Parser α) : Parser (Option α) := fun c =>
  match p c with
  | .ok (a, c') => .ok (some a, c')
  | .error _ => .ok (none, c)

/-- The number of tokens still to be read, which bounds how often anything can be repeated. -/
def remaining : Parser Nat := fun c => .ok (c.tokens.length, c)

/-- Adds the span of the tokens that `p` reads. -/
def spanned (p : Parser α) : Parser (Located α) := do
  let start ← peekSpan
  let a ← p
  let c ← get
  pure ⟨a, start.join c.last⟩

def identifier : Parser String := do
  match ← next with
  | .id name => pure name
  | found => fail (.expected .identifier found)

def literal : Parser Word := do
  match ← next with
  | .number value => pure value
  | found => fail (.expected .literal found)

/-- The cursor after the line breaks at the front of `tokens`. -/
def afterNewlines (last : Span) : List (Located Token) → Cursor
  | [] => ⟨[], last⟩
  | t :: ts => if t.value = .newline then afterNewlines t.span ts else ⟨t :: ts, last⟩

def skipNewlines : Parser Unit := modify fun c => afterNewlines c.last c.tokens

end Parser

end Quadword
