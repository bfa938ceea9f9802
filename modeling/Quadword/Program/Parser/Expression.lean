import Quadword.Program.Parser.Basic

/-!
# Reading expressions

An expression is a run of operands joined by binary operators, grouped to the left without any
precedence. An operand is an atom, an access through an address, or an expression in parentheses,
with any number of unary operators before it.

Nesting is bounded by the number of tokens: every level reads at least one of its own. So a parser
that runs out of depth has no token left, and fails just as it would for lack of one.
-/

namespace Quadword

/-- The base that a one-letter reference such as `s[8]` counts from. -/
def Space.ofLetter? (name : String) : Option Space :=
  if name = "s" then some .stack
  else if name = "d" then some (.region .data)
  else if name = "c" then some (.region .const)
  else none

/-- The width that the name of an access through an address stands for. -/
def Width.ofName? (name : String) : Option Width :=
  if name = "m8" then some .byte
  else if name = "m16" then some .word
  else if name = "m32" then some .dword
  else if name = "m64" then some .qword
  else none

namespace Parser

def offset : Parser Word := do
  let value ← literal
  if value.toNat ≤ Slot.maxOffset then pure value else fail (.badOffset value)

/-- Reads the base of a reference in brackets. -/
def space : Parser Space := do
  match ← next with
  | .keyword .sp => pure .stack
  | .keyword .data => pure (.region .data)
  | .keyword .const => pure (.region .const)
  | found => fail (.expected .space found)

/-- Reads the offset of a reference in brackets, which is zero if it is left out. -/
def optionalOffset : Parser Word := do
  if ← accept (.binary .add) then offset else pure 0

/-- Reads a slot, as `[base+offset]` or with the base shortened to a letter. -/
def slot : Parser Slot := do
  match ← next with
  | .openSquare =>
    let space ← space
    let offset ← optionalOffset
    expect .closeSquare
    pure ⟨space, offset⟩
  | .id name =>
    match Space.ofLetter? name with
    | some space =>
      expect .openSquare
      let offset ← offset
      expect .closeSquare
      pure ⟨space, offset⟩
    -- the name is reported as the token that was found
    | none => fail (.expected .reference (.id name))
  | found => fail (.expected .reference found)

/-- Reads an expression with `p` and checks that its role allows its shape. -/
def constrain (role : Role) (p : Parser (Located Expr)) : Parser Expr := do
  let e ← p
  if role.admits e.value then pure e.value else throw ⟨.shape role, e.span⟩

/-- Reads an access through an address, from its name on; `nested` reads the address. -/
def indirect (nested : Parser (Located Expr)) : Parser Expr := do
  let _ ← next
  expect .openSquare
  let address ← constrain .address nested
  expect .closeSquare
  pure address

/-- Reads an operand without unary operators; `nested` reads an expression inside it. -/
def primary (nested : Parser (Located Expr)) : Parser Expr := do
  match ← peek with
  | .number value =>
    let _ ← next
    let wide ← accept .wide
    pure (.number value wide)
  | .keyword .sp =>
    let _ ← next
    pure .sp
  | .keyword .data =>
    let _ ← next
    pure (.base .data)
  | .keyword .const =>
    let _ ← next
    pure (.base .const)
  | .openParen =>
    let _ ← next
    let e ← nested
    expect .closeParen
    pure e.value
  | .openSquare =>
    let s ← slot
    pure (.slot s)
  | .id name =>
    match Width.ofName? name with
    | some width =>
      let address ← indirect nested
      pure (.indirect width address)
    | none =>
      let s ← slot
      pure (.slot s)
  | found =>
    let _ ← next
    fail (.expected .expression found)

/-- Reads the operators and operands that follow `left`, at most `bound` of them. -/
def operations (operand : Parser Expr) : Nat → Expr → Parser Expr
  | 0, _ => fail .abruptEnd
  | bound + 1, left => do
    match ← peek with
    | .binary op =>
      let _ ← next
      let right ← operand
      operations operand bound (.binary op left right)
    | _ => pure left

/-- Reads a run of operands joined by binary operators. -/
def chain (operand : Parser Expr) (bound : Nat) : Parser (Located Expr) :=
  spanned do
    let first ← operand
    operations operand bound first

/-- Reads an operand with any unary operators before it, nested at most `depth` levels deep. -/
def unary : Nat → Parser Expr
  | 0 => fail .abruptEnd
  | depth + 1 => do
    match ← peek with
    | .binary .sub =>
      let _ ← next
      let e ← unary depth
      pure (.unary .neg e)
    | .tilde =>
      let _ ← next
      let e ← unary depth
      pure (.unary .not e)
    | _ => primary (chain (unary depth) depth)

def expression : Parser (Located Expr) := do
  let depth ← remaining
  chain (unary depth) depth

def operand (role : Role) : Parser Expr := constrain role expression

end Parser

end Quadword
