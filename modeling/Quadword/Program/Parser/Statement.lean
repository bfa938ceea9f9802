import Quadword.Program.Parser.Expression

/-!
# Reading statements

The first token of a statement tells its kind. An assignment is told apart further by what follows
its target: a call, a choice between two values, or a single value.
-/

namespace Quadword

namespace Parser

def condition : Parser Condition := do
  let left ← operand .condition
  match ← next with
  | .compare comparison =>
    let right ← operand .condition
    pure ⟨left, comparison, right⟩
  | found => fail (.expected .comparison found)

def writableSlot : Parser Place := do
  let s ← spanned slot
  if s.value.space = .region .const then throw ⟨.readOnly, s.span⟩ else pure (.slot s.value)

def place : Parser Place := do
  match ← peek with
  | .id name =>
    match Width.ofName? name with
    | some width =>
      let address ← indirect expression
      pure (.indirect width address)
    | none => writableSlot
  | _ => writableSlot

/-- Reads a label, from its `#` on. -/
def label : Parser Statement := do
  let _ ← next
  let name ← identifier
  pure (.label name)

def destination : Parser Destination := do
  match ← next with
  | .keyword .finish => pure .finish
  | .id name => pure (.label name)
  | found => fail (.expected .destination found)

def goto : Parser Statement := do
  let _ ← next
  let target ← destination
  if ← accept (.keyword .cond) then
    let c ← condition
    pure (.gotoIf target c)
  else pure (.goto target)

def pass : Parser Statement := do
  let _ ← next
  if ← accept (.binary .mul) then
    let count ← literal
    pure (.pass count)
  else pure (.pass 1)

/-- Reads an alignment of the stack pointer, from its keyword on. -/
def align : Parser Statement := do
  let _ ← next
  let boundary ← literal
  if boundary = 8 then pure (.align 8)
  else if boundary = 16 then pure (.align 16)
  else fail (.badAlignment boundary)

/-- Reads the arguments of a call, at most `bound` of them. -/
def arguments : Nat → Parser (List Expr)
  | 0 => pure []
  | bound + 1 => do
    if ← accept .comma then
      let a ← operand .argument
      let as ← arguments bound
      pure (a :: as)
    else pure []

def syscall (output : Option Place) : Parser Statement := do
  let _ ← next
  let name ← identifier
  let bound ← remaining
  let as ← arguments bound
  pure (.syscall name as output)

/-- Reads a change of the stack pointer, from its keyword on. -/
def setSp : Parser Statement := do
  let _ ← next
  match ← next with
  | .assign =>
    let value ← operand .value
    pure (.setSp none value)
  | .compound op =>
    let value ← operand .operand
    pure (.setSp (some op) value)
  | found => fail (.expected .assignment found)

/-- Reads what comes before the two values of a choice: a condition in parentheses and a `?`. -/
def selector : Parser Condition := do
  expect .openParen
  let c ← condition
  expect .closeParen
  expect .question
  pure c

/--
Reads the value that an assignment to `target` stores. A parenthesis may open a choice as well as an
expression, so the choice is tried first.
-/
def chosen (target : Place) : Parser Statement := do
  match ← attempt selector with
  | some c =>
    let yes ← operand .value
    expect .colon
    let no ← operand .value
    pure (.select target c yes no)
  | none =>
    let value ← operand .value
    if ← accept (.keyword .cond) then
      let c ← condition
      pure (.assignIf target value c)
    else pure (.assign target value)

/-- Reads what an assignment to `target` stores: the result of a call, or a value. -/
def assigned (target : Place) : Parser Statement := do
  match ← peek with
  | .keyword .syscall => syscall (some target)
  | _ => chosen target

/-- Reads a statement that stores to memory. -/
def store : Parser Statement := do
  let target ← place
  match ← next with
  | .compound op =>
    let value ← operand .operand
    pure (.update target op value)
  | .assign => assigned target
  | found => fail (.expected .assignment found)

def statement : Parser Statement := do
  match ← peek with
  | .hash => label
  | .keyword .goto => goto
  | .keyword .pass => pass
  | .keyword .align => align
  | .keyword .syscall => syscall none
  | .keyword .sp => setSp
  | .openSquare | .id _ => store
  | found =>
    let _ ← next
    fail (.expected .statement found)

/-- Reads the end of a statement's line; the end of the text ends a line too, and stays unread. -/
def terminator : Parser Unit := do
  match ← peek with
  | .eof => pure ()
  | .newline =>
    let _ ← next
    pure ()
  | found =>
    let _ ← next
    fail (.expected .lineEnd found)

end Parser

end Quadword
