import Quadword.Program.Basic

/-!
# Shapes of expressions

A statement performs one primitive operation, so the place where an expression stands limits its
shape. Operators inside the address of an access do not count: the address has a limit of its own.
-/

namespace Quadword

namespace Expr

/-- The number of binary operators, not counting those inside addresses. -/
def operations : Expr → Nat
  | binary _ left right => 1 + left.operations + right.operations
  | unary _ operand => operand.operations
  | _ => 0

/-- Whether the expression is a literal, the stack pointer, a region or a slot. -/
def isAtom : Expr → Bool
  | number .. | sp | base _ | slot _ => true
  | _ => false

def isIndirect : Expr → Bool
  | indirect .. => true
  | _ => false

end Expr

/-- Where an expression can stand. -/
inductive Role where
  /-- What an assignment stores. -/
  | value
  /-- The right side of a combining assignment. -/
  | operand
  /-- Either side of a comparison. -/
  | condition
  | argument
  /-- The address of an access. -/
  | address
deriving DecidableEq

namespace Role

def describe : Role → String
  | value => "an assigned value"
  | operand => "the operand of a compound assignment"
  | condition => "condition operands"
  | argument => "syscall arguments"
  | address => "legacy access addresses"

/-- Whether an expression has a shape that the role allows. -/
def admits (role : Role) (e : Expr) : Bool :=
  match role with
  | value => e.operations ≤ 1
  | operand | condition => e.operations = 0
  | argument => e.isAtom || e.isIndirect
  | address => e.isAtom

end Role

end Quadword
