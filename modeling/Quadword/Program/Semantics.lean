import Quadword.Machine.Ram
import Quadword.Program.Labels

/-!
# The meaning of programs

A program acts on a stack pointer and a flat memory. Arithmetic is on 64-bit words and wraps around,
shift counts are taken modulo 64, and a division without a representable result is a fault. The
regions stand at fixed addresses, which are a parameter: nothing depends on which ones they are.

A call of the host is outside of what is described here; `Effect.host` marks it.
-/

namespace Quadword

/-! ## Operators -/

namespace BinOp

/-- Whether a signed division has no representable quotient. -/
def divisionFaults (a b : Word) : Bool := b = 0 || (a = BitVec.intMin 64 && b = -1)

/-- The result of an operator, or `none` if it faults. -/
def eval : BinOp → Word → Word → Option Word
  | add, a, b => some (a + b)
  | sub, a, b => some (a - b)
  | mul, a, b => some (a * b)
  | div .signed, a, b => if divisionFaults a b then none else some (a.sdiv b)
  | div .unsigned, a, b => if b = 0 then none else some (a.udiv b)
  | rem .signed, a, b => if divisionFaults a b then none else some (a.srem b)
  | rem .unsigned, a, b => if b = 0 then none else some (a.umod b)
  | and, a, b => some (a &&& b)
  | or, a, b => some (a ||| b)
  | xor, a, b => some (a ^^^ b)
  | shl, a, b => some (a <<< (b.toNat % 64))
  | shr .signed, a, b => some (a.sshiftRight (b.toNat % 64))
  | shr .unsigned, a, b => some (a >>> (b.toNat % 64))

end BinOp

def UnOp.eval : UnOp → Word → Word
  | .neg, a => -a
  | .not, a => ~~~a

def Comparison.holds : Comparison → Word → Word → Bool
  | .eq, a, b => a = b
  | .ne, a, b => a ≠ b
  | .lt .signed, a, b => a.slt b
  | .lt .unsigned, a, b => a.ult b
  | .le .signed, a, b => a.sle b
  | .le .unsigned, a, b => a.ule b
  | .gt .signed, a, b => b.slt a
  | .gt .unsigned, a, b => b.ult a
  | .ge .signed, a, b => b.sle a
  | .ge .unsigned, a, b => b.ule a

/-! ## Expressions and places -/

/-- Where the regions stand. -/
abbrev Bases := Region → Word

structure State where
  sp : Word
  ram : Ram

def Slot.address (s : Slot) (bases : Bases) (sp : Word) : Word :=
  match s.space with
  | .stack => sp + s.offset
  | .region r => bases r + s.offset

/-- The value of an expression, or `none` if it faults. -/
def Expr.eval (bases : Bases) (st : State) : Expr → Option Word
  | .number value _ => some value
  | .sp => some st.sp
  | .base r => some (bases r)
  | .slot s => some (st.ram.read .qword (s.address bases st.sp))
  | .indirect width address => do
    let a ← address.eval bases st
    return st.ram.read width a
  | .binary op left right => do
    let a ← left.eval bases st
    let b ← right.eval bases st
    op.eval a b
  | .unary op operand => do
    let a ← operand.eval bases st
    return op.eval a

/-- Stores a value into a place, or `none` if computing the address faults. -/
def Place.assign (bases : Bases) (st : State) (v : Word) : Place → Option State
  | .slot s => some { st with ram := st.ram.write .qword (s.address bases st.sp) v }
  | .indirect width address => do
    let a ← address.eval bases st
    return { st with ram := st.ram.write width a v }

/-- Whether a condition holds, or `none` if it faults. -/
def Condition.eval (bases : Bases) (st : State) (c : Condition) : Option Bool := do
  let a ← c.left.eval bases st
  let b ← c.right.eval bases st
  return c.comparison.holds a b

/-! ## Statements -/

inductive Effect where
  | next (st : State)
  | jump (d : Destination) (st : State)
  | fault
  /-- The host takes over. -/
  | host

def Effect.ofOption : Option State → Effect
  | some st => .next st
  | none => .fault

def Statement.exec (bases : Bases) (st : State) : Statement → Effect
  | .label _ => .next st
  | .assign target value => .ofOption do
    let v ← value.eval bases st
    target.assign bases st v
  | .assignIf target value condition => .ofOption do
    if ← condition.eval bases st then
      let v ← value.eval bases st
      target.assign bases st v
    else return st
  | .select target condition yes no => .ofOption do
    let v ← (if ← condition.eval bases st then yes else no).eval bases st
    target.assign bases st v
  | .update target op value => .ofOption do
    let v ← (Expr.binary op target.read value).eval bases st
    target.assign bases st v
  | .goto target => .jump target st
  | .gotoIf target condition =>
    match condition.eval bases st with
    | some true => .jump target st
    | some false => .next st
    | none => .fault
  | .pass _ => .next st
  | .setSp none value => .ofOption do
    let v ← value.eval bases st
    return { st with sp := v }
  | .setSp (some op) value => .ofOption do
    let v ← (Expr.binary op .sp value).eval bases st
    return { st with sp := v }
  | .align boundary => .next { st with sp := st.sp &&& -BitVec.ofNat 64 boundary }
  | .syscall .. => .host

/-! ## Programs -/

/-- A point of a program's execution: the index of the next statement, and the state before it. -/
structure Point where
  index : Nat
  state : State

/-- The index of the statement at a destination; the end comes after the last statement. -/
def Destination.index? (ss : List Statement) : Destination → Option Nat
  | .label name => ss.findIdx? fun s => s = .label name
  | .finish => some ss.length

inductive Progress where
  | point (p : Point)
  /-- There are no more statements. -/
  | finished
  | fault
  | host

/-- One step of the program with the given statements. -/
def Point.step (ss : List Statement) (bases : Bases) (p : Point) : Progress :=
  match ss[p.index]? with
  | none => .finished
  | some s =>
    match s.exec bases p.state with
    | .next st => .point ⟨p.index + 1, st⟩
    | .jump d st =>
      match d.index? ss with
      | some i => .point ⟨i, st⟩
      | none => .fault
    | .fault => .fault
    | .host => .host

end Quadword
