import Quadword.Assembly.Error
import Quadword.Machine.Instruction

/-!
# Lowering statements

Each statement becomes a fixed sequence of instructions, on its own and without regard to its
neighbours: nothing is kept in registers from one statement to the next.

* Values are computed in `rax`. A binary operator keeps its left operand in `r10` while the right
  one is loaded into `rcx`; a division also takes `rdx`.
* The address of an access is loaded into `r11`, so loading and storing through an address disturb
  no operand.
* A call aligns the stack pointer by subtracting what it keeps in `rbx`, which a callee preserves,
  and reaches the stack of the program through `r10` once the stack pointer has moved.

The stack pointer of the program is `rsp` itself. Only the statements that set or align it write to
it, and calls, which put it back.
-/

namespace Quadword

/-! ## Operands -/

/-- How an expression reaches memory: the regions, and the register with the stack pointer. -/
structure Frame where
  addressing : Addressing
  pointer : Reg := .rsp
deriving DecidableEq

namespace Frame

def memory (f : Frame) (s : Slot) : Except LowerError Memory :=
  if s.offset.toNat ≤ Slot.maxOffset then
    match s.space with
    | .stack => .ok ⟨.reg f.pointer, s.offset.toNat, .qword⟩
    | .region r => .ok ⟨.region f.addressing r, s.offset.toNat, .qword⟩
  else .error .farOffset

def loadBase (f : Frame) (r : Region) (reg : Reg) : Instruction :=
  match f.addressing with
  | .absolute => ⟨.movabs, [reg.whole, .address r]⟩
  | .relative => ⟨.lea, [reg.whole, .mem ⟨.region .relative r, 0, .qword⟩]⟩

end Frame

/-- The memory at the address in `r11`. -/
def Width.atAddress (w : Width) : Operand := .mem ⟨.reg .r11, 0, w⟩

/-- Loads what stands at the address in `r11`; writing half a register clears its other half. -/
def Width.loadIndirect (w : Width) (reg : Reg) : Instruction :=
  match w with
  | .byte | .word => ⟨.movzx, [reg.whole, w.atAddress]⟩
  | .dword => ⟨.mov, [.reg reg .dword, w.atAddress]⟩
  | .qword => ⟨.mov, [reg.whole, w.atAddress]⟩

/-- Whether a literal can be moved as a 32-bit immediate whose sign is extended. -/
def Word.fitsImmediate (value : Word) : Bool :=
  -2147483648 ≤ value.toInt && value.toInt ≤ 2147483647

def loadNumber (value : Word) (wide : Bool) (reg : Reg) : Instruction :=
  if wide || !Word.fitsImmediate value then ⟨.movabs, [reg.whole, .imm value]⟩
  else ⟨.mov, [reg.whole, .imm value]⟩

/-! ## Operators -/

def UnOp.opcode : UnOp → Opcode
  | .neg => .neg
  | .not => .not

/-- The two operands of an instruction on `rax` and `rcx`. -/
def raxRcx : List Operand := [Reg.rax.whole, Reg.rcx.whole]

/-- The operands of a shift of `rax` by the count in `cl`. -/
def raxCl : List Operand := [Reg.rax.whole, .reg .rcx .byte]

/-- Divides `rax` by `rcx`, leaving the quotient in `rax` and the remainder in `rdx`. -/
def divide : Signedness → List Instruction
  -- the dividend is `rdx:rax`, so `rdx` has to extend `rax` first
  | .signed => [⟨.cqo, []⟩, ⟨.idiv, [Reg.rcx.whole]⟩]
  | .unsigned => [⟨.xor, [.reg .rdx .dword, .reg .rdx .dword]⟩, ⟨.div, [Reg.rcx.whole]⟩]

/-- Applies an operator to `rax` and `rcx`, with the result in `rax`. -/
def BinOp.apply : BinOp → List Instruction
  | .add => [⟨.add, raxRcx⟩]
  | .sub => [⟨.sub, raxRcx⟩]
  | .mul => [⟨.imul, raxRcx⟩]
  | .and => [⟨.and, raxRcx⟩]
  | .or => [⟨.or, raxRcx⟩]
  | .xor => [⟨.xor, raxRcx⟩]
  | .shl => [⟨.shl, raxCl⟩]
  | .shr .signed => [⟨.sar, raxCl⟩]
  | .shr .unsigned => [⟨.shr, raxCl⟩]
  | .div sign => divide sign
  | .rem sign => divide sign ++ [⟨.mov, [Reg.rax.whole, Reg.rdx.whole]⟩]

/-- An operation on what `left` leaves in `rax` and `right` leaves in `rcx`. -/
def BinOp.combine (op : BinOp) (left right : List Instruction) : List Instruction :=
  left ++ ⟨.mov, [Reg.r10.whole, Reg.rax.whole]⟩
    :: right ++ ⟨.mov, [Reg.rax.whole, Reg.r10.whole]⟩ :: op.apply

/-! ## Expressions and places -/

/--
Loads the value of an expression into a register. Only `rax` can receive the result of a binary
operator: computing one takes `rax`, `rcx` and `r10`, and these may be in use while any other
register is loaded.
-/
def Frame.load (f : Frame) : Expr → Reg → Except LowerError (List Instruction)
  | .number value wide, reg => .ok [loadNumber value wide reg]
  | .sp, reg => .ok [⟨.mov, [reg.whole, f.pointer.whole]⟩]
  | .base r, reg => .ok [f.loadBase r reg]
  | .slot s, reg => do
    let m ← f.memory s
    return [⟨.mov, [reg.whole, .mem m]⟩]
  | .indirect width address, reg => do
    -- `r11` holds no operand, so the address can go there whatever `reg` is
    let code ← f.load address .r11
    return code ++ [width.loadIndirect reg]
  | .unary op operand, reg => do
    let code ← f.load operand reg
    return code ++ [⟨op.opcode, [reg.whole]⟩]
  | .binary op left right, reg =>
    if reg = .rax then do
      let l ← f.load left .rax
      let r ← f.load right .rcx
      return op.combine l r
    else .error .misplacedOperation

def Frame.operate (f : Frame) (left : Expr) (op : BinOp) (right : Expr) :
    Except LowerError (List Instruction) :=
  f.load (.binary op left right) .rax

def Frame.store (f : Frame) : Place → Except LowerError (List Instruction)
  | .slot s =>
    if s.space = .region .const then .error .readOnlyStore
    else do
      let m ← f.memory s
      return [⟨.mov, [.mem m, Reg.rax.whole]⟩]
  | .indirect width address => do
    let code ← f.load address .r11
    return code ++ [⟨.mov, [width.atAddress, .reg .rax width]⟩]

/-- Loads an expression and stores it into a place. -/
def Frame.move (f : Frame) (target : Place) (value : Expr) :
    Except LowerError (List Instruction) := do
  let l ← f.load value .rax
  let s ← f.store target
  return l ++ s

def Frame.compare (f : Frame) (c : Condition) : Except LowerError (List Instruction) := do
  let l ← f.load c.left .rax
  let r ← f.load c.right .rcx
  return l ++ r ++ [⟨.cmp, raxRcx⟩]

/-! ## Calls -/

/-- A jump to a symbol, always or under a condition, or a call of it. -/
def jump (op : Opcode) (s : Symbol) : Instruction := ⟨op, [.target s]⟩

/-- Bytes above the stack pointer that a callee may use for the arguments held in registers. -/
def homeSpace : Nat := 32

/-- Bytes reserved on the stack for a call, enough for its arguments and a multiple of 16. -/
def shadowSpace (arguments : Nat) : Nat :=
  (homeSpace + 8 * (arguments - Reg.arguments.length) + 15) / 16 * 16

/-- Procedures that do not return, so that nothing needs to follow a call of them. -/
def nonReturning : List String := ["ExitProcess", "ExitThread", "FatalExit"]

def exitProcedure : String := "ExitProcess"

def Frame.loadArguments (f : Frame) : List (Expr × Reg) → Except LowerError (List Instruction)
  | [] => .ok []
  | (argument, reg) :: more => do
    let code ← f.load argument reg
    let codes ← f.loadArguments more
    return code ++ codes

/-- Stores arguments on the stack, the first of them in the slot with the given index. -/
def Frame.stackArguments (f : Frame) (index : Nat) :
    List Expr → Except LowerError (List Instruction)
  | [] => .ok []
  | argument :: more => do
    let code ← f.load argument .rax
    let codes ← f.stackArguments (index + 1) more
    return code
      ++ ⟨.mov, [.mem ⟨.reg .rsp, homeSpace + 8 * index, .qword⟩, Reg.rax.whole]⟩ :: codes

/-- Aligns the stack pointer and reserves the space for a call. -/
def reserve (space : Nat) : List Instruction :=
  [⟨.mov, [Reg.rbx.whole, Reg.rsp.whole]⟩,
    ⟨.and, [Reg.rbx.whole, .imm 15]⟩,
    ⟨.sub, [Reg.rsp.whole, Reg.rbx.whole]⟩,
    ⟨.sub, [Reg.rsp.whole, .imm (BitVec.ofNat 64 space)]⟩]

/-- Gives the stack pointer the value it had before the call. -/
def release (space : Nat) : List Instruction :=
  [⟨.add, [Reg.rsp.whole, .imm (BitVec.ofNat 64 space)]⟩,
    ⟨.add, [Reg.rsp.whole, Reg.rbx.whole]⟩]

/--
Calls a procedure of the host. The arguments on the stack are computed after the stack pointer has
moved, so they reach the stack of the program through `r10`.
-/
def callHost (mode : Addressing) (name : String) (arguments : List Expr) (output : Option Place) :
    Except LowerError (List Instruction) := do
  let stacked := arguments.drop Reg.arguments.length
  let space := shadowSpace arguments.length
  let registers ← Frame.loadArguments ⟨mode, .rsp⟩ (arguments.zip Reg.arguments)
  let slots ← Frame.stackArguments ⟨mode, .r10⟩ 0 stacked
  -- the slots are filled once `rsp` has moved, and `r10` has the old value then
  let saved : List Instruction :=
    if stacked.isEmpty then [] else [⟨.mov, [Reg.r10.whole, Reg.rsp.whole]⟩]
  let calling := registers ++ saved ++ reserve space ++ slots ++ [jump .call (.host name)]
  if name ∈ nonReturning then return calling
  else
    match output with
    | none => return calling ++ release space
    | some place =>
      let result ← Frame.store ⟨mode, .rsp⟩ place
      return calling ++ release space ++ result

/-! ## Statements -/

def straight (code : List Instruction) : List Line := code.map .instruction

/-- The number of labels that lowering a statement takes. -/
def Statement.labels : Statement → Nat
  | .assignIf .. => 1
  | .select .. => 2
  | _ => 0

/-- Lowers a statement; `fresh` is the number of labels that have been taken before it. -/
def Statement.lower (mode : Addressing) (fresh : Nat) : Statement → Except LowerError (List Line)
  | .label name => .ok [.label (.label name)]
  | .assign target value => do
    let code ← Frame.move ⟨mode, .rsp⟩ target value
    return straight code
  | .assignIf target value condition => do
    let compared ← Frame.compare ⟨mode, .rsp⟩ condition
    let code ← Frame.move ⟨mode, .rsp⟩ target value
    -- the jump is taken where the condition does not hold
    let skip := Symbol.numbered fresh
    return straight (compared ++ jump (.j condition.comparison.cond.inverse) skip :: code)
      ++ [.label skip]
  | .select target condition yes no => do
    let compared ← Frame.compare ⟨mode, .rsp⟩ condition
    let yesCode ← Frame.move ⟨mode, .rsp⟩ target yes
    let noCode ← Frame.move ⟨mode, .rsp⟩ target no
    let other := Symbol.numbered fresh
    let done := Symbol.numbered (fresh + 1)
    return straight (compared ++ jump (.j condition.comparison.cond.inverse) other :: yesCode
        ++ [jump .jmp done])
      ++ .label other :: straight noCode ++ [.label done]
  | .update target op value => do
    let code ← Frame.operate ⟨mode, .rsp⟩ target.read op value
    let s ← Frame.store ⟨mode, .rsp⟩ target
    return straight (code ++ s)
  | .goto target => .ok (straight [jump .jmp target.symbol])
  | .gotoIf target condition => do
    let compared ← Frame.compare ⟨mode, .rsp⟩ condition
    return straight (compared ++ [jump (.j condition.comparison.cond) target.symbol])
  | .pass count => .ok (straight (List.replicate count.toNat ⟨.nop, []⟩))
  | .setSp none value => do
    let code ← Frame.load ⟨mode, .rsp⟩ value .rax
    return straight (code ++ [⟨.mov, [Reg.rsp.whole, Reg.rax.whole]⟩])
  | .setSp (some op) value => do
    let code ← Frame.operate ⟨mode, .rsp⟩ .sp op value
    return straight (code ++ [⟨.mov, [Reg.rsp.whole, Reg.rax.whole]⟩])
  | .align boundary =>
    .ok (straight [⟨.and, [Reg.rsp.whole, .imm (-BitVec.ofNat 64 boundary)]⟩])
  | .syscall name arguments output => do
    let code ← callHost mode name arguments output
    return straight code

/-- The end of every program: its exit code is the word on top of the stack. -/
def exitSequence (mode : Addressing) : Except LowerError (List Instruction) :=
  callHost mode exitProcedure [.slot ⟨.stack, 0⟩] none

end Quadword
