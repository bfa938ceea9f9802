import Quadword.Machine.Instruction
import Quadword.Machine.Ram
import Quadword.Program.Semantics

/-!
# The meaning of instructions

A processor acts on registers, flags and a flat memory. Only comparisons are read back from the
flags, so how other instructions leave the flags is a parameter (`Leftover`): whatever holds for all
choices of it holds for the processor, which documents some of them and leaves others undefined.
-/

namespace Quadword

/-! ## Flags -/

/-- The flags that conditional jumps depend on. -/
structure Flags where
  zero : Bool
  carry : Bool
  sign : Bool
  overflow : Bool

def Flags.ofCompare (a b : Word) : Flags where
  zero := a = b
  carry := a.ult b
  sign := (a - b).msb
  overflow := a.msb ≠ b.msb && (a - b).msb ≠ a.msb

def Cond.holds (f : Flags) : Cond → Bool
  | .e => f.zero
  | .ne => !f.zero
  | .l => f.sign ≠ f.overflow
  | .ge => f.sign = f.overflow
  | .le => f.zero || f.sign ≠ f.overflow
  | .g => !f.zero && f.sign = f.overflow
  | .b => f.carry
  | .ae => !f.carry
  | .be => f.carry || f.zero
  | .a => !f.carry && !f.zero

/-! ## Registers and operands -/

structure Machine where
  regs : Reg → Word
  flags : Flags
  ram : Ram

/-- How instructions that are not comparisons leave the flags. -/
abbrev Leftover := Instruction → Machine → Flags

/-- The low part of a word, filled up with zeros. -/
def Word.low (v : Word) (w : Width) : Word := (v.setWidth w.bits).setWidth 64

namespace Machine

def set (m : Machine) (r : Reg) (v : Word) : Machine :=
  { m with regs := fun s => if s = r then v else m.regs s }

/-- Writes the low part of a register. A write of half a register clears its other half. -/
def setLow (m : Machine) (r : Reg) (w : Width) (v : Word) : Machine :=
  match w with
  | .qword => m.set r v
  | .dword => m.set r (Word.low v .dword)
  -- narrower writes leave the rest of the register alone
  | .word => m.set r ((m.regs r &&& ~~~0xFFFF) ||| Word.low v .word)
  | .byte => m.set r ((m.regs r &&& ~~~0xFF) ||| Word.low v .byte)

def addressOf (m : Machine) (bases : Bases) (mem : Memory) : Word :=
  match mem.base with
  | .reg r => m.regs r + BitVec.ofInt 64 mem.displacement
  | .region _ r => bases r + BitVec.ofInt 64 mem.displacement

/-- The value of an operand; a target has none. -/
def value? (m : Machine) (bases : Bases) : Operand → Option Word
  | .reg r w => some (Word.low (m.regs r) w)
  | .imm v => some v
  | .mem mem => some (m.ram.read mem.width (m.addressOf bases mem))
  | .address r => some (bases r)
  | .target _ => none

/-- Writes an operand; only registers and memory can be written. -/
def assign? (m : Machine) (bases : Bases) (v : Word) : Operand → Option Machine
  | .reg r w => some (m.setLow r w v)
  | .mem mem => some { m with ram := m.ram.write mem.width (m.addressOf bases mem) v }
  | _ => none

end Machine

/-! ## Instructions -/

inductive Result where
  | next (m : Machine)
  /-- The instruction after a symbol follows. -/
  | jump (s : Symbol) (m : Machine)
  /-- The procedure at a symbol is called. -/
  | call (s : Symbol) (m : Machine)
  /-- The processor reports a division that has no result. -/
  | fault
  /-- The operands do not suit the opcode. -/
  | malformed

/-- The next instruction follows, unless there was no result. -/
def Result.ofOption : Option Machine → Result
  | some m => .next m
  | none => .malformed

namespace Opcode

/-- What an instruction with a destination and a source computes from their values. -/
def combine? : Opcode → Option (Word → Word → Word)
  | add => some fun a b => a + b
  | sub => some fun a b => a - b
  | imul => some fun a b => a * b
  | and => some fun a b => a &&& b
  | or => some fun a b => a ||| b
  | xor => some fun a b => a ^^^ b
  | _ => none

/-- What an instruction that shifts a whole register computes from its value and the count. -/
def shift? : Opcode → Option (Word → Word → Word)
  | shl => some fun a b => a <<< (b.toNat % 64)
  | sar => some fun a b => a.sshiftRight (b.toNat % 64)
  | shr => some fun a b => a >>> (b.toNat % 64)
  | _ => none

/-- What an instruction with one operand computes from its value. -/
def alter? : Opcode → Option (Word → Word)
  | neg => some fun a => -a
  | not => some fun a => ~~~a
  | _ => none

end Opcode

namespace Machine

/-- The signed quotient and remainder of `rdx:rax`, or `none` if the quotient is too large. -/
def signedDivide? (m : Machine) (b : Word) : Option (Word × Word) :=
  let dividend := (m.regs .rdx ++ m.regs .rax).toInt
  let quotient := dividend.tdiv b.toInt
  if b = 0 || quotient < -9223372036854775808 || 9223372036854775807 < quotient then none
  else some (BitVec.ofInt 64 quotient, BitVec.ofInt 64 (dividend.tmod b.toInt))

/-- The unsigned quotient and remainder of `rdx:rax`, or `none` if the quotient is too large. -/
def unsignedDivide? (m : Machine) (b : Word) : Option (Word × Word) :=
  let dividend := (m.regs .rdx ++ m.regs .rax).toNat
  let quotient := dividend / b.toNat
  if b = 0 || 18446744073709551615 < quotient then none
  else some (BitVec.ofNat 64 quotient, BitVec.ofNat 64 (dividend % b.toNat))

/-- Puts a quotient and a remainder where divisions leave them. -/
def divided (m : Machine) : Option (Word × Word) → Result
  | some (quotient, remainder) => .next ((m.set .rax quotient).set .rdx remainder)
  | none => .fault

/-- Executes an instruction, leaving the flags alone unless it is a comparison. -/
def execute (m : Machine) (bases : Bases) (i : Instruction) : Result :=
  match i.opcode, i.operands with
  | .mov, [d, s] | .movabs, [d, s] | .movzx, [d, s] => .ofOption do
    let v ← m.value? bases s
    m.assign? bases v d
  | .lea, [d, .mem mem] => .ofOption (m.assign? bases (m.addressOf bases mem) d)
  | .cqo, [] => .next (m.set .rdx (if (m.regs .rax).msb then -1 else 0))
  | .idiv, [.reg r .qword] => m.divided (m.signedDivide? (m.regs r))
  | .div, [.reg r .qword] => m.divided (m.unsignedDivide? (m.regs r))
  | .cmp, [.reg a .qword, .reg b .qword] =>
    .next { m with flags := .ofCompare (m.regs a) (m.regs b) }
  | .jmp, [.target s] => .jump s m
  | .j c, [.target s] => if c.holds m.flags then .jump s m else .next m
  | .call, [.target s] => .call s m
  | .nop, [] => .next m
  | op, [d] => .ofOption do
    let f ← op.alter?
    let v ← m.value? bases d
    m.assign? bases (f v) d
  -- a count in `cl` tells a shift from the other instructions with two operands
  | op, [.reg r .qword, .reg .rcx .byte] => .ofOption do
    let f ← op.shift?
    return m.set r (f (m.regs r) (Word.low (m.regs .rcx) .byte))
  | op, [d, s] => .ofOption do
    let f ← op.combine?
    let a ← m.value? bases d
    let b ← m.value? bases s
    m.assign? bases (f a b) d
  | _, _ => .malformed

end Machine

/-- Whether an opcode leaves the flags in a state that is read back, or leaves them alone. -/
def Opcode.definesFlags : Opcode → Bool
  | mov | movabs | movzx | lea | not | cqo | cmp | jmp | j _ | call | nop => true
  | _ => false

def Instruction.exec (i : Instruction) (leftover : Leftover) (bases : Bases) (m : Machine) :
    Result :=
  match m.execute bases i with
  | .next m' =>
    if i.opcode.definesFlags then .next m' else .next { m' with flags := leftover i m }
  | result => result

/-- Executes instructions one after the other, up to the first that does not lead to the next. -/
def execAll (leftover : Leftover) (bases : Bases) : List Instruction → Machine → Result
  | [], m => .next m
  | i :: is, m =>
    match i.exec leftover bases m with
    | .next m' => execAll leftover bases is m'
    | result => result

/-! ## Code -/

/-- A point in the execution of code: the index of the next line, and the machine before it. -/
structure CodePoint where
  index : Nat
  machine : Machine

inductive CodeProgress where
  | point (p : CodePoint)
  /-- The host takes over, and returns to the next line if it returns. -/
  | call (s : Symbol) (p : CodePoint)
  | fault
  /-- There is no next line, or it cannot be executed. -/
  | stuck

/-- One step of code. A label does nothing. -/
def CodePoint.step (code : List Line) (leftover : Leftover) (bases : Bases) (p : CodePoint) :
    CodeProgress :=
  match code[p.index]? with
  | none => .stuck
  | some (.label _) => .point { p with index := p.index + 1 }
  | some (.instruction i) =>
    match i.exec leftover bases p.machine with
    | .next m => .point ⟨p.index + 1, m⟩
    | .jump s m =>
      match code.findIdx? fun l => l = .label s with
      | some index => .point ⟨index, m⟩
      | none => .stuck
    | .call s m => .call s ⟨p.index + 1, m⟩
    | .fault => .fault
    | .malformed => .stuck

end Quadword
