import Quadword.Program.Basic

/-!
# Instructions

The part of the x86-64 instruction set that statements are lowered to. An instruction is an opcode
and its operands, destination first, whatever order an assembler wants them in.
-/

namespace Quadword

/-- The general registers that lowering makes use of. -/
inductive Reg where
  | rax
  | rbx
  | rcx
  | rdx
  | rsp
  | r8
  | r9
  | r10
  | r11
deriving DecidableEq

namespace Reg

/-- The registers that hold the first arguments of a call, in order. -/
def arguments : List Reg := [rcx, rdx, r8, r9]

/-- The name of a part of a register that is called by a letter. -/
def letterName (letter : String) : Width → String
  | .qword => "r" ++ letter ++ "x"
  | .dword => "e" ++ letter ++ "x"
  | .word => letter ++ "x"
  | .byte => letter ++ "l"

/-- The name of a part of a register that is called by a number. -/
def numberName (name : String) : Width → String
  | .qword => name
  | .dword => name ++ "d"
  | .word => name ++ "w"
  | .byte => name ++ "b"

def name : Reg → Width → String
  | rax, w => letterName "a" w
  | rbx, w => letterName "b" w
  | rcx, w => letterName "c" w
  | rdx, w => letterName "d" w
  | rsp, .qword => "rsp"
  | rsp, .dword => "esp"
  | rsp, .word => "sp"
  | rsp, .byte => "spl"
  | r8, w => numberName "r8" w
  | r9, w => numberName "r9" w
  | r10, w => numberName "r10" w
  | r11, w => numberName "r11" w

end Reg

/-- How the static regions are reached. -/
inductive Addressing where
  /-- By their absolute address, which has to fit a 32-bit displacement. -/
  | absolute
  /-- By their distance from the next instruction. -/
  | relative
deriving DecidableEq

/-- What the displacement of a memory operand counts from. -/
inductive Base where
  | reg (r : Reg)
  | region (mode : Addressing) (r : Region)
deriving DecidableEq

structure Memory where
  base : Base
  displacement : Int
  width : Width
deriving DecidableEq

/-- The names that code defines or refers to. -/
inductive Symbol where
  /-- Where execution starts. -/
  | entry
  /-- Where the exit sequence starts. -/
  | finish
  | region (r : Region)
  | label (name : String)
  /-- A label that lowering needs inside a statement. -/
  | generated (index : Nat)
  | host (name : String)
deriving DecidableEq

def Symbol.name : Symbol → String
  | .entry => "_start"
  | .finish => "kair_end"
  | .region .data => "kair_data"
  | .region .const => "kair_const"
  | .label name => "kair_L_" ++ name
  | .generated index => "kair_G" ++ toString index
  | .host name => name

/--
The label that lowering generates when it has generated `taken` others. They are counted in 32 bits,
so the names start again when all numbers have been used.
-/
def Symbol.numbered (taken : Nat) : Symbol := .generated (taken % 4294967296)

/--
A number that 32 bits can hold is the one in the symbol. Beyond that the numbers start over again.
-/
theorem Symbol.numbered_of_lt {taken : Nat} (h : taken < 4294967296) :
    numbered taken = .generated taken := by
  rw [numbered, Nat.mod_eq_of_lt h]

/-- Two labels in a row differ, also where the numbers start again. -/
theorem Symbol.numbered_succ_ne (taken : Nat) : numbered (taken + 1) ≠ numbered taken := by
  rw [numbered, numbered, Ne, Symbol.generated.injEq]
  omega

/-- The symbol at which a jump lands. -/
def Destination.symbol : Destination → Symbol
  | .label name => .label name
  | .finish => .finish

inductive Operand where
  | reg (r : Reg) (width : Width)
  | imm (value : Word)
  | mem (m : Memory)
  /-- The address of a region, as an immediate. -/
  | address (r : Region)
  | target (s : Symbol)
deriving DecidableEq

def Reg.whole (r : Reg) : Operand := .reg r .qword

inductive Cond where
  | e
  | ne
  | l
  | ge
  | le
  | g
  | b
  | ae
  | be
  | a
deriving DecidableEq

namespace Cond

def inverse : Cond → Cond
  | e => ne
  | ne => e
  | l => ge
  | ge => l
  | le => g
  | g => le
  | b => ae
  | ae => b
  | be => a
  | a => be

/-- How a mnemonic ends that depends on the condition. -/
def suffix : Cond → String
  | e => "e"
  | ne => "ne"
  | l => "l"
  | ge => "ge"
  | le => "le"
  | g => "g"
  | b => "b"
  | ae => "ae"
  | be => "be"
  | a => "a"

@[simp] theorem inverse_inverse (c : Cond) : c.inverse.inverse = c := by cases c <;> rfl

end Cond

/-- The condition that tests a comparison after the operands have been compared. -/
def Comparison.cond : Comparison → Cond
  | .eq => .e
  | .ne => .ne
  | .lt .signed => .l
  | .ge .signed => .ge
  | .le .signed => .le
  | .gt .signed => .g
  | .lt .unsigned => .b
  | .ge .unsigned => .ae
  | .le .unsigned => .be
  | .gt .unsigned => .a

inductive Opcode where
  | mov
  /-- Moves a full 64-bit immediate. -/
  | movabs
  /-- Loads less than a word and fills it up with zeros. -/
  | movzx
  | lea
  | add
  | sub
  | imul
  | and
  | or
  | xor
  | shl
  | sar
  | shr
  | neg
  | not
  /-- Extends the sign of `rax` into `rdx`. -/
  | cqo
  | idiv
  | div
  | cmp
  | jmp
  | j (c : Cond)
  | call
  | nop
deriving DecidableEq

def Opcode.mnemonic : Opcode → String
  | mov => "mov"
  | movabs => "movabs"
  | movzx => "movzx"
  | lea => "lea"
  | add => "add"
  | sub => "sub"
  | imul => "imul"
  | and => "and"
  | or => "or"
  | xor => "xor"
  | shl => "shl"
  | sar => "sar"
  | shr => "shr"
  | neg => "neg"
  | not => "not"
  | cqo => "cqo"
  | idiv => "idiv"
  | div => "div"
  | cmp => "cmp"
  | jmp => "jmp"
  | j c => "j" ++ c.suffix
  | call => "call"
  | nop => "nop"

/-- An instruction, its operands with the destination first. -/
structure Instruction where
  opcode : Opcode
  operands : List Operand
deriving DecidableEq

/-- A line of code: the definition of a symbol, or an instruction. -/
inductive Line where
  | label (s : Symbol)
  | instruction (i : Instruction)
deriving DecidableEq

end Quadword
