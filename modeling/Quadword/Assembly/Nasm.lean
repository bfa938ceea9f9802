import Quadword.Assembly.Style

/-!
# The style of NASM

Operands are written destination first, memory operands carry their size, and comments start with a
semicolon.
-/

namespace Quadword.Nasm

/-- The word for the size of a memory operand. -/
def sizeName : Width → String
  | .byte => "byte"
  | .word => "word"
  | .dword => "dword"
  | .qword => "qword"

/-- What a displacement counts from. -/
def baseText : Base → String
  | .reg r => r.name .qword
  | .region .absolute r => (Symbol.region r).name
  | .region .relative r => "rel " ++ (Symbol.region r).name

/-- A displacement with its sign, left out if it is zero. -/
def displacementText (d : Int) : String :=
  if d = 0 then ""
  else if d < 0 then "-" ++ toString d.natAbs
  else "+" ++ toString d.natAbs

/-- A memory operand, without its size. -/
def addressText (m : Memory) : String :=
  "[" ++ baseText m.base ++ displacementText m.displacement ++ "]"

/--
An operand of an instruction. A full 64-bit immediate has to be asked for, and `lea` computes an
address without an access that could have a size.
-/
def operandText (op : Opcode) : Operand → String
  | .reg r width => r.name width
  | .imm value =>
    if op = .movabs then "strict qword " ++ toString value.toInt else toString value.toInt
  | .mem m => if op = .lea then addressText m else sizeName m.width ++ " " ++ addressText m
  | .address r => (Symbol.region r).name
  | .target s => s.name

def mnemonic : Opcode → String
  | .movabs => "mov"
  | op => op.mnemonic

def instruction (i : Instruction) : String :=
  instructionText (mnemonic i.opcode) (i.operands.map (operandText i.opcode))

def chunk : Chunk → String
  | .zero bytes => "\ttimes " ++ toString bytes ++ " db 0"
  | .quad value => "\tdq " ++ toString value.toInt

def regionSection : Region → String
  | .data => "section .data"
  | .const => "section .rdata"

/-- The lines before the first section. -/
def preamble (externals : List String) : List String :=
  ["bits 64", "global " ++ Symbol.entry.name] ++ externals.map ("extern " ++ ·)

/-- How NASM wants a listing written. -/
def style : Style where
  comment := ";"
  preamble := preamble
  regionSection := regionSection
  codeSection := "section .text"
  align bytes := "align " ++ toString bytes
  chunk := chunk
  instruction := instruction

end Quadword.Nasm
