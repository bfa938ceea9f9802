import Quadword.Assembly.Style

/-!
# The style of the GNU assembler

Operands are written destination last and carry a mark of their kind, the size of a zero-extending
load is part of its mnemonic, and comments start with a hash. Procedures of the host need no
declaration.
-/

namespace Quadword.Gas

/-- A displacement that is added to a symbol, left out if it is zero. -/
def displacementText (d : Int) : String :=
  if d = 0 then ""
  else if d < 0 then toString d
  else "+" ++ toString d

def memoryText (m : Memory) : String :=
  match m.base with
  | .reg r =>
    (if m.displacement = 0 then "" else toString m.displacement) ++ "(%" ++ r.name .qword ++ ")"
  | .region .absolute r => (Symbol.region r).name ++ displacementText m.displacement
  | .region .relative r => (Symbol.region r).name ++ displacementText m.displacement ++ "(%rip)"

def operandText : Operand → String
  | .reg r width => "%" ++ r.name width
  | .imm value => "$" ++ toString value.toInt
  | .mem m => memoryText m
  | .address r => "$" ++ (Symbol.region r).name
  | .target s => s.name

def mnemonic (i : Instruction) : String :=
  match i.opcode, i.operands with
  | .movzx, [_, .mem ⟨_, _, .byte⟩] => "movzbq"
  | .movzx, _ => "movzwq"
  | .cqo, _ => "cqto"
  | op, _ => op.mnemonic

def instruction (i : Instruction) : String :=
  instructionText (mnemonic i) (i.operands.reverse.map operandText)

def chunk : Chunk → String
  | .zero bytes => "\t.zero " ++ toString bytes
  | .quad value => "\t.quad " ++ toString value.toInt

def regionSection : Region → String
  | .data => "\t.section .data"
  | .const => "\t.section .rdata,\"dr\""

/-- How the GNU assembler wants a listing written. -/
def style : Style where
  comment := "#"
  preamble _ := ["\t.code64", "\t.globl " ++ Symbol.entry.name]
  regionSection := regionSection
  codeSection := "\t.text"
  align bytes := "\t.balign " ++ toString bytes
  chunk := chunk
  instruction := instruction

end Quadword.Gas
