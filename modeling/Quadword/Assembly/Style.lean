import Quadword.Assembly.Listing
import Quadword.Program.Printer

/-!
# The text of listings

Assemblers agree on the order of a listing and differ in how its pieces are written. A `Style` holds
those differences; the lines of a listing are the same for every style.
-/

namespace Quadword

/-- How an assembler wants the pieces of a listing written, each on one line. -/
structure Style where
  comment : String
  /-- The lines before the first section, given the procedures of the host that are called. -/
  preamble : List String → List String
  regionSection : Region → String
  codeSection : String
  /-- Goes on at the next multiple of a number of bytes. -/
  align : Nat → String
  chunk : Chunk → String
  instruction : Instruction → String

def padRight (width : Nat) (text : String) : String :=
  text ++ String.ofList (List.replicate (width - text.length) ' ')

/-- An instruction with its operands in the order in which they are written. -/
def instructionText (mnemonic : String) (operands : List String) : String :=
  if operands.isEmpty then "\t" ++ mnemonic
  else "\t" ++ padRight 8 mnemonic ++ ", ".intercalate operands

namespace Style

def line (style : Style) : Line → String
  | .label s => s.name ++ ":"
  | .instruction i => style.instruction i

def remark (style : Style) (b : Block) : String :=
  "\t" ++ style.comment ++ " " ++ toString b.line ++ ": " ++ b.statement.render

/-- The lines of a statement's code, after a comment if the statement is to be quoted. -/
def block (style : Style) (annotate : Bool) (b : Block) : List String :=
  (if annotate then [style.remark b] else []) ++ b.code.map style.line

def region (style : Style) (r : Region) (chunks : List Chunk) : List String :=
  ["", style.regionSection r, style.align 8, style.line (.label (.region r))]
    ++ chunks.map style.chunk

def lines (style : Style) (annotate : Bool) (l : Listing) : List String :=
  (style.comment ++ " KAIR program, Windows x64 ABI") :: style.preamble l.externals
    ++ style.region .data l.data
    ++ style.region .const l.const
    ++ ["", style.codeSection, style.line (.label .entry)]
    ++ l.blocks.flatMap (style.block annotate)
    ++ l.exit.map style.line

def text (style : Style) (annotate : Bool) (l : Listing) : String :=
  String.join ((style.lines annotate l).map (· ++ "\n"))

end Style

end Quadword
