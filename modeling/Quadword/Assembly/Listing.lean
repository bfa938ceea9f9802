import Quadword.Assembly.Layout
import Quadword.Assembly.Lowering

/-!
# Listings

A listing is a program after lowering: the layout of its regions and the code of each statement,
still independent of the assembler that it is written for.
-/

namespace Quadword

/-- The code of one statement, with the line that the statement starts on. -/
structure Block where
  line : UInt32
  statement : Statement
  code : List Line
deriving DecidableEq

structure Listing where
  /-- The procedures of the host that are called, in order and each once. -/
  externals : List String
  data : List Chunk
  const : List Chunk
  blocks : List Block
  /-- What follows the last statement. -/
  exit : List Line
deriving DecidableEq

def Listing.region (l : Listing) : Region → List Chunk
  | .data => l.data
  | .const => l.const

/-- All code of a listing, from the entry on. -/
def Listing.code (l : Listing) : List Line :=
  .label .entry :: l.blocks.flatMap Block.code ++ l.exit

/-- Adds a name to an ascending list of names, unless it is there already. -/
def insertName (name : String) : List String → List String
  | [] => [name]
  | n :: ns =>
    if name < n then name :: n :: ns
    else if name = n then n :: ns
    else n :: insertName name ns

/-- The procedure of the host that a statement calls. -/
def Statement.callee? : Statement → Option String
  | .syscall name _ _ => some name
  | _ => none

namespace Program

/-- The procedures of the host that a program calls, in order and each once. -/
def externals (p : Program) : List String :=
  (p.statements.filterMap fun s => s.value.callee?).foldr insertName [exitProcedure]

def initializers (p : Program) (r : Region) : List Initializer :=
  (p.data.map Located.value).filter fun i => i.region = r

/-- Where a program gives a region an initial value at an offset. -/
def initializerSpan (p : Program) (r : Region) (offset : Word) : Span :=
  match p.data.find? fun i => i.value.region = r && i.value.offset = offset with
  | some i => i.span
  | none => p.finish

def layout (p : Program) (r : Region) : Except (Located LowerError) (List Chunk) :=
  match Initializer.layout (p.initializers r) with
  | .ok chunks => .ok chunks
  | .error i => .error ⟨.overlap i.region i.offset, p.initializerSpan r i.offset⟩

/-- Lowers statements; `fresh` is the number of labels that have been taken before them. -/
def lowerStatements (mode : Addressing) (fresh : Nat) :
    List (Located Statement) → Except (Located LowerError) (List Block)
  | [] => .ok []
  | s :: ss =>
    match s.value.lower mode fresh with
    | .error e => .error ⟨e, s.span⟩
    | .ok code => do
      let blocks ← lowerStatements mode (fresh + s.value.labels) ss
      return ⟨s.span.start.line, s.value, code⟩ :: blocks

def lower (p : Program) (mode : Addressing) : Except (Located LowerError) Listing := do
  let data ← p.layout .data
  let const ← p.layout .const
  let blocks ← lowerStatements mode 0 p.statements
  match exitSequence mode with
  | .error e => .error ⟨e, p.finish⟩
  | .ok exit => return ⟨p.externals, data, const, blocks, .label .finish :: straight exit⟩

end Program

end Quadword
