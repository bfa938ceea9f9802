import Quadword.Diagnostic
import Quadword.Token.Lexer
import Quadword.Program.Parser
import Quadword.Assembly.Target

/-!
# Compiling a source

A source is broken into tokens, the tokens are read as a program, and the program is written as
assembly text. The first failure of any of these ends the compilation. Its diagnostic can quote only
what had been read by then: all of the source, unless breaking it into tokens failed.
-/

namespace Quadword

/-- A failed compilation, by the step that failed. -/
inductive Failure where
  | lexical (e : Located LexError)
  | grammatical (e : Located ParseError)
  | generation (e : Located LowerError)
deriving DecidableEq

namespace Failure

/-- What the failure is reported as. -/
def diagnostic : Failure → Diagnostic
  | lexical e => ⟨"Lexical error", e.value.message, e.span⟩
  | grammatical e => ⟨"Syntax error", e.value.message, e.span⟩
  | generation e => ⟨"Code generation error", e.value.message, e.span⟩

/-- What lies behind the failure, where there is something behind it. -/
def cause? : Failure → Option String
  | lexical e => e.value.cause?
  | _ => none

end Failure

/-- A failure with the line that its diagnostic quotes. -/
structure Report where
  failure : Failure
  excerpt : String
deriving DecidableEq

namespace Report

def diagnostic (r : Report) : Diagnostic := r.failure.diagnostic

/-- The report as text, for the source called `name`. -/
def render (r : Report) (name : String) : String := r.diagnostic.render name r.excerpt

end Report

namespace Source

def parse (src : Source) : Except Failure Program :=
  match src.scan.result with
  | .error e => .error (.lexical e)
  | .ok tokens =>
    match Program.ofTokens tokens .first with
    | .error e => .error (.grammatical e)
    | .ok p => .ok p

def assemble (src : Source) (t : Target) : Except Failure String := do
  let p ← src.parse
  match p.assemble t with
  | .error e => .error (.generation e)
  | .ok text => .ok text

/-- The number of items read when compilation fails. Nothing is read after the scan. -/
def itemsRead (src : Source) : Nat := src.scan.final.reader.read

/-- The report of a failure, which quotes the line it starts on if that line has been read. -/
def report (src : Source) (f : Failure) : Report :=
  ⟨f, quote (knownLines src.lines src.itemsRead) f.diagnostic.span.start.line⟩

/-- Compiles a source to assembly text. -/
def compile (src : Source) (t : Target) : Except Report String :=
  match src.assemble t with
  | .ok text => .ok text
  | .error f => .error (src.report f)

end Source

end Quadword
