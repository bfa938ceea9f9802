import Quadword.Program.Parser.Statement
import Quadword.Program.Labels

/-!
# Reading programs

A program starts with the initial values of its regions, one a line, and goes on with statements,
one a line. An assignment of a bare literal to a slot of a region is an initial value as long as
only such lines come before it; the first line of any other form starts the statements.
-/

namespace Quadword

namespace Parser

/-- Reads a slot of a region, and the literal that is assigned to it. -/
def initialValue : Parser Initializer := do
  let s ← slot
  match s.space with
  | .stack => fail (.expected .region (.keyword .sp))
  | .region region =>
    expect .assign
    let negative ← accept (.binary .sub)
    let value ← literal
    -- eight bytes are written in any case, so the mark makes no difference
    let _ ← accept .wide
    pure ⟨region, s.offset, if negative then -value else value⟩

/-- Reads an initial value, which has a line to itself. -/
def initializer : Parser (Located Initializer) := do
  let i ← spanned initialValue
  match ← peek with
  | .newline | .eof => pure i
  | found => fail (.expected .lineEnd found)

/-- Reads at most `bound` initial values, none of which may overlap another or one in `seen`. -/
def initializers (seen : List (Located Initializer)) : Nat → Parser (List (Located Initializer))
  | 0 => pure seen
  | bound + 1 => do
    match ← attempt initializer with
    | none => pure seen
    | some i =>
      if seen.any fun j => j.value.overlaps i.value then
        throw ⟨.overlap i.value.region i.value.offset, i.span⟩
      else
        skipNewlines
        initializers (seen ++ [i]) bound

/-- Reads at most `bound` statements up to the end of the text, and the span of that end. -/
def statements : Nat → Parser (List (Located Statement) × Span)
  | 0 => fail .abruptEnd
  | bound + 1 => do
    skipNewlines
    match ← peek with
    | .eof =>
      let finish ← peekSpan
      pure ([], finish)
    | _ =>
      let s ← spanned statement
      terminator
      let (ss, finish) ← statements bound
      pure (s :: ss, finish)

/-- Checks that every label is defined once and every jump has somewhere to go. -/
def checkLabels (ss : List (Located Statement)) : Except (Located ParseError) Unit :=
  match repeatedLabel? [] ss with
  | some name => .error ⟨.duplicateLabel name.value, name.span⟩
  | none =>
    match unknownLabel? (definedLabels ss) ss with
    | some name => .error ⟨.undefinedLabel name.value, name.span⟩
    | none => .ok ()

def program : Parser Program := do
  skipNewlines
  let bound ← remaining
  let data ← initializers [] bound
  let bound ← remaining
  let (ss, finish) ← statements bound
  checkLabels ss
  pure ⟨data, ss, finish⟩

end Parser

/-- The program that a list of tokens writes; `start` is where a text begins. -/
def Program.ofTokens (tokens : List (Located Token)) (start : Span) :
    Except (Located ParseError) Program :=
  match Parser.program ⟨tokens, start⟩ with
  | .ok (p, _) => .ok p
  | .error e => .error e

end Quadword
