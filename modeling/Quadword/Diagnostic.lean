import Quadword.Text.Position

/-!
# Diagnostics

A diagnostic says what went wrong and where. It is shown with the line that it starts on, and with a
row of carets below the part of that line which it concerns.
-/

namespace Quadword

/-- What went wrong, and where. -/
structure Diagnostic where
  kind : String := "error"
  message : String
  span : Span
deriving DecidableEq

namespace Diagnostic

/-- A run of blanks. -/
def blanks (n : Nat) : String := String.ofList (List.replicate n ' ')

/-- The last column to mark: that of the span, or its first one if it ends on another line. -/
def lastColumn (s : Span) : UInt32 :=
  if s.stop.line = s.start.line then max s.stop.column (s.start.column + 1) - 1 else s.start.column

/-- The number of columns in front of the marked ones. -/
def skip (s : Span) : UInt32 := s.start.column - 1

/-- The number of marked columns. -/
def highlight (s : Span) : UInt32 := lastColumn s - s.start.column + 1

/-- The row below the excerpt that marks the columns of the span. -/
def marker (s : Span) : String :=
  blanks (skip s).toNat ++ String.ofList (List.replicate (highlight s).toNat '^')

/-- The diagnostic on one line, for the source called `name`. -/
def summary (d : Diagnostic) (name : String) : String :=
  d.kind ++ ": " ++ d.message ++ " at " ++ d.span.render name

/-- The diagnostic with the line that it starts on, for the source called `name`. -/
def render (d : Diagnostic) (name excerpt : String) : String :=
  let line := toString d.span.start.line
  let margin := blanks line.length
  d.kind ++ ": " ++ d.message ++ "\n"
    ++ " --> " ++ d.span.render name ++ "\n"
    ++ margin ++ " |\n"
    ++ line ++ " | " ++ excerpt ++ "\n"
    ++ margin ++ " | " ++ marker d.span ++ "\n"
    ++ "\n"
    ++ "Build failed with 1 error\n"

end Diagnostic

end Quadword
