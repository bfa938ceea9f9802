/-!
# Positions, spans and located values

A position is a line and a column, both counted from one. A span runs from a position up to, but
not including, another one, and a located value is a value together with the span of text that it
was read from.

The column after a character depends on the character alone: a line break goes back to the first
column, a tab goes to the next tab stop, and anything else takes one column (`Position.step`).

Lines and columns are numbers of 32 bits. They wrap around where a text has more lines, or a line
more columns, than such a number can count.
-/

namespace Quadword

-- line numbers are counted as natural numbers where there is a list of lines to count
scoped instance coeNatUInt32 : Coe Nat UInt32 := ⟨UInt32.ofNat⟩

scoped instance coeUInt32Nat : Coe UInt32 Nat := ⟨UInt32.toNat⟩

/-- A place in a text, as a line and a column that both start at one. -/
structure Position where
  line : UInt32 := 1
  column : UInt32 := 1
deriving DecidableEq

namespace Position

def tabStop : UInt32 := 4

def advance (p : Position) : Position := { p with column := p.column + 1 }

/-- The previous column of the same line; the first column has none and is its own. -/
def back (p : Position) : Position := { p with column := max p.column 2 - 1 }

def newline (p : Position) : Position := ⟨p.line + 1, 1⟩

/-- The column after the tab stop that follows, on the same line. -/
def tab (p : Position) : Position :=
  { p with column := 1 + ((p.column - 1) / tabStop + 1) * tabStop }

def step (p : Position) (c : Char) : Position :=
  if c = '\n' then p.newline else if c = '\t' then p.tab else p.advance

/-- The text of a position, `line:column`. -/
def render (p : Position) : String := toString p.line ++ ":" ++ toString p.column

end Position

/-- The text from `start` up to, but not including, `stop`. -/
structure Span where
  start : Position
  stop : Position
deriving DecidableEq

def Position.cell (p : Position) : Span := ⟨p, p.advance⟩

namespace Span

/-- From the start of the first span to the end of the second one. -/
def join (a b : Span) : Span := ⟨a.start, b.stop⟩

/--
The text of a span in the source called `name`. A single column, and anything that ends on another
line, is shown by where it starts; a longer piece of one line also shows its last column.
-/
def render (s : Span) (name : String) : String :=
  if s.stop.line ≠ s.start.line ∨ s.stop = s.start.advance then
    name ++ ":" ++ s.start.render
  else
    name ++ ":[" ++ s.start.render ++ "-" ++ s.stop.back.render ++ "]"

end Span

/-- A value and the span of text that it stands for. -/
structure Located (α : Type) where
  value : α
  span : Span
deriving DecidableEq

/-- Where reading starts: the first column of the first line. -/
def Span.first : Span := Position.cell {}

end Quadword
