import Quadword.Text.Lines
import Quadword.Text.Position

/-!
# Source texts

A source is a sequence of lines that have been decoded, or could not be. Reading it yields one item
after another: the characters of each line followed by a line break (also after a last line that
lacks one), or a single mark for a line that could not be decoded. A line becomes known when its
first item is read; before that, and when the line is undecodable, it cannot be quoted.

Lines are numbered as they come, and columns are counted anew on each of them. A character carries
the place of the one after it, since the place of the first character is known beforehand.
-/

namespace Quadword

/-- A source: the text of each of its lines, or `none` for a line that is not valid UTF-8. -/
structure Source where
  lines : List (Option String)
  /-- Line breaks stand between lines and not in them. -/
  unbroken : ∀ text, some text ∈ lines → '\n' ∉ text.toList

/-- What reading a source yields. -/
inductive Item where
  | char (c : Char)
  | undecodable
deriving DecidableEq

namespace Source

def ofBytes (bytes : List UInt8) : Source where
  lines := (splitLines bytes).map decodeLine
  unbroken text htext := by
    obtain ⟨line, hline, hdecode⟩ := List.mem_map.mp htext
    exact not_mem_decodeLine hline hdecode

/-- A source of which nothing can be read, such as a directory. -/
def unreadable : Source := ⟨[none], by simp⟩

/-! ## Known lines -/

def lineItems : Option String → List Item
  | some text => text.toList.map .char ++ [.char '\n']
  | none => [.undecodable]

/-- Everything that reading the source yields, in order. -/
def items (src : Source) : List Item := src.lines.flatMap lineItems

/-- The texts of the lines that are known once `count` items have been read. -/
def knownLines : List (Option String) → Nat → List String
  | [], _ => []
  | _, 0 => []
  -- a line has one item more than characters, and the first of them has been read
  | some text :: lines, count + 1 => text :: knownLines lines (count - text.length)
  | none :: lines, count + 1 => knownLines lines count

/-- The known line with the given number, empty if there is none. -/
def quote (known : List String) (line : Nat) : String :=
  if line = 0 then "" else known[line - 1]?.getD ""

/-! ## Places -/

/-- The characters of the line with this number from a column on, each with the place after it. -/
def traceChars (line column : UInt32) : List Char → List (Located Item)
  | [] => []
  | c :: cs =>
    let next := Position.step ⟨line, column⟩ c
    ⟨.char c, next.cell⟩ :: traceChars line next.column cs

/-- What reading one line yields. A line that cannot be decoded is passed over as a whole. -/
def traceLine (number : UInt32) : Option String → List (Located Item)
  | some text => traceChars number 1 (text.toList ++ ['\n'])
  | none => [⟨.undecodable, (Position.mk number 1).newline.cell⟩]

/-- Every item of the source, with the one column that follows it. -/
def trace (src : Source) : List (Located Item) :=
  src.lines.zipIdx.flatMap fun (line, index) => traceLine ((index : UInt32) + 1) line

end Source

/-! ## Reading with one item of lookahead -/

/--
What is left to read. The next item can be looked at before it is taken; then it has been read from
the source already, and the lines of the source that are known are those of the items read.
-/
structure Reader where
  rest : List (Located Item)
  peeked : Bool := false
  /-- How many items have been read from the source. -/
  read : Nat := 0

namespace Reader

/-- Reads the next item, if there is one, but leaves it there. -/
def peek (r : Reader) : Reader :=
  if r.peeked then r else { r with peeked := true, read := r.read + min r.rest.length 1 }

/-- Takes the next item, if there is one. -/
def pop (r : Reader) : Reader := { r.peek with rest := r.rest.tail, peeked := false }

@[simp] theorem peek_rest (r : Reader) : r.peek.rest = r.rest := by
  unfold peek
  split <;> rfl

@[simp] theorem pop_rest (r : Reader) : r.pop.rest = r.rest.tail := rfl

end Reader

end Quadword
