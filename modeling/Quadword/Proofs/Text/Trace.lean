import Quadword.Proofs.Text.Position
import Quadword.Text.Source

/-!
# Reading a source as one sequence

A source is read line by line: lines are numbered as such, and columns are counted anew on each of
them. Here reading is told as one sequence of items instead, each at the place that all items before
it lead to, and the two are shown to be the same. What a lexer can read of the sequence ends with
the source or at an undecodable line.

* **`Source.trace_eq`**: the places that are counted line by line are carried along the sequence.
* **`Source.trace_readable`**: the characters that can be read, and what follows them.
-/

namespace Quadword

/-- How the readable part of a source ends: with the source, or at an undecodable line. -/
inductive Ending where
  | complete
  | undecodable
deriving DecidableEq

/-- What follows the readable part of a source that ends in this way. -/
def Ending.Begins : Ending → List (Located Item) → Prop
  | complete, items => items = []
  | undecodable, items => ∃ span more, items = ⟨.undecodable, span⟩ :: more

namespace Source

/-- The characters of a run of lines, up to the first undecodable one. -/
def readableLines : List (Option String) → List Char × Ending
  | [] => ([], .complete)
  | none :: _ => ([], .undecodable)
  | some text :: lines =>
    let (chars, ending) := readableLines lines
    (text.toList ++ '\n' :: chars, ending)

def readable (src : Source) : List Char × Ending := readableLines src.lines

/-- The position after one item: an undecodable line takes a line of its own. -/
def after (p : Position) : Item → Position
  | .char c => p.step c
  | .undecodable => p.newline

/-- The items from a position on, each with the one column after it. -/
def traceFrom (p : Position) : List Item → List (Located Item)
  | [] => []
  | item :: items => ⟨item, (after p item).cell⟩ :: traceFrom (after p item) items

/-- What is read of two runs in a row: the second one starts where the first one leads to. -/
theorem traceFrom_append (p : Position) (xs ys : List Item) :
    traceFrom p (xs ++ ys) = traceFrom p xs ++ traceFrom (xs.foldl after p) ys := by
  induction xs generalizing p with
  | nil => rfl
  | cons x xs ih => exact congrArg (_ :: ·) (ih (after p x))

theorem length_traceFrom (p : Position) (xs : List Item) : (traceFrom p xs).length = xs.length := by
  induction xs generalizing p with
  | nil => rfl
  | cons x xs ih => exact congrArg (· + 1) (ih _)

theorem foldl_after_chars (p : Position) (cs : List Char) :
    (cs.map Item.char).foldl after p = p.past cs :=
  List.foldl_map

/-! ## Lines -/

theorem line_step_of_ne {c : Char} (h : c ≠ '\n') (p : Position) : (p.step c).line = p.line := by
  unfold Position.step
  rw [if_neg h]
  split <;> rfl

/--
A text without line breaks stays on its line. This is why the line can be numbered beforehand.
-/
theorem line_past_of_not_mem {cs : List Char} (h : '\n' ∉ cs) (p : Position) :
    (p.past cs).line = p.line := by
  induction cs generalizing p with
  | nil => rfl
  | cons c cs ih =>
      rw [List.mem_cons, not_or] at h
      rw [Position.past_cons, ih h.2, line_step_of_ne (fun hc => h.1 hc.symm)]

/--
All items of a line lead to the first column of the next one, whether it could be decoded or not.
-/
theorem foldl_after_line {line : Option String} (h : ∀ text, line = some text → '\n' ∉ text.toList)
    (p : Position) : (lineItems line).foldl after p = ⟨p.line + 1, 1⟩ := by
  cases line with
  | none => rfl
  | some text =>
      -- the column that the text of the line ends in is given up with its line break
      rw [lineItems, List.foldl_append, foldl_after_chars]
      show (p.past text.toList).newline = _
      rw [Position.newline, line_past_of_not_mem (h text rfl)]

/--
As long as no line break comes, the line can be kept and the column alone be counted. By induction
on the characters, with the position that they have led to.
-/
theorem traceChars_eq {cs : List Char} (h : '\n' ∉ cs) (p : Position) :
    traceChars p.line p.column (cs ++ ['\n']) = traceFrom p ((cs ++ ['\n']).map .char) := by
  induction cs generalizing p with
  | nil => rfl
  | cons c cs ih =>
      rw [List.mem_cons, not_or] at h
      have hline : p.line = (p.step c).line := (line_step_of_ne (fun hc => h.1 hc.symm) p).symm
      show _ :: traceChars p.line (p.step c).column (cs ++ ['\n']) =
        _ :: traceFrom (p.step c) ((cs ++ ['\n']).map .char)
      rw [← ih h.2 (p.step c), ← hline]
      rfl

/-- A line is read as from its first column on. -/
theorem traceLine_eq {line : Option String} (h : ∀ text, line = some text → '\n' ∉ text.toList)
    (number : UInt32) : traceLine number line = traceFrom ⟨number, 1⟩ (lineItems line) := by
  cases line with
  | none => rfl
  | some text =>
      have hmap : lineItems (some text) = (text.toList ++ ['\n']).map .char := by
        rw [lineItems, List.map_append]
        rfl
      rw [hmap]
      exact traceChars_eq (h text rfl) ⟨number, 1⟩

/--
Lines are read one after the other. The number of a line is its index and one, in 32 bits, and that
is where all items of the lines before it lead to.
-/
theorem flatMap_traceLine {lines : List (Option String)}
    (h : ∀ text, some text ∈ lines → '\n' ∉ text.toList) (first : Nat) :
    ((lines.zipIdx first).flatMap fun (line, index) => traceLine ((index : UInt32) + 1) line) =
      traceFrom ⟨(first : UInt32) + 1, 1⟩ (lines.flatMap lineItems) := by
  induction lines generalizing first with
  | nil => rfl
  | cons line lines ih =>
      have hline : ∀ text, line = some text → '\n' ∉ text.toList :=
        fun text heq => h text (heq ▸ List.mem_cons_self)
      -- the index grows as a natural number and wraps as a line number
      have hnext : ((first + 1 : Nat) : UInt32) = (first : UInt32) + 1 := UInt32.ofNat_add ..
      rw [List.flatMap_cons, traceFrom_append, foldl_after_line hline, List.zipIdx_cons,
        List.flatMap_cons, ih (fun text hmem => h text (List.mem_cons_of_mem _ hmem)), hnext]
      exact congrArg (· ++ _) (traceLine_eq hline _)

/-- The places that are counted line by line are those that are carried along all the items. -/
theorem trace_eq (src : Source) : src.trace = traceFrom {} src.items :=
  flatMap_traceLine src.unbroken 0

theorem length_trace (src : Source) : src.trace.length = src.items.length := by
  rw [trace_eq, length_traceFrom]

/-! ## What can be read -/

/--
The items of some lines are the characters that can be read of them, and then nothing or those from
an undecodable line on, wherever they stand.
-/
theorem items_readableLines (lines : List (Option String)) :
    ∃ more, lines.flatMap lineItems = (readableLines lines).1.map .char ++ more ∧
      ∀ p, (readableLines lines).2.Begins (traceFrom p more) := by
  induction lines with
  | nil => exact ⟨[], rfl, fun _ => rfl⟩
  | cons line lines ih =>
      -- the first line that cannot be decoded is where the readable ones end
      cases line with
      | none => exact ⟨.undecodable :: lines.flatMap lineItems, rfl, fun p => ⟨_, _, rfl⟩⟩
      | some text =>
          obtain ⟨more, hitems, hmore⟩ := ih
          refine ⟨more, ?_, hmore⟩
          rw [List.flatMap_cons, hitems]
          simp [lineItems, readableLines]

/-- What is read are the characters that can be read, and then nothing or an undecodable line. -/
theorem trace_readable (src : Source) :
    ∃ items, src.trace = traceFrom {} (src.readable.1.map .char) ++ items ∧
      src.readable.2.Begins items := by
  obtain ⟨more, hitems, hmore⟩ := items_readableLines src.lines
  refine ⟨_, ?_, hmore (({} : Position).past src.readable.1)⟩
  rw [trace_eq, items, hitems, traceFrom_append, foldl_after_chars]
  rfl

end Source

end Quadword
