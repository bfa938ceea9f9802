import Quadword.Proofs.Diagnostic.Excerpt
import Quadword.Proofs.Text.Trace

/-!
# What reading a text yields, item by item

Reading goes line by line: lines are numbered, columns are counted from the start of each line, and
the text of a line is put aside when its first character is read. Here the three are tied to the one
sequence of characters that comes out of it: the place of a character is where all the characters up
to it lead, and the line that a place names is the line of the sequence.

* **`Text.stream_eq_append`** and **`Source.items_ofText`**: which characters these are.
* **`Source.traceFrom_getElem?`**: the place of a character comes from all the characters before.
* **`Source.quote_line`**: a line is known once its first character has been read.
* **`Source.trace_ofText`**: all of this, for the characters of a text.

Places have lines and columns of 32 bits, and so they are carried along. Lines are quoted by their
number, which the line of a place is as long as 32 bits can count the lines.
-/

namespace Quadword

open Text

/-! ## Characters -/

namespace Text

/--
Unifying line breaks keeps the last character: a carriage return is dropped only in front of another
one.
-/
theorem getLast?_unifyBreaks (cs : List Char) : (unifyBreaks cs).getLast? = cs.getLast? := by
  fun_induction unifyBreaks cs with
  | case1 => rfl
  | case2 cs ih =>
      rw [List.getLast?_cons, List.getLast?_cons, List.getLast?_cons, ih]
      rfl
  | case3 c cs _ ih => rw [List.getLast?_cons, List.getLast?_cons, ih]

/-- A line break is added exactly to a text that is not empty and lacks one at its end. -/
theorem stream_eq_append (text : String) :
    stream text = unifyBreaks text.toList ++
      if text = "" ∨ text.toList.getLast? = some '\n' then [] else ['\n'] := by
  have hempty : unifyBreaks text.toList = [] ↔ text = "" := by
    rw [← String.toList_eq_nil_iff]
    refine ⟨fun h => Decidable.by_contra fun hne => unifyBreaks_ne_nil hne h, fun h => ?_⟩
    rw [h]
    rfl
  simp only [stream, closeLine, getLast?_unifyBreaks, hempty]
  split
  · rw [List.append_nil]
  · rfl

end Text

namespace Source

/--
The items of a text are the characters of its stream, in order, without a mark of an undecodable
line.
-/
theorem items_ofText (text : String) : (ofText text).items = (stream text).map .char := by
  have hline : ∀ l : List Char, lineItems (some (String.ofList l)) = (l ++ ['\n']).map .char := by
    intro l
    rw [lineItems, String.toList_ofList, List.map_append]
    rfl
  rw [items, lines_ofText, List.flatMap_map, stream, ← flatMap_lines, List.map_flatMap]
  simp only [hline]

/-! ## Places -/

/-- A character carries the place after it, which all the characters up to it lead to. -/
theorem traceFrom_getElem? (p : Position) (cs : List Char) (i : Nat) :
    (traceFrom p (cs.map .char))[i]? =
      cs[i]?.map fun c => ⟨.char c, (p.past (cs.take (i + 1))).cell⟩ := by
  induction cs generalizing p i with
  | nil => rfl
  | cons c cs ih =>
      cases i with
      | zero => rfl
      | succ i => exact ih (p.step c) i

/-! ## Known lines -/

/-- The run up to a line break is the line in front of it. -/
theorem takeWhile_line {l rest : List Char} (h : '\n' ∉ l) :
    (l ++ '\n' :: rest).takeWhile (· ≠ '\n') = l := by
  have hall : ∀ c ∈ l, decide (c ≠ '\n') = true :=
    fun c hc => decide_eq_true fun heq => h (heq ▸ hc)
  rw [List.takeWhile_append_of_pos hall]
  simp

/-- A line is known once its first character has been read, if need be that of its line break. -/
theorem quote_line {ls : List (List Char)} (hls : ∀ l ∈ ls, '\n' ∉ l) {w l rest : List Char}
    (h : (ls.flatMap fun l => l ++ ['\n']) = w ++ (l ++ '\n' :: rest)) (hw : WholeLines w)
    (hl : '\n' ∉ l) {count : Nat} (hcount : w.length < count) :
    (knownLines (ls.map fun l => some (String.ofList l)) count)[w.count '\n']? =
      some (String.ofList l) := by
  obtain ⟨n, rfl⟩ : ∃ n, count = n + 1 := ⟨count - 1, by omega⟩
  -- line by line: the line is the first one, or it lies behind the first line break
  induction ls generalizing w n with
  | nil => simp at h
  | cons t ls ih =>
      have ht := hls t List.mem_cons_self
      have hsplit : t ++ '\n' :: (ls.flatMap fun l => l ++ ['\n']) = w ++ (l ++ '\n' :: rest) := by
        rw [← h, List.flatMap_cons, List.append_assoc]
        rfl
      rw [List.map_cons, knownLines]
      rcases front_cases hsplit with hfront | ⟨u, rfl, hmore⟩
      · -- whole lines in front of a line break are none
        have hnil : w = [] := hw.resolve_right fun hlast =>
          ht (hfront.subset (List.mem_of_getLast? hlast))
        subst hnil
        rw [← takeWhile_line ht, hsplit, List.nil_append, takeWhile_line hl]
        rfl
      · have hlines : WholeLines u := @WholeLines.of_append ['\n'] u hw.of_append
        have hcount' : (t ++ '\n' :: u).count '\n' = u.count '\n' + 1 := by
          simp [List.count_eq_zero.mpr ht]
        rw [List.length_append, List.length_cons] at hcount
        obtain ⟨k, hk⟩ : ∃ k, n - (String.ofList t).length = k + 1 :=
          ⟨n - t.length - 1, by rw [String.length_ofList]; omega⟩
        rw [hcount', List.getElem?_cons_succ, hk]
        exact ih (fun l hmem => hls l (List.mem_cons_of_mem _ hmem)) hmore hlines k
          (by rw [String.length_ofList] at hk; omega)

/-- The line of the place after a text comes from the line breaks in it, wrapped to 32 bits. -/
theorem line_past (cs : List Char) :
    (({} : Position).past cs).line = .ofNat (cs.count '\n' + 1) :=
  congrArg Position.line (Position.past_placeAfter [] cs)

/--
**Reading a text yields its characters, each at its exact place.** The characters are those of the
text, a carriage return directly before a line feed left out, and one line break is added exactly if
the text is not empty and lacks one at its end. Each character carries the one column at the place
that it and all characters before it lead to from 1:1, although lines are numbered as such and
columns are counted anew on each of them. And once the first character of a line has been read,
possibly its line break, the line can be quoted by its number, and is that line. The place of the
line has this number, as long as 32 bits can hold it.
-/
theorem trace_ofText (text : String) :
    stream text = unifyBreaks text.toList ++
        (if text = "" ∨ text.toList.getLast? = some '\n' then [] else ['\n']) ∧
      (ofText text).items = (stream text).map .char ∧
      (∀ i, (ofText text).trace[i]? = (stream text)[i]?.map fun c =>
        let place := ({} : Position).past ((stream text).take (i + 1))
        ⟨.char c, place, place.advance⟩) ∧
      ∀ w l rest, stream text = w ++ l ++ '\n' :: rest → WholeLines w → '\n' ∉ l →
        let number := w.count '\n' + 1
        (∀ count, w.length < count →
          quote (knownLines (ofText text).lines count) number = String.ofList l) ∧
        (number < 2 ^ 32 → (({} : Position).past w).line.toNat = number) := by
  refine ⟨stream_eq_append text, items_ofText text, fun i => ?_, ?_⟩
  · rw [trace_eq, items_ofText]
    exact traceFrom_getElem? {} (stream text) i
  · intro w l rest hsplit hw hl number
    refine ⟨fun count hcount => ?_, fun hfits => ?_⟩
    · -- the lines of the sequence are those of the source, and no line break is in any of them
      have hbreaks : ∀ l ∈ Text.lines text.toList, '\n' ∉ l := fun l hmem => by
        have hline : some (String.ofList l) ∈ (ofText text).lines := by
          rw [lines_ofText]
          exact List.mem_map_of_mem hmem
        simpa using (ofText text).unbroken _ hline
      rw [List.append_assoc, stream, ← flatMap_lines] at hsplit
      rw [quote_succ, lines_ofText, quote_line hbreaks hsplit hw hl hcount]
      rfl
    · rw [line_past]
      exact UInt32.toNat_ofNat_of_lt' hfits

/-- A tab, a carriage return of its own, an empty line, and a last line that is not closed. -/
theorem trace_ofText_returns :
    (ofText "a\tb\r\n\n\rc").trace[6]? = some ⟨.char 'c', ⟨⟨3, 3⟩, ⟨3, 4⟩⟩⟩ ∧
      quote (knownLines (ofText "a\tb\r\n\n\rc").lines 5) 2 = "" ∧
      quote (knownLines (ofText "a\tb\r\n\n\rc").lines 6) 3 = "\rc" ∧
      (({} : Position).past ['a', '\t', 'b', '\n', '\n']).line.toNat = 3 := by
  obtain ⟨-, -, hplaces, hlines⟩ := trace_ofText "a\tb\r\n\n\rc"
  obtain ⟨hsecond, -⟩ := hlines ['a', '\t', 'b', '\n'] [] ['\r', 'c', '\n'] (by decide)
    (.inr (by decide)) (by decide)
  obtain ⟨hthird, hnumber⟩ := hlines ['a', '\t', 'b', '\n', '\n'] ['\r', 'c'] [] (by decide)
    (.inr (by decide)) (by decide)
  exact ⟨(hplaces 6).trans (by decide), hsecond 5 (by decide), hthird 6 (by decide),
    hnumber (by decide)⟩

end Source

end Quadword
