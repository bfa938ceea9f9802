import Quadword.Proofs.Text.Trace
import Quadword.Proofs.Token.Lookahead

/-!
# Breaking a text into tokens by looking ahead

A scanner is what is left of a text together with the position of its first character. Pulling on it
(`Scanner.next?`) skips what has no meaning and yields the next token or the first fault, each found
by looking ahead; the token for the end of the text, or a fault, is the last thing that it yields.

A lexer goes through a source from state to state and yields what a scanner yields. What is proved
of a lexer is proved of scanners first, which have no states to be in.

`Scanner.scan` pulls until nothing more comes. It stops because a pull that yields something leaves
a smaller scanner behind (`Scanner.size_next?_lt`).
-/

namespace Quadword

/-- What is left of a text that is being broken into tokens. -/
structure Scanner where
  rest : List Char
  ending : Ending
  here : Position := {}
  finished : Bool := false

namespace Scanner

def ofSource (src : Source) : Scanner := ⟨src.readable.1, src.readable.2, {}, false⟩

def skip (s : Scanner) (n : Nat) : Scanner :=
  { s with rest := s.rest.drop n, here := s.here.past (s.rest.take n) }

/-- The scanner from which nothing more comes. -/
def close (s : Scanner) : Scanner := { s with finished := true }

/-- Whether the next thing to read is an undecodable line. -/
def blocked (s : Scanner) : Bool := s.rest.isEmpty && s.ending = .undecodable

/-- A fault at the current position. An undecodable line there outweighs any other cause. -/
def fail (s : Scanner) (cause : LexError) : Except (Located LexError) (Located Token) × Scanner :=
  (.error ⟨if s.blocked then .unreadable else cause, s.here.cell⟩, s.close)

/-- A token of `n` characters. It is known to end only once what follows it can be read. -/
def emit (s : Scanner) (t : Token) (n : Nat) : Except (Located LexError) (Located Token) × Scanner :=
  if (s.skip n).blocked then (s.skip n).fail .unreadable
  else (.ok ⟨t, s.here.columns n⟩, s.skip n)

/-- What comes at the end of the characters. -/
def finish (s : Scanner) : Except (Located LexError) (Located Token) × Scanner :=
  if s.blocked then s.fail .unreadable else (.ok ⟨.eof, s.here.cell⟩, s.close)

/-- The next token or the first fault, with what is left; `none` after the last one. -/
def next? (s : Scanner) : Option (Except (Located LexError) (Located Token) × Scanner) :=
  if s.finished then none
  else
    match _h : s.rest with
    | [] => some s.finish
    | c :: cs =>
      match found c cs with
      | .blank extra => (s.skip (extra + 1)).next?
      | .token t extra => some (s.emit t (extra + 1))
      | .fault cause read => some ((s.skip read).fail cause)
termination_by s.rest.length
decreasing_by simp only [skip, List.length_drop, _h, List.length_cons]; omega

/-- A bound on the number of pulls that still yield something. -/
def size (s : Scanner) : Nat := if s.finished then 0 else s.rest.length + 1

theorem size_close (s : Scanner) : s.close.size = 0 := rfl

theorem size_fail (s : Scanner) (cause : LexError) : (s.fail cause).2.size = 0 := rfl

theorem size_skip_lt {s : Scanner} {n : Nat} (hl : s.finished = false) (hn : 0 < n)
    (hr : s.rest ≠ []) : (s.skip n).size < s.size := by
  have := List.length_pos_iff.mpr hr
  simp [size, skip, hl]
  omega

/-- A token takes characters, or it is a fault, after which nothing comes. -/
theorem size_emit_lt {s : Scanner} {n : Nat} (t : Token) (hl : s.finished = false) (hn : 0 < n)
    (hr : s.rest ≠ []) : (s.emit t n).2.size < s.size := by
  unfold emit
  split
  · rw [size_fail]
    simp [size, hl]
  · exact size_skip_lt hl hn hr

theorem size_finish_lt {s : Scanner} (hl : s.finished = false) : s.finish.2.size < s.size := by
  unfold finish
  split
  · rw [size_fail]
    simp [size, hl]
  · rw [size_close]
    simp [size, hl]

/--
A pull that yields something leaves a smaller scanner behind. A scan ends for this reason, and is
defined by recursion on the size.
-/
theorem size_next?_lt {s : Scanner} {r : Except (Located LexError) (Located Token)} {s' : Scanner}
    (h : s.next? = some (r, s')) : s'.size < s.size := by
  -- along the recursion of the pull, which goes on only behind something blank
  fun_induction next? s with
  | case1 s hf => simp at h
  | case2 s hf hr =>
    obtain rfl : s.finish.2 = s' := by rw [Option.some.inj h]
    exact size_finish_lt (by simpa using hf)
  | case3 s hf c cs hr extra hc ih =>
    exact Nat.lt_trans (ih h) (size_skip_lt (by simpa using hf) (by omega) (by simp [hr]))
  | case4 s hf c cs hr t extra hc =>
    obtain rfl : (s.emit t (extra + 1)).2 = s' := by rw [Option.some.inj h]
    exact size_emit_lt t (by simpa using hf) (by omega) (by simp [hr])
  | case5 s hf c cs hr cause read hc =>
    obtain rfl : ((s.skip read).fail cause).2 = s' := by rw [Option.some.inj h]
    rw [size_fail]
    simp [size, hf]

end Scanner

/-- Everything that a scanner yields, and the scanner that is left when nothing more comes. -/
structure Scanned where
  tokens : List (Located Token)
  failure : Option (Located LexError)
  final : Scanner

/-- Pulls until nothing more comes. -/
def Scanner.scan (s : Scanner) : Scanned :=
  match _h : s.next? with
  | none => ⟨[], none, s⟩
  | some (.error e, s') => ⟨[], some e, s'⟩
  | some (.ok t, s') =>
    let more := s'.scan
    { more with tokens := t :: more.tokens }
termination_by s.size
decreasing_by all_goals exact Scanner.size_next?_lt _h

namespace Scanner

variable {s s' : Scanner}

theorem next?_of_finished (h : s.finished = true) : s.next? = none := by
  rw [next?, if_pos h]

/--
At the end of the characters, a pull yields the end of the text or the fault of an undecodable line.
-/
theorem next?_of_nil (h : s.finished = false) (hrest : s.rest = []) :
    s.next? = some s.finish := by
  rw [next?, if_neg (by simp [h])]
  split
  · rfl
  · next heq =>
    rw [hrest] at heq
    cases heq

/--
At a character, a pull does what is found there: it goes on behind something blank, and yields a
token or a fault. With this and the two lemmas above, a pull is never unfolded again.
-/
theorem next?_of_cons {c : Char} {cs : List Char} (h : s.finished = false)
    (hrest : s.rest = c :: cs) :
    s.next? = match found c cs with
      | .blank extra => (s.skip (extra + 1)).next?
      | .token t extra => some (s.emit t (extra + 1))
      | .fault cause read => some ((s.skip read).fail cause) := by
  rw [next?, if_neg (by simp [h])]
  split
  · next heq =>
    rw [hrest] at heq
    cases heq
  · next heq =>
    rw [hrest] at heq
    cases heq
    rfl

/-- Something comes from a scanner that is not finished. -/
theorem next?_ne_none (h : s.finished = false) : s.next? ≠ none := by
  fun_induction next? s with
  | case1 s hf => simp [h] at hf
  | case2 => simp
  | case3 s _ _ _ _ _ _ ih => exact ih h
  | case4 => simp
  | case5 => simp

/--
A fault is the last thing that a scanner yields. So a scan has one fault at most, and no token
behind it.
-/
theorem finished_of_next?_error {e : Located LexError} (h : s.next? = some (.error e, s')) :
    s'.finished = true := by
  have hfail : ∀ (m : Scanner) cause, m.fail cause = (.error e, s') → s'.finished = true := by
    rintro m cause ⟨⟩
    rfl
  -- a fault is an undecodable line behind the text or behind a token, or what was found
  fun_induction next? s with
  | case1 => cases h
  | case2 s =>
    unfold finish at h
    split at h
    · exact hfail _ _ (Option.some.inj h)
    · cases h
  | case3 _ _ _ _ _ _ _ ih => exact ih h
  | case4 s _ _ _ _ t extra =>
    unfold emit at h
    split at h
    · exact hfail _ _ (Option.some.inj h)
    · cases h
  | case5 => exact hfail _ _ (Option.some.inj h)

/-- A scan, unfolded at a token. -/
theorem scan_ok {t : Located Token} (h : s.next? = some (.ok t, s')) :
    s.scan = { s'.scan with tokens := t :: s'.scan.tokens } := by
  rw [scan]
  split
  · next hnext => simp [h] at hnext
  · next hnext => simp [h] at hnext
  · next hnext =>
    rw [h] at hnext
    cases hnext
    rfl

/-- At a fault, which is its last pull. -/
theorem scan_error {e : Located LexError} (h : s.next? = some (.error e, s')) :
    s.scan = ⟨[], some e, s'⟩ := by
  rw [scan]
  split
  · next hnext => simp [h] at hnext
  · next hnext =>
    rw [h] at hnext
    cases hnext
    rfl
  · next hnext => simp [h] at hnext

theorem scan_none (h : s.next? = none) : s.scan = ⟨[], none, s⟩ := by
  rw [scan]
  split
  · rfl
  · next hnext => simp [h] at hnext
  · next hnext => simp [h] at hnext

end Scanner

end Quadword
