import Mathlib.Data.List.TakeWhile
import Quadword.Proofs.Token.Lexeme
import Quadword.Proofs.Token.Lookahead

/-!
# What stands at the front of a text

`front` looks at a few characters at a time and never goes back. It finds what the lexemes of the
language ask for: white space and comments as far as they reach, the longest lexeme where neither
stands, and a fault exactly where a scan is stuck.

* **`finds_word`**, **`finds_decimal`**, **`finds_operator`** and so on: a lexeme is found if what
  follows it cannot continue it.
* **`finds_of_skips`**, **`finds_of_takes`** and **`fault_of_stuck`**: at each point, `front` does
  what the scan does.
-/

namespace Quadword.Lexical

open Front

/-! ## Deciding what is said of the members of a list

By going through the list: there is also an instance that goes through all characters there are.
-/

scoped instance (priority := 2000) decidableForallMem (p : Char → Prop) [DecidablePred p]
    (cs : List Char) : Decidable (∀ c, c ∈ cs → p c) := List.decidableBAll p cs

scoped instance (priority := 2000) decidableExistsMem (p : Char → Prop) [DecidablePred p]
    (cs : List Char) : Decidable (∃ c, c ∈ cs ∧ p c) := List.decidableBEx p cs

/-! ## What is found -/

/-- What `front` finds in `w ++ rest` takes `w`; `kind` is told the number of further characters. -/
def Finds (w rest : List Char) (kind : Nat → Front) : Prop :=
  ∃ c cs, w = c :: cs ∧ front c (cs ++ rest) = kind cs.length

/-! ## Characters -/

/-- The characters that operators start with. -/
def operatorStarts : List Char := "=~,#?:()[]+-*/%&|^<>!".toList

/--
Which characters start an operator, as a list. Both directions are looked up in the table of
operators.
-/
theorem startsOperator_singleton (c : Char) : startsOperator [c] = true ↔ c ∈ operatorStarts := by
  -- both directions are read off the table, which is finite
  have htable : ∀ o ∈ Token.operators, ∃ d ∈ operatorStarts, o.1.toList.head? = some d := by
    decide +kernel
  have hall : ∀ d ∈ operatorStarts, startsOperator [d] = true := by decide +kernel
  refine ⟨fun h => ?_, hall c⟩
  obtain ⟨o, ho, hstart⟩ := List.any_eq_true.mp h
  obtain ⟨d, hd, hhead⟩ := htable o ho
  obtain ⟨rest, hrest⟩ := List.isPrefixOf_iff_prefix.mp hstart
  rw [← hrest] at hhead
  cases hhead
  exact hd

/--
Letters and the underscore by their numbers; the three classes of characters are told apart by
arithmetic from here on.
-/
theorem isWordStart_iff {c : Char} : isWordStart c = true ↔
    65 ≤ c.toNat ∧ c.toNat ≤ 90 ∨ 97 ≤ c.toNat ∧ c.toNat ≤ 122 ∨ c.toNat = 95 := by
  have hstart : isWordStart c = (decide (65 ≤ c.val ∧ c.val ≤ 90) ||
      decide (97 ≤ c.val) && decide (c.val ≤ 122) || decide (c = '_')) := rfl
  simp only [hstart, Bool.or_eq_true, Bool.and_eq_true, decide_eq_true_eq, UInt32.le_iff_toNat_le,
    or_assoc, ← Char.toNat_inj]
  rfl

theorem isDigit_iff {c : Char} : c.isDigit = true ↔ 48 ≤ c.toNat ∧ c.toNat ≤ 57 := by
  simp only [Char.isDigit, Bool.and_eq_true, decide_eq_true_eq, ge_iff_le, UInt32.le_iff_toNat_le]
  rfl

/-- Hexadecimal digits by their numbers, in both cases of the letters. -/
theorem isHexDigit_iff {c : Char} : isHexDigit c = true ↔
    48 ≤ c.toNat ∧ c.toNat ≤ 57 ∨ 97 ≤ c.toNat ∧ c.toNat ≤ 102 ∨
      65 ≤ c.toNat ∧ c.toNat ≤ 70 := by
  simp only [isHexDigit, Bool.or_eq_true, Bool.and_eq_true, decide_eq_true_eq, isDigit_iff,
    or_assoc, Char.le_def, UInt32.le_iff_toNat_le]
  rfl

/-- A word goes on with what may start it and with digits. -/
theorem isWordChar_iff {c : Char} :
    isWordChar c = true ↔ isWordStart c = true ∨ c.isDigit = true := by
  simp only [isWordChar, isWordStart, Char.isAlphanum, Bool.or_eq_true, decide_eq_true_eq]
  constructor
  · rintro ((h | h) | h) <;> simp [h]
  · rintro ((h | h) | h) <;> simp [h]

theorem isHexDigit_of_isDigit {c : Char} (h : c.isDigit = true) : isHexDigit c = true :=
  isHexDigit_iff.mpr (.inl (isDigit_iff.mp h))

/--
A hexadecimal digit could stand in a word, and so nothing that follows a literal is taken for a part
of it unless it is.
-/
theorem isWordChar_of_isHexDigit {c : Char} (h : isHexDigit c = true) : isWordChar c = true := by
  rw [isWordChar_iff, isWordStart_iff, isDigit_iff]
  have := isHexDigit_iff.mp h
  omega

/-- A whole hexadecimal literal consists of characters that could stand in a word. -/
theorem isWordChar_hexadecimal {x : Char} {ds : List Char} (hx : x = 'x' ∨ x = 'X')
    (hds : ∀ d ∈ ds, isHexDigit d = true) : ∀ c ∈ '0' :: x :: ds, isWordChar c = true := by
  refine List.forall_mem_cons.mpr ⟨by decide, List.forall_mem_cons.mpr ⟨?_, ?_⟩⟩
  · rcases hx with rfl | rfl <;> decide
  · exact fun c hc => isWordChar_of_isHexDigit (hds c hc)

/-- White space lies below the printable characters of ASCII or beyond them. -/
theorem toNat_of_isBlank {c : Char} (h : Text.isBlank c = true) : c.toNat ≤ 32 ∨ 133 ≤ c.toNat := by
  simp only [Text.isBlank, Text.within, Text.blankRanges, List.any_cons, List.any_nil,
    Bool.or_eq_true, Bool.and_eq_true, decide_eq_true_eq, Bool.false_eq_true, or_false] at h
  omega

/-! ### Which case applies -/

/--
What starts a word starts nothing else, so it does not matter that other things are tried before.
-/
theorem front_word {c : Char} (cs : List Char) (h : isWordStart c = true) :
    front c cs = word c cs := by
  -- a letter is none of the characters that are tried before it
  have hne : ∀ d : Char, isWordStart d = false → c ≠ d := by
    rintro d hd rfl
    rw [h] at hd
    cases hd
  have hdigit : c.isDigit ≠ true := by
    rw [Ne, isDigit_iff]
    have := isWordStart_iff.mp h
    omega
  unfold front
  rw [if_neg (hne _ (by decide)), if_neg (hne _ (by decide)), if_neg (hne _ (by decide)),
    if_neg (hne _ (by decide)), if_neg hdigit, if_pos h]

/-- A digit other than zero starts a decimal literal. -/
theorem front_decimal {c : Char} (cs : List Char) (h : c.isDigit = true) (hzero : c ≠ '0') :
    front c cs = decimal c cs := by
  have hne : ∀ d : Char, d.isDigit = false → c ≠ d := by
    rintro d hd rfl
    rw [h] at hd
    cases hd
  unfold front
  rw [if_neg (hne _ (by decide)), if_neg (hne _ (by decide)), if_neg (hne _ (by decide)),
    if_neg hzero, if_pos h]

/--
A character that starts an operator starts nothing else, except for the slash, which may open a
comment.
-/
theorem front_operator {c : Char} (cs : List Char) (h : c ∈ operatorStarts) (hslash : c ≠ '/') :
    front c cs = operator c cs := by
  have hothers : ∀ d ∈ operatorStarts, d ≠ '\n' ∧ d ≠ '\x7b' ∧ d ≠ '0' ∧ d.isDigit = false ∧
      isWordStart d = false := by decide
  obtain ⟨hbreak, hbrace, hzero, hdigit, hword⟩ := hothers c h
  unfold front
  rw [if_neg hbreak, if_neg hslash, if_neg hbrace, if_neg hzero, if_neg (by simp [hdigit]),
    if_neg (by simp [hword]), if_pos ((startsOperator_singleton c).mpr h)]

/--
White space that is no line break is skipped by itself: none of it is printable, so it starts
nothing.
-/
theorem front_space {c : Char} (cs : List Char) (h : Text.isBlank c = true) (hbreak : c ≠ '\n') :
    front c cs = .blank 0 := by
  -- white space lies outside of all the ranges that are tried before it
  have hcode := toNat_of_isBlank h
  have hne : ∀ d : Char, Text.isBlank d = false → c ≠ d := by
    rintro d hd rfl
    rw [h] at hd
    cases hd
  have hdigit : c.isDigit ≠ true := by
    rw [Ne, isDigit_iff]
    omega
  have hword : isWordStart c ≠ true := by
    rw [Ne, isWordStart_iff]
    omega
  have hoperator : startsOperator [c] ≠ true := by
    rw [Ne, startsOperator_singleton]
    have hothers : ∀ d ∈ operatorStarts, Text.isBlank d = false := by decide
    exact fun hmem => hne c (hothers c hmem) rfl
  unfold front
  rw [if_neg hbreak, if_neg (hne _ (by decide)), if_neg (hne _ (by decide)),
    if_neg (hne _ (by decide)), if_neg hdigit, if_neg hword, if_neg hoperator, if_pos h]

/-! ## Words -/

/--
A run of characters of one kind, and then a character of another kind or none: the run is what is
taken. All lexemes of words and digits are found with this.
-/
theorem takeWhile_append_stop {p : Char → Bool} {cs rest : List Char} (hcs : ∀ c ∈ cs, p c = true)
    (hrest : ∀ d ∈ rest.head?, p d = false) : (cs ++ rest).takeWhile p = cs := by
  rw [List.takeWhile_append_of_pos hcs]
  cases rest with
  | nil => simp
  | cons d ds => rw [List.takeWhile_cons_of_neg (by simp [hrest d rfl]), List.append_nil]

/-- A word is found if no letter, digit or underscore follows it. -/
theorem finds_word {c : Char} {cs rest : List Char} (hc : isWordStart c = true)
    (hcs : ∀ d ∈ cs, isWordChar d = true) (hrest : ∀ d ∈ rest.head?, isWordChar d = false) :
    Finds (c :: cs) rest (.token (.ofWord (.ofList (c :: cs)))) := by
  refine ⟨c, cs, rfl, ?_⟩
  rw [front_word _ hc, word, takeWhile_append_stop hcs hrest]

/-! ## Literals -/

/--
What is so of the hexadecimal digits among the first 128 characters is so of all of them, since
there are no others. So a statement about such a digit can be decided by looking at each.
-/
theorem forall_isHexDigit {P : Char → Prop}
    (hall : ∀ n < 128, isHexDigit (Char.ofNat n) = true → P (Char.ofNat n)) {c : Char}
    (h : isHexDigit c = true) : P c := by
  have hlt : c.toNat < 128 := by
    have := isHexDigit_iff.mp h
    omega
  have hc := hall c.toNat hlt
  rw [Char.ofNat_toNat] at hc
  exact hc h

/--
The value of a digit, counted from the character `0` by the lexer, is the one that the language
gives it.
-/
theorem digit_eq_digitValue {c : Char} (h : isHexDigit c = true) : digit c = digitValue c :=
  forall_isHexDigit (P := fun c => digit c = digitValue c) (by decide +kernel) h

/--
Further digits do not make a number smaller, so a literal that has become too large stays too large.
-/
theorem le_numeralFrom {base : Nat} (hbase : 0 < base) (value : Nat) (ds : List Char) :
    value ≤ numeralFrom base value ds := by
  induction ds generalizing value with
  | nil => exact Nat.le_refl _
  | cons d ds ih =>
      refine Nat.le_trans ?_ (ih (value * base + digit d))
      exact Nat.le_trans (Nat.le_mul_of_pos_right value hbase) (Nat.le_add_right _ _)

/-- Digits are read to their end exactly if the number that they write is below the limit. -/
theorem readDigits_eq {base : Nat} (hbase : 0 < base) (value : Nat) (ds : List Char)
    (hds : ∀ d ∈ ds, isHexDigit d = true) (hvalue : value < literalLimit) :
    (numeralFrom base value ds < literalLimit →
        readDigits base value ds = .ok (numeralFrom base value ds)) ∧
      (literalLimit ≤ numeralFrom base value ds → ∃ i, readDigits base value ds = .error i) := by
  induction ds generalizing value with
  | nil => exact ⟨fun _ => rfl, fun h => absurd hvalue (Nat.not_lt_of_le h)⟩
  | cons d ds ih =>
      have hnumeral : numeralFrom base value (d :: ds) =
          numeralFrom base (value * base + digitValue d) ds := by
        rw [← digit_eq_digitValue (hds d List.mem_cons_self)]
        rfl
      rw [hnumeral, readDigits]
      by_cases hnext : value * base + digitValue d < literalLimit
      · rw [if_pos hnext]
        obtain ⟨hok, herror⟩ := ih _ (fun x hx => hds x (List.mem_cons_of_mem _ hx)) hnext
        refine ⟨fun h => ?_, fun h => ?_⟩
        · rw [hok h]
          rfl
        · obtain ⟨i, hi⟩ := herror h
          exact ⟨i + 1, by rw [hi]; rfl⟩
      · -- the digits that follow only make the number larger
        rw [if_neg hnext]
        have hle := le_numeralFrom hbase (value * base + digitValue d) ds
        exact ⟨fun h => absurd (Nat.lt_of_le_of_lt hle h) hnext, fun _ => ⟨0, rfl⟩⟩

/-- A literal is a token if its value fits a word. -/
theorem literal_of_lt {base lead : Nat} {ds : List Char} (hbase : 0 < base)
    (hds : ∀ d ∈ ds, isHexDigit d = true) (h : numeral base ds < 2 ^ 64) :
    literal base lead ds =
      .token (.number (.ofNat 64 (numeral base ds))) (lead + ds.length - 1) := by
  have hread := (readDigits_eq hbase 0 ds hds (by decide)).1 h
  rw [literal, hread]
  rfl

/-- A literal whose value does not fit is a fault; at which digit that shows is left open. -/
theorem literal_of_le {base : Nat} {ds : List Char} (lead : Nat) (hbase : 0 < base)
    (hds : ∀ d ∈ ds, isHexDigit d = true) (h : 2 ^ 64 ≤ numeral base ds) :
    ∃ i, literal base lead ds = .fault .overflow i := by
  obtain ⟨i, hread⟩ := (readDigits_eq hbase 0 ds hds (by decide)).2 h
  rw [literal, hread]
  exact ⟨_, rfl⟩

/-- A zero starts a hexadecimal literal only if an `x` follows it. -/
theorem zero_eq_decimal {cs : List Char} (h : ∀ d ∈ cs.head?, d ≠ 'x' ∧ d ≠ 'X') :
    zero cs = decimal '0' cs := by
  unfold zero
  split
  · exact absurd rfl (h 'x' rfl).1
  · exact absurd rfl (h 'X' rfl).2
  · rfl

/-- Digits are read as one literal if no digit follows them and they are not the zero of a `0x`. -/
theorem front_digits {d : Char} {ds rest : List Char} (hds : ∀ c ∈ d :: ds, c.isDigit = true)
    (hrest : ∀ c ∈ rest.head?, c.isDigit = false)
    (hhex : d :: ds = ['0'] → ∀ c ∈ rest.head?, c ≠ 'x' ∧ c ≠ 'X') :
    front d (ds ++ rest) = literal 10 0 (d :: ds) := by
  have hmore : ∀ c ∈ ds, c.isDigit = true := fun c hc => hds c (List.mem_cons_of_mem _ hc)
  have hdecimal : decimal d (ds ++ rest) = literal 10 0 (d :: ds) := by
    rw [decimal, takeWhile_append_stop hmore hrest]
  -- a leading zero could also be that of a hexadecimal literal
  by_cases hzero : d = '0'
  · subst hzero
    show zero (ds ++ rest) = _
    rw [zero_eq_decimal, hdecimal]
    intro c hc
    cases ds with
    | nil => exact hhex rfl c hc
    | cons d' ds =>
        obtain rfl : d' = c := Option.some.inj hc
        -- the next digit is no `x`, so it is not
        have hd' := isDigit_iff.mp (hmore d' List.mem_cons_self)
        refine ⟨?_, ?_⟩
        · rintro rfl
          exact absurd hd' (by decide)
        · rintro rfl
          exact absurd hd' (by decide)
  · rw [front_decimal _ (hds d List.mem_cons_self) hzero, hdecimal]

/-- All the digits behind `0x` are one literal, if what follows is not one of them. -/
theorem front_hexadecimal {x : Char} {ds rest : List Char} (hx : x = 'x' ∨ x = 'X') (hne : ds ≠ [])
    (hds : ∀ d ∈ ds, isHexDigit d = true) (hrest : ∀ d ∈ rest.head?, isHexDigit d = false) :
    front '0' (x :: (ds ++ rest)) = literal 16 2 ds := by
  have hhexadecimal : hexadecimal (ds ++ rest) = literal 16 2 ds := by
    rw [hexadecimal, takeWhile_append_stop hds hrest]
    cases ds with
    | nil => exact absurd rfl hne
    | cons d ds => rfl
  rcases hx with rfl | rfl
  · exact hhexadecimal
  · exact hhexadecimal

/-- A decimal literal is found if no digit follows it, nor an `x` if it is zero alone. -/
theorem finds_decimal {ds rest : List Char} (hne : ds ≠ []) (hds : ∀ c ∈ ds, c.isDigit = true)
    (hrest : ∀ c ∈ rest.head?, c.isDigit = false)
    (hhex : ds = ['0'] → ∀ c ∈ rest.head?, c ≠ 'x' ∧ c ≠ 'X') (hvalue : numeral 10 ds < 2 ^ 64) :
    Finds ds rest (.token (.number (.ofNat 64 (numeral 10 ds)))) := by
  obtain ⟨d, ds, rfl⟩ := List.exists_cons_of_ne_nil hne
  refine ⟨d, ds, rfl, ?_⟩
  rw [front_digits hds hrest hhex,
    literal_of_lt (by decide) (fun c hc => isHexDigit_of_isDigit (hds c hc)) hvalue]
  simp

/-- A hexadecimal literal is found if no further digit follows it and its value fits. -/
theorem finds_hexadecimal {x : Char} {ds rest : List Char} (hx : x = 'x' ∨ x = 'X') (hne : ds ≠ [])
    (hds : ∀ d ∈ ds, isHexDigit d = true) (hrest : ∀ d ∈ rest.head?, isHexDigit d = false)
    (hvalue : numeral 16 ds < 2 ^ 64) :
    Finds ('0' :: x :: ds) rest (.token (.number (.ofNat 64 (numeral 16 ds)))) := by
  refine ⟨'0', x :: ds, rfl, ?_⟩
  rw [List.cons_append, front_hexadecimal hx hne hds hrest, literal_of_lt (by decide) hds hvalue,
    List.length_cons]
  congr 1
  omega

/-- No digit follows the `0x`. -/
theorem front_bareHex {x : Char} {rest : List Char} (hx : x = 'x' ∨ x = 'X')
    (hrest : ∀ d ∈ rest.head?, isHexDigit d = false) :
    front '0' (x :: rest) = .fault .missingDigits 2 := by
  have hhexadecimal : hexadecimal rest = .fault .missingDigits 2 := by
    have hnil : ([] ++ rest).takeWhile isHexDigit = [] := takeWhile_append_stop (by simp) hrest
    rw [List.nil_append] at hnil
    rw [hexadecimal, hnil]
  rcases hx with rfl | rfl
  · exact hhexadecimal
  · exact hhexadecimal

/-! ## Operators -/

/-- Where one spelling starts another, the other one has a further `=`. -/
theorem spelling_extension : ∀ o ∈ Token.operators, ∀ o' ∈ Token.operators,
    o.1.toList <+: o'.1.toList → o'.1.toList = o.1.toList ∨ o'.1.toList = o.1.toList ++ ['='] := by
  decide +kernel

theorem operatorOf?_eq : ∀ o ∈ Token.operators, operatorOf? o.1 = some o.2 := by decide +kernel

/-- Looking a spelling up finds the operators of the table and no others. -/
theorem operatorOf?_eq_some {spelling : String} {t : Token} :
    operatorOf? spelling = some t ↔ (spelling, t) ∈ Token.operators := by
  refine ⟨fun h => ?_, fun h => operatorOf?_eq _ h⟩
  obtain ⟨o, ho, rfl⟩ := Option.map_eq_some_iff.mp h
  have hspelling : o.1 = spelling := by simpa using List.find?_some ho
  rw [← hspelling]
  exact List.mem_of_find?_eq_some ho

/-- A run is the start of an operator if some spelling begins with it. -/
theorem startsOperator_iff {cs : List Char} :
    startsOperator cs = true ↔ ∃ o ∈ Token.operators, cs <+: o.1.toList := by
  unfold startsOperator
  simp only [List.any_eq_true, List.isPrefixOf_iff_prefix]

/-- A spelling can be extended towards another one by an `=` only, which completes the other one. -/
theorem startsOperator_spelling {spelling : String} {t : Token} {d : Char}
    (h : (spelling, t) ∈ Token.operators) (hd : startsOperator (spelling.toList ++ [d]) = true) :
    d = '=' ∧ ∃ o ∈ Token.operators, o.1.toList = spelling.toList ++ [d] := by
  obtain ⟨o, ho, hstart⟩ := startsOperator_iff.mp hd
  have hprefix : spelling.toList <+: o.1.toList := (List.prefix_append _ _).trans hstart
  rcases spelling_extension _ h o ho hprefix with heq | heq
  · have hlength := hstart.length_le
    rw [heq, List.length_append, List.length_singleton] at hlength
    exact absurd hlength (Nat.not_succ_le_self _)
  · rw [heq] at hstart
    have hd : d = '=' := by simpa [List.prefix_append_right_inj] using hstart
    exact ⟨hd, o, ho, by rw [heq, hd]⟩

/-- A run that has come to a beginning of an operator goes on from there. -/
theorem operatorRun_append {seen more rest : List Char}
    (h : startsOperator (seen ++ more) = true) :
    operatorRun seen (more ++ rest) = operatorRun (seen ++ more) rest := by
  induction more generalizing seen with
  | nil => rw [List.nil_append, List.append_nil]
  | cons c more ih =>
      have hnext : startsOperator (seen ++ [c]) = true := by
        obtain ⟨o, ho, hstart⟩ := startsOperator_iff.mp h
        refine startsOperator_iff.mpr ⟨o, ho, List.IsPrefix.trans ?_ hstart⟩
        exact ⟨more, by simp⟩
      rw [List.cons_append, operatorRun, if_pos hnext, ih (by simpa using h)]
      simp

/-- A run ends where the next character makes no operator of it. -/
theorem operatorRun_stop {seen rest : List Char}
    (h : ∀ d ∈ rest.head?, startsOperator (seen ++ [d]) = false) :
    operatorRun seen rest = seen := by
  cases rest with
  | nil => rfl
  | cons d ds => rw [operatorRun, if_neg (by simp [h d rfl])]

/-- A slash starts an operator unless it opens a comment. -/
theorem slash_eq_operator {cs : List Char} (h : ∀ d ∈ cs.head?, d ≠ '/' ∧ d ≠ '*') :
    slash cs = operator '/' cs := by
  unfold slash
  split
  · exact absurd rfl (h '/' rfl).1
  · exact absurd rfl (h '*' rfl).2
  · rfl

/--
The beginning of an operator is looked up as one. A slash alone is one too, but with another
character behind it might open a comment.
-/
theorem front_startsOperator {c : Char} {cs rest : List Char} (h : startsOperator (c :: cs) = true)
    (hne : c = '/' → cs ≠ []) : front c (cs ++ rest) = operator c (cs ++ rest) := by
  -- no spelling starts with the opening of a comment
  have hslash : ∀ o ∈ Token.operators, o.1.toList.head? = some '/' →
      o.1.toList.tail.head? ≠ some '/' ∧ o.1.toList.tail.head? ≠ some '*' := by decide +kernel
  obtain ⟨o, ho, tail, htail⟩ := startsOperator_iff.mp h
  by_cases hc : c = '/'
  · subst hc
    show slash (cs ++ rest) = _
    refine slash_eq_operator fun d hd => ?_
    obtain ⟨d', cs, rfl⟩ := List.exists_cons_of_ne_nil (hne rfl)
    obtain ⟨hline, hblock⟩ := hslash o ho (by rw [← htail]; rfl)
    rw [← htail] at hline hblock
    exact ⟨fun h => hline (h ▸ hd), fun h => hblock (h ▸ hd)⟩
  · refine front_operator _ ((startsOperator_singleton c).mp ?_) hc
    exact startsOperator_iff.mpr ⟨o, ho, cs ++ tail, htail⟩

/--
An operator is found if no longer one is about to follow. One character is enough to see that, since
the run ends where the next character is no part of any operator.
-/
theorem finds_operator {spelling : String} {t : Token} {rest : List Char}
    (h : (spelling, t) ∈ Token.operators)
    (hrest : ∀ d ∈ rest.head?, startsOperator (spelling.toList ++ [d]) = false) :
    Finds spelling.toList rest (.token t) := by
  have hnot_slash : ∀ o ∈ Token.operators, o.1.toList ≠ ['/'] := by decide +kernel
  obtain ⟨c, cs, hspelling⟩ := List.exists_cons_of_ne_nil (spelling_ne_nil _ h)
  replace hspelling : spelling.toList = c :: cs := hspelling
  refine ⟨c, cs, hspelling, ?_⟩
  have hself : startsOperator (c :: cs) = true :=
    startsOperator_iff.mpr ⟨_, h, [], by simp [hspelling]⟩
  -- operators are read greedily, and no longer one starts here
  have hrun : operatorRun [c] (cs ++ rest) = c :: cs := by
    have happend : operatorRun [c] (cs ++ rest) = operatorRun (c :: cs) rest :=
      operatorRun_append hself
    rw [happend]
    exact operatorRun_stop (by rw [hspelling] at hrest; exact hrest)
  have hfound : operatorOf? (String.ofList (c :: cs)) = some t := by
    rw [← hspelling, String.ofList_toList]
    exact operatorOf?_eq _ h
  rw [front_startsOperator hself]
  · simp only [operator, hrun, hfound]
    rfl
  · rintro rfl rfl
    exact hnot_slash _ h hspelling

/-! ## Marks and comments -/

theorem finds_wide (rest : List Char) : Finds "\x7bwide\x7d".toList rest (.token .wide) := by
  refine ⟨'\x7b', "wide\x7d".toList, rfl, ?_⟩
  rfl

theorem finds_space {c : Char} {rest : List Char} (hc : Text.isBlank c = true) (hne : c ≠ '\n') :
    Finds [c] rest .blank := ⟨c, [], rfl, front_space _ hc hne⟩

/-- A comment up to the end of its line is found, without the line break. -/
theorem finds_line {body rest : List Char} (hbody : '\n' ∉ body)
    (hrest : rest = [] ∨ rest.head? = some '\n') : Finds ('/' :: '/' :: body) rest .blank := by
  refine ⟨'/', '/' :: body, rfl, ?_⟩
  show Front.blank (1 + ((body ++ rest).takeWhile (· ≠ '\n')).length) = _
  rw [takeWhile_append_stop, List.length_cons, Nat.add_comm]
  · intro c hc
    have hne : c ≠ '\n' := by
      rintro rfl
      exact hbody hc
    simpa using hne
  -- the comment ends at the line break, or with the text
  · intro d hd
    rcases hrest with rfl | hrest
    · cases hd
    · rw [hrest] at hd
      cases hd
      decide

/--
A block comment ends at the first `*/` in it, behind the two characters that open it. So what has
been passed has none, not even with the star that ends it.
-/
theorem closeComment?_append {body rest : List Char} (hbody : ¬ ['*', '/'] <:+: body ++ ['*']) :
    closeComment? (body ++ '*' :: '/' :: rest) = some (body.length + 2) := by
  induction body with
  | nil => rfl
  | cons b body ih =>
      -- an end inside the rest would be one inside the whole
      have htail : ¬ ['*', '/'] <:+: body ++ ['*'] := fun h =>
        hbody (h.trans (List.infix_cons List.infix_rfl))
      rw [List.cons_append, closeComment?, ih htail]
      · rfl
      · rintro rest' rfl hrest'
        -- a `/` right after the `*` would end the comment here
        cases body with
        | nil => cases hrest'
        | cons b' body =>
            cases hrest'
            exact hbody ⟨[], body ++ ['*'], rfl⟩

/-- A block comment is found up to its first end. -/
theorem finds_block {body rest : List Char} (hbody : ¬ ['*', '/'] <:+: body ++ ['*']) :
    Finds ('/' :: '*' :: (body ++ ['*', '/'])) rest .blank := by
  refine ⟨'/', '*' :: (body ++ ['*', '/']), rfl, ?_⟩
  have hclose : closeComment? (body ++ ['*', '/'] ++ rest) = some (body.length + 2) := by
    rw [List.append_assoc]
    exact closeComment?_append hbody
  show slash ('*' :: (body ++ ['*', '/'] ++ rest)) = _
  simp only [slash, hclose]
  simp [Nat.add_comm]

/-! ## Points of a scan -/

theorem finds_of_skips {cs rest : List Char} (h : Skips cs rest) :
    ∃ w, cs = w ++ rest ∧ Finds w rest .blank := by
  cases h with
  | @space c _ hc hne => exact ⟨[c], rfl, finds_space hc hne⟩
  | @line body _ hbody hrest => exact ⟨'/' :: '/' :: body, rfl, finds_line hbody hrest⟩
  | @block body _ hbody => exact ⟨'/' :: '*' :: (body ++ ['*', '/']), by simp, finds_block hbody⟩

/-- The longest lexeme together with what follows it is none. -/
theorem Longest.not_lexeme_append {w rest : List Char} {m m' : Meaning} {d : Char}
    (h : Longest w rest m) (hd : d ∈ rest.head?) : ¬ Lexeme (w ++ [d]) m' := by
  intro hlexeme
  obtain ⟨rest, rfl⟩ := List.head?_eq_some_iff.mp hd
  have hle := h.longest _ _ hlexeme ⟨rest, by simp⟩
  rw [List.length_append, List.length_singleton] at hle
  omega

/-- What follows the longest lexeme is not in a class of characters that could continue it. -/
theorem Longest.stops {w rest : List Char} {m : Meaning} {p : Char → Bool} (h : Longest w rest m)
    (hp : ∀ d, p d = true → ∃ m', Lexeme (w ++ [d]) m') : ∀ d ∈ rest.head?, p d = false := by
  intro d hd
  rw [← Bool.not_eq_true]
  intro hpd
  obtain ⟨m', hlexeme⟩ := hp d hpd
  exact h.not_lexeme_append hd hlexeme

/--
What follows the longest lexeme cannot go on with the word: together they would be a longer one.
-/
theorem Longest.word_stops {c : Char} {cs rest : List Char} {m : Meaning}
    (h : Longest (c :: cs) rest m) (hc : isWordStart c = true)
    (hcs : ∀ d ∈ cs, isWordChar d = true) : ∀ d ∈ rest.head?, isWordChar d = false := by
  refine h.stops fun d hd => ⟨_, .word hc ?_⟩
  intro x hx
  rcases List.mem_append.mp hx with hx | hx
  · exact hcs x hx
  · rwa [List.mem_singleton.mp hx]

theorem Longest.decimal_stops {ds rest : List Char} {m : Meaning} (h : Longest ds rest m)
    (hds : ∀ d ∈ ds, d.isDigit = true) : ∀ d ∈ rest.head?, d.isDigit = false := by
  refine h.stops fun d hd => ⟨_, .decimal (by simp) ?_⟩
  intro x hx
  rcases List.mem_append.mp hx with hx | hx
  · exact hds x hx
  · rwa [List.mem_singleton.mp hx]

/-- The longest hexadecimal literal stops where no hexadecimal digit follows. -/
theorem Longest.hexadecimal_stops {x : Char} {ds rest : List Char} {m : Meaning}
    (h : Longest ('0' :: x :: ds) rest m) (hx : x = 'x' ∨ x = 'X')
    (hds : ∀ d ∈ ds, isHexDigit d = true) : ∀ d ∈ rest.head?, isHexDigit d = false := by
  refine h.stops fun d hd => ⟨_, .hexadecimal hx (by simp) ?_⟩
  intro y hy
  rcases List.mem_append.mp hy with hy | hy
  · exact hds y hy
  · rwa [List.mem_singleton.mp hy]

/-- A zero that is the longest lexeme is followed by an `x` only in a bare `0x`. -/
theorem Longest.zero_stops {rest : List Char} {m : Meaning} (h : Longest ['0'] rest m)
    (hbare : ¬ BareHex ('0' :: rest)) : ∀ c ∈ rest.head?, c ≠ 'x' ∧ c ≠ 'X' := by
  intro x hx
  rw [← not_or]
  intro hx'
  obtain ⟨rest, rfl⟩ := List.head?_eq_some_iff.mp hx
  refine hbare (.intro hx' fun d hd => ?_)
  rw [← Bool.not_eq_true]
  intro hdigit
  obtain ⟨rest, rfl⟩ := List.head?_eq_some_iff.mp hd
  -- with a digit after the `x`, the literal would be longer
  have hlexeme : Lexeme ['0', x, d] _ := .hexadecimal hx' (by simp) (by simpa using hdigit)
  have hle := h.longest _ _ hlexeme ⟨rest, rfl⟩
  simp at hle

/--
The same of an operator: a character that goes on with it completes a longer spelling, so there is
none.
-/
theorem Longest.operator_stops {spelling : String} {t : Token} {rest : List Char} {m : Meaning}
    (h : Longest spelling.toList rest m) (hmem : (spelling, t) ∈ Token.operators) :
    ∀ d ∈ rest.head?, startsOperator (spelling.toList ++ [d]) = false := by
  refine h.stops (p := fun d => startsOperator (spelling.toList ++ [d])) fun d hd => ?_
  obtain ⟨-, o, ho, heq⟩ := startsOperator_spelling hmem hd
  rw [← heq]
  exact ⟨_, .operator ho⟩

/--
What a scan takes is found to be that token. A scan takes the longest lexeme, so what follows it
cannot continue it.
-/
theorem finds_of_takes {cs rest : List Char} {t : Token} (h : Takes cs t rest) :
    ∃ w, cs = w ++ rest ∧ Finds w rest (.token t) := by
  cases h with
  | @token w _ _ _ h =>
      refine ⟨w, rfl, ?_⟩
      -- what may follow a lexeme depends on its form
      cases h.lexeme with
      | lineBreak => exact ⟨'\n', [], rfl, rfl⟩
      | word hc hcs => exact finds_word hc hcs (h.word_stops hc hcs)
      | wide => exact finds_wide rest
      | operator hmem => exact finds_operator hmem (h.operator_stops hmem)
  | @literal w _ value _ hbare h hvalue =>
      refine ⟨w, rfl, ?_⟩
      cases h.lexeme with
      | hexadecimal hx hne hds =>
          exact finds_hexadecimal hx hne hds (h.hexadecimal_stops hx hds) hvalue
      | decimal hne hds =>
          refine finds_decimal hne hds (h.decimal_stops hds) ?_ hvalue
          rintro rfl
          exact h.zero_stops hbare

/-! ## What is found is there -/

/-- The token of a meaning. -/
def Meaning.asToken : Meaning → Token
  | token t => t
  | literal value => .number (.ofNat 64 value)

/-- The text starts with what has been found. -/
def Stands (cs : List Char) : Front → Prop
  | .token t n => ∃ w m, Lexeme w m ∧ w <+: cs ∧ w.length = n + 1 ∧ m.asToken = t
  | .blank _ => ∃ rest, Skips cs rest
  | .fault _ _ => True

/-- A literal that was found stands there, with the digits that were taken. -/
theorem stands_literal {base lead : Nat} {ds w cs : List Char} (hbase : 0 < base)
    (hds : ∀ d ∈ ds, isHexDigit d = true) (hw : Lexeme w (.literal (numeral base ds)))
    (hstart : w <+: cs) (hlength : w.length = lead + ds.length) :
    Stands cs (literal base lead ds) := by
  rcases Nat.lt_or_ge (numeral base ds) (2 ^ 64) with hvalue | hvalue
  · rw [literal_of_lt hbase hds hvalue]
    have hpos := List.length_pos_iff.mpr hw.ne_nil
    exact ⟨w, _, hw, hstart, by omega, rfl⟩
  · obtain ⟨i, hfault⟩ := literal_of_le lead hbase hds hvalue
    rw [hfault]
    trivial

theorem stands_decimal {c : Char} {cs : List Char} (hc : c.isDigit = true) :
    Stands (c :: cs) (decimal c cs) := by
  have hds : ∀ d ∈ c :: cs.takeWhile Char.isDigit, d.isDigit = true :=
    List.forall_mem_cons.mpr ⟨hc, fun _ => List.mem_takeWhile_imp⟩
  exact stands_literal (by decide) (fun d hd => isHexDigit_of_isDigit (hds d hd))
    (.decimal (by simp) hds) (List.prefix_cons_inj c |>.mpr (List.takeWhile_prefix _))
    (Nat.zero_add _).symm

/-- Hexadecimal digits are taken as a literal, if there are any of them. -/
theorem stands_hexadecimal {x : Char} {cs : List Char} (hx : x = 'x' ∨ x = 'X') :
    Stands ('0' :: x :: cs) (hexadecimal cs) := by
  unfold hexadecimal
  split
  · trivial
  · next hne =>
    have hds : ∀ d ∈ cs.takeWhile isHexDigit, isHexDigit d = true :=
      fun _ => List.mem_takeWhile_imp
    refine stands_literal (by decide) hds (.hexadecimal hx ?_ hds) ?_ (Nat.add_comm _ 2)
    · exact hne
    · simpa using List.takeWhile_prefix isHexDigit

theorem stands_zero (cs : List Char) : Stands ('0' :: cs) (zero cs) := by
  unfold zero
  split
  · exact stands_hexadecimal (.inl rfl)
  · exact stands_hexadecimal (.inr rfl)
  · exact stands_decimal (by decide)

theorem stands_word {c : Char} {cs : List Char} (hc : isWordStart c = true) :
    Stands (c :: cs) (word c cs) :=
  ⟨c :: cs.takeWhile isWordChar, _, .word hc fun _ => List.mem_takeWhile_imp,
    (List.prefix_cons_inj c).mpr (List.takeWhile_prefix _), rfl, rfl⟩

/-- A run is a part of the text that it was taken from. -/
theorem operatorRun_prefix (seen cs : List Char) : operatorRun seen cs <+: seen ++ cs := by
  induction cs generalizing seen with
  | nil => simp [operatorRun]
  | cons c cs ih =>
      rw [operatorRun]
      split
      · simpa using ih (seen ++ [c])
      · exact List.prefix_append _ _

/-- A run that was looked up and found is an operator. -/
theorem stands_operator (c : Char) (cs : List Char) : Stands (c :: cs) (operator c cs) := by
  simp only [operator]
  split
  · next t ht =>
    have hlexeme := Lexeme.operator (operatorOf?_eq_some.mp ht)
    rw [String.toList_ofList] at hlexeme
    have hpos := List.length_pos_iff.mpr hlexeme.ne_nil
    exact ⟨_, _, hlexeme, operatorRun_prefix [c] cs, (Nat.sub_add_cancel hpos).symm, rfl⟩
  · trivial

/--
The end of a block comment is the first one, so what is found is a comment as the scan has it.
-/
theorem exists_of_closeComment? {cs : List Char} {n : Nat} (h : closeComment? cs = some n) :
    ∃ body rest, cs = body ++ '*' :: '/' :: rest ∧ ¬ ['*', '/'] <:+: body ++ ['*'] := by
  fun_induction closeComment? cs generalizing n with
  | case1 => cases h
  | case2 rest => exact ⟨[], rest, rfl, by decide⟩
  | case3 c cs hclose ih =>
      obtain ⟨m, hm, -⟩ := Option.map_eq_some_iff.mp h
      obtain ⟨body, rest, rfl, hbody⟩ := ih hm
      refine ⟨c :: body, rest, rfl, fun hinfix => ?_⟩
      rcases List.infix_cons_iff.mp hinfix with hstart | hinfix
      · -- the comment would end right here
        obtain ⟨rfl, hslash⟩ := List.cons_prefix_cons.mp hstart
        cases body with
        | nil => exact absurd hslash (by decide)
        | cons b body =>
            obtain ⟨rfl, -⟩ := List.cons_prefix_cons.mp hslash
            exact hclose _ rfl rfl
      · exact hbody hinfix

/-- A comment that was skipped is one, and whatever else a slash starts stands there. -/
theorem stands_slash (cs : List Char) : Stands ('/' :: cs) (slash cs) := by
  unfold slash
  split
  · next cs =>
    -- the comment is cut where its line ends
    have hskips : Skips ('/' :: '/' :: (cs.takeWhile (· ≠ '\n') ++ cs.dropWhile (· ≠ '\n')))
        (cs.dropWhile (· ≠ '\n')) := by
      refine .line (fun hmem => ?_) ?_
      · simpa using List.mem_takeWhile_imp hmem
      · cases hdrop : cs.dropWhile (· ≠ '\n') with
        | nil => exact .inl rfl
        | cons d ds =>
            have := List.head?_dropWhile_not (fun c : Char => decide (c ≠ '\n')) cs
            rw [hdrop] at this
            simpa using this
    rw [List.takeWhile_append_dropWhile] at hskips
    exact ⟨_, hskips⟩
  · next cs =>
    split
    · next n hn =>
      obtain ⟨body, rest, rfl, hbody⟩ := exists_of_closeComment? hn
      exact ⟨rest, .block hbody⟩
    · trivial
  · exact stands_operator '/' cs

/--
A mark that was found is the one mark of the language, because any other text in the braces is a
fault.
-/
theorem stands_mark (cs : List Char) : Stands ('\x7b' :: cs) (mark cs) := by
  simp only [mark]
  split
  · next tail hdrop =>
    split
    · next hwide =>
      -- the text between the braces is `wide`, so its length is known
      have hlength : (cs.takeWhile isInside).length = "wide".length := by
        rw [← hwide, ← String.length_toList, String.toList_ofList]
      refine ⟨_, _, .wide, ⟨tail, ?_⟩, by rw [hlength]; rfl, rfl⟩
      have hcs := List.prefix_iff_eq_append.mp
        (List.takeWhile_prefix isInside (l := cs))
      rw [hdrop, ← String.toList_ofList (l := cs.takeWhile _), hwide] at hcs
      rw [← hcs]
      rfl
    · trivial
  · trivial

/--
**What is found is there.** One case for each character that something can start with, in the order
in which they are tried.
-/
theorem stands_front (c : Char) (cs : List Char) : Stands (c :: cs) (front c cs) := by
  unfold front
  -- in the order in which the characters are tried
  split
  · next hc =>
    subst hc
    exact ⟨_, _, .lineBreak, ⟨cs, rfl⟩, rfl, rfl⟩
  · next hbreak =>
    split
    · next hc => exact hc ▸ stands_slash cs
    · split
      · next hc => exact hc ▸ stands_mark cs
      · split
        · next hc => exact hc ▸ stands_zero cs
        · split
          · next hc => exact stands_decimal hc
          · split
            · next hc => exact stands_word hc
            · split
              · exact stands_operator c cs
              · split
                · next hc => exact ⟨cs, .space hc hbreak⟩
                · trivial

/-- Of the lexemes, only a line break has a character that does not take one column. -/
theorem Lexeme.plain {w : List Char} {m : Meaning} (h : Lexeme w m) :
    w = ['\n'] ∨ '\n' ∉ w ∧ '\t' ∉ w := by
  -- all characters of a lexeme are of one kind that excludes both
  have hplain : ∀ p : Char → Bool, p '\n' = false → p '\t' = false → (∀ c ∈ w, p c = true) →
      '\n' ∉ w ∧ '\t' ∉ w := by
    intro p hbreak htab hw
    exact ⟨fun hmem => by simp [hw _ hmem] at hbreak, fun hmem => by simp [hw _ hmem] at htab⟩
  cases h with
  | lineBreak => exact .inl rfl
  | word hc hcs =>
    exact .inr (hplain isWordChar rfl rfl
      (List.forall_mem_cons.mpr ⟨isWordChar_iff.mpr (.inl hc), hcs⟩))
  | hexadecimal hx _ hds =>
    exact .inr (hplain isWordChar rfl rfl (isWordChar_hexadecimal hx hds))
  | decimal _ hds => exact .inr (hplain Char.isDigit rfl rfl hds)
  | wide => exact .inr (by decide)
  | operator h =>
    have htable : ∀ o ∈ Token.operators, '\n' ∉ o.1.toList ∧ '\t' ∉ o.1.toList := by decide +kernel
    exact .inr (htable _ h)

/-! ## Where a scan is stuck -/

/-- A literal that is too large is a fault, although it is the longest lexeme. -/
theorem fault_of_overflow {w rest : List Char} {value : Nat} (h : Longest w rest (.literal value))
    (hvalue : 2 ^ 64 ≤ value) : ∃ c cs e n, w ++ rest = c :: cs ∧ front c cs = .fault e n := by
  cases h.lexeme with
  | @hexadecimal x ds hx hne hds =>
      obtain ⟨i, hfault⟩ := literal_of_le 2 (by decide) hds hvalue
      refine ⟨'0', x :: (ds ++ rest), .overflow, i, rfl, ?_⟩
      rw [front_hexadecimal hx hne hds (h.hexadecimal_stops hx hds), hfault]
  | @decimal ds hne hds =>
      obtain ⟨d, ds, rfl⟩ := List.exists_cons_of_ne_nil hne
      obtain ⟨i, hfault⟩ := literal_of_le 0 (by decide)
        (fun c hc => isHexDigit_of_isDigit (hds c hc)) hvalue
      refine ⟨d, ds ++ rest, .overflow, i, rfl, ?_⟩
      rw [front_digits hds (h.decimal_stops hds) ?_, hfault]
      -- zero is not so large
      intro hzero
      rw [hzero] at hvalue
      exact absurd hvalue (by decide)

/--
Where a scan is stuck, a fault is found. Which one it is differs with what stands there, but there
is always one.
-/
theorem fault_of_stuck {cs : List Char} (h : Stuck cs) :
    ∃ c cs' e n, cs = c :: cs' ∧ front c cs' = .fault e n := by
  cases h with
  | bareHex h =>
      obtain ⟨hx, hrest⟩ := h
      exact ⟨'0', _, _, _, rfl, front_bareHex hx hrest⟩
  | overflow h hvalue => exact fault_of_overflow h hvalue
  | nothing hne hskip hlexeme =>
      obtain ⟨c, cs, rfl⟩ := List.exists_cons_of_ne_nil hne
      have hstands := stands_front c cs
      -- what is found stands there, but where a scan is stuck nothing does
      cases hfront : front c cs with
      | fault e n => exact ⟨c, cs, e, n, rfl, hfront⟩
      | blank n =>
          rw [hfront] at hstands
          obtain ⟨rest, hrest⟩ := hstands
          exact absurd hrest (hskip rest)
      | token t n =>
          rw [hfront] at hstands
          obtain ⟨w, m, hw, hstart, -, -⟩ := hstands
          exact absurd hstart (hlexeme w m hw)

end Quadword.Lexical
