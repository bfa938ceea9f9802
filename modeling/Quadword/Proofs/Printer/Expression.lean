import Quadword.Proofs.Grammar.Program
import Quadword.Proofs.Printer.Characters

/-!
# Reading printed expressions back

The text of an expression is broken into tokens that derive the expression again. The printer writes
slots in one of their forms only and puts operands that are operations into parentheses, so these
are in general not the tokens that the expression was read from.

* **`Passes`** gets one rule for each kind of lexeme, so that a text is passed piece by piece.
* **`ReadsAs`**: a text whose tokens have a property, whatever follows it.
* **`Derives.readsAs`**: the text of an expression without negative literals reads as it.
-/

namespace Quadword

namespace Lexical

/-! ## Passing one piece of a text -/

/-- A text that does not continue a word or a literal. -/
def Ends (rest : List Char) : Prop := ∀ d ∈ rest.head?, isWordChar d = false

/-- Whether a word or a literal ends is up to the first character that follows it. -/
theorem ends_cons {c : Char} {rest : List Char} (h : isWordChar c = false) :
    Ends (c :: rest) := by
  intro d hd
  cases hd
  exact h

/-- A text that does not continue an operator. -/
def Resumes (rest : List Char) : Prop := ∀ d ∈ rest.head?, d ≠ '='

/--
Whether an operator ends is up to the first character that follows it, which must not be an `=`.
-/
theorem resumes_cons {c : Char} {rest : List Char} (h : c ≠ '=') : Resumes (c :: rest) := by
  intro d hd
  cases hd
  exact h

/-- The operators of one character that no longer one starts with. -/
def marks : List (Char × Token) :=
  [('~', .tilde), (',', .comma), ('#', .hash), ('?', .question), (':', .colon), ('(', .openParen),
    (')', .closeParen), ('[', .openSquare), (']', .closeSquare)]

/-- Decimal digits write the number that they stand for elsewhere. -/
theorem numeralFrom_ten {value : Nat} {ds : List Char} (hds : ∀ d ∈ ds, d.isDigit = true) :
    numeralFrom 10 value ds = Nat.ofDigitChars 10 ds value := by
  induction ds generalizing value with
  | nil => rfl
  | cons d ds ih =>
      obtain ⟨hd, hds⟩ := List.forall_mem_cons.mp hds
      have hdigit : digit d = d.toNat - '0'.toNat := by
        rw [digit_eq_digitValue (isHexDigit_of_isDigit hd), digitValue, if_pos hd]
        rfl
      show numeralFrom 10 (value * 10 + digit d) ds = _
      rw [ih hds, hdigit, Nat.mul_comm]
      rfl

/-- An operator is no literal. -/
theorem not_wraps_of_operator {spelling : String} {t : Token}
    (hmem : (spelling, t) ∈ Token.operators) (rest : List Char) :
    ¬ Wraps (spelling.toList ++ rest) := by
  have hall : ∀ o ∈ Token.operators, o.1.toList.head? ≠ some '0' := by decide +kernel
  obtain ⟨c, cs, heq⟩ := List.exists_cons_of_ne_nil (spelling_ne_nil _ hmem)
  have hzero : c ≠ '0' := by
    rintro rfl
    exact hall _ hmem (by rw [heq]; rfl)
  rw [heq]
  exact not_wraps_of_ne hzero _

namespace Passes

variable {rest last : List Char} {ts : List Token}

/--
Two passages in a row are one. With this a printed text is passed piece by piece, as it is put
together.
-/
theorem trans {cs mid : List Char} {us : List Token} (h : Passes cs ts mid)
    (h' : Passes mid us last) : Passes cs (ts ++ us) last := by
  induction h with
  | refl cs => exact h'
  | blank h _ ih => exact .blank h (ih h')
  | token h hwraps _ ih => exact .token h hwraps (ih h')

theorem space (h : Passes rest ts last) : Passes (' ' :: rest) ts last :=
  .blank (finds_space (by decide) (by decide)) h

theorem lineBreak (h : Passes rest ts last) : Passes ('\n' :: rest) (.newline :: ts) last :=
  .token ⟨'\n', [], rfl, rfl⟩ (not_wraps_of_ne (by decide) rest) h

/--
A word is passed as what it stands for, if what follows cannot belong to it. No word starts with a
zero, so nothing is counted.
-/
theorem word {c : Char} {cs : List Char} {t : Token} (hc : isWordStart c = true)
    (hcs : ∀ d ∈ cs, isWordChar d = true) (ht : Token.ofWord (.ofList (c :: cs)) = t)
    (hrest : Ends rest) (h : Passes rest ts last) : Passes (c :: cs ++ rest) (t :: ts) last := by
  subst ht
  have hzero : c ≠ '0' := by
    rintro rfl
    cases hc
  exact .token (finds_word hc hcs hrest) (not_wraps_of_ne hzero _) h

/-- A word that is not reserved is passed as an identifier. -/
theorem name {name : String} (hname : IsName name) (hrest : Ends rest) (h : Passes rest ts last) :
    Passes (name.toList ++ rest) (.id name :: ts) last := by
  obtain ⟨c, cs, heq, hc, hcs⟩ := hname.word
  have ht : Token.ofWord (.ofList (c :: cs)) = .id name := by
    rw [← heq, String.ofList_toList]
    exact hname.free
  rw [heq]
  exact word hc hcs ht hrest h

/-- A reserved word is passed as its keyword. There are few enough of them to look at each. -/
theorem keyword (k : Keyword) (hrest : Ends rest) (h : Passes rest ts last) :
    Passes (k.spelling.toList ++ rest) (.keyword k :: ts) last := by
  have hall : ∀ k ∈ Keyword.all, k.spelling.toList.head?.any isWordStart = true ∧
      (∀ d ∈ k.spelling.toList.tail, isWordChar d = true) ∧
      Token.ofWord k.spelling = .keyword k := by decide +kernel
  obtain ⟨hhead, hcs, ht⟩ := hall k (Keyword.mem_all k)
  obtain ⟨c, hc, hstart⟩ := (Option.any_eq_true _ _).mp hhead
  obtain ⟨cs, heq⟩ := List.head?_eq_some_iff.mp hc
  rw [heq] at hcs ⊢
  refine word hstart hcs ?_ hrest h
  rw [← heq, String.ofList_toList]
  exact ht

/--
A printed number is passed as that number: its digits have the value, and the value fits a word.
-/
theorem number (n : Word) (hrest : Ends rest) (h : Passes rest ts last) :
    Passes ((toString n.toNat).toList ++ rest) (.number n :: ts) last := by
  have hdigits := isDigit_toString (n := n.toNat)
  -- the value of the digits, as the library computes it from them
  have hvalue : numeral 10 (toString n.toNat).toList = n.toNat := by
    rw [numeral, numeralFrom_ten hdigits, ofDigitChars_toString]
  have hword : ∀ c ∈ rest.head?, ¬ (isWordStart c = true ∨ c.isDigit = true) := by
    intro c hc
    rw [← isWordChar_iff, hrest c hc]
    exact Bool.false_ne_true
  -- a lone zero is not followed by the letter of a hexadecimal literal
  have hmark : ∀ c ∈ rest.head?, c ≠ 'x' ∧ c ≠ 'X' := by
    intro c hc
    constructor
    · rintro rfl
      exact hword _ hc (.inl (by decide))
    · rintro rfl
      exact hword _ hc (.inl (by decide))
  have hfinds : Finds (toString n.toNat).toList rest
      (.token (.number (.ofNat 64 (numeral 10 (toString n.toNat).toList)))) := by
    refine finds_decimal (toString_ne_nil _) hdigits (fun c hc => ?_) (fun _ => hmark) ?_
    · rw [← Bool.not_eq_true]
      exact fun hdigit => hword c hc (.inr hdigit)
    · rw [hvalue]
      exact n.isLt
  rw [hvalue, BitVec.ofNat_toNat, BitVec.setWidth_eq] at hfinds
  exact .token hfinds (not_wraps_of_isDigit (toString_ne_nil _) hdigits fun _ => hmark) h

/--
An operator is passed if no `=` follows, since only with an `=` can one operator be the start of
another.
-/
theorem operator {spelling : String} {t : Token} (hmem : (spelling, t) ∈ Token.operators)
    (hrest : Resumes rest) (h : Passes rest ts last) :
    Passes (spelling.toList ++ rest) (t :: ts) last := by
  refine .token (finds_operator hmem fun d hd => ?_) (not_wraps_of_operator hmem rest) h
  rw [← Bool.not_eq_true]
  intro hstarts
  exact hrest d hd (startsOperator_spelling hmem hstarts).1

/-- An operator of one character that no other one starts with is passed whatever follows it. -/
theorem mark {c : Char} {t : Token} (hmem : (c, t) ∈ marks) (h : Passes rest ts last) :
    Passes (c :: rest) (t :: ts) last := by
  -- no mark is an assignment with something in front, so what follows cannot make it longer
  have hall : ∀ m ∈ marks, (String.singleton m.1, m.2) ∈ Token.operators ∧
      startsOperator [m.1, '='] = false := by decide +kernel
  obtain ⟨hoperator, hclosed⟩ := hall (c, t) hmem
  have hwraps := not_wraps_of_operator hoperator rest
  have hfinds : Finds (String.singleton c).toList rest (.token t) := by
    refine finds_operator hoperator fun d hd => ?_
    rw [← Bool.not_eq_true]
    intro hstarts
    obtain ⟨rfl, -⟩ := startsOperator_spelling hoperator hstarts
    rw [String.toList_singleton] at hstarts
    exact Bool.false_ne_true (hclosed.symm.trans hstarts)
  rw [String.toList_singleton] at hfinds hwraps
  exact .token hfinds hwraps h

theorem wide (h : Passes rest ts last) :
    Passes ("\x7bwide\x7d".toList ++ rest) (.wide :: ts) last :=
  .token (finds_wide rest) (not_wraps_of_ne (by decide) _) h

theorem binary (op : BinOp) (hrest : Resumes rest) (h : Passes rest ts last) :
    Passes (op.spelling.toList ++ rest) (.binary op :: ts) last := by
  have hall : ∀ op ∈ BinOp.all, (op.spelling, .binary op) ∈ Token.operators := by decide +kernel
  exact operator (hall op (BinOp.mem_all op)) hrest h

/-- A binary operator with an `=` directly behind it is passed as the operator of an update. -/
theorem compound (op : BinOp) (hrest : Resumes rest) (h : Passes rest ts last) :
    Passes (op.spelling.toList ++ '=' :: rest) (.compound op :: ts) last := by
  have hall : ∀ op ∈ BinOp.all, (op.spelling ++ "=", .compound op) ∈ Token.operators := by
    decide +kernel
  have hpasses := operator (hall op (BinOp.mem_all op)) hrest h
  rw [String.toList_append, List.append_assoc] at hpasses
  exact hpasses

theorem compare (c : Comparison) (hrest : Resumes rest) (h : Passes rest ts last) :
    Passes (c.spelling.toList ++ rest) (.compare c :: ts) last := by
  have hall : ∀ c ∈ Comparison.all, (c.spelling, .compare c) ∈ Token.operators := by
    decide +kernel
  exact operator (hall c (Comparison.mem_all c)) hrest h

end Passes

/-! ## Texts that read as something -/

/-- The text is not empty and does not continue an operator. -/
def Starts (text : String) : Prop := ∃ c ∈ text.toList.head?, c ≠ '='

/-- Only the start of a text matters for what can stand in front of it. -/
theorem Starts.append {text : String} (h : Starts text) (more : String) :
    Starts (text ++ more) := by
  obtain ⟨c, hc, hne⟩ := h
  refine ⟨c, ?_, hne⟩
  rw [String.toList_append, List.head?_append, Option.mem_def.mp hc]
  rfl

/-- A text with such a start does not go on with an operator in front of it. -/
theorem Starts.resumes {text : String} (h : Starts text) (rest : List Char) :
    Resumes (text.toList ++ rest) := by
  obtain ⟨c, hc, hne⟩ := h
  obtain ⟨cs, heq⟩ := List.head?_eq_some_iff.mp hc
  rw [heq]
  exact resumes_cons hne

theorem starts_nat (n : Nat) : Starts (toString n) := by
  obtain ⟨c, cs, heq⟩ := List.exists_cons_of_ne_nil (toString_ne_nil n)
  refine ⟨c, by rw [heq]; rfl, ?_⟩
  rintro rfl
  exact absurd (isDigit_toString '=' (heq ▸ List.mem_cons_self)) (by decide)

/-- Whatever ends the text, it is broken into tokens that have a property. -/
def ReadsAs (text : String) (P : List Token → Prop) : Prop :=
  ∃ ts, P ts ∧ ∀ rest, Ends rest → Passes (text.toList ++ rest) ts rest

theorem ReadsAs.mono {text : String} {P Q : List Token → Prop} (h : ReadsAs text P)
    (hPQ : ∀ ts, P ts → Q ts) : ReadsAs text Q := by
  obtain ⟨ts, hts, hpasses⟩ := h
  exact ⟨ts, hPQ ts hts, hpasses⟩

end Lexical

open Lexical Grammar

/-! ## Expressions -/

/-- The literals of an expression, those of addresses included. -/
def Expr.literals : Expr → List Word
  | number value _ => [value]
  | indirect _ address => address.literals
  | binary _ left right => left.literals ++ right.literals
  | unary _ operand => operand.literals
  | _ => []

/-- The layer of the grammar that the text of an expression belongs to. -/
def Expr.layer : Expr → Layer
  | binary .. => .expr
  | unary .. => .unary
  | _ => .primary

/--
The layers of expressions are one in the other: what is a primary or a unary expression is an
expression.
-/
theorem Grammar.Derives.toExpr {layer : Layer} {ts : List Token} {e : Expr}
    (h : Derives layer ts e) : Derives .expr ts e := by
  cases layer with
  | expr => exact h
  | unary => exact .single h
  | primary => exact .single (.plain h)

/--
A slot is printed with its full name and its offset, whichever form it was read from. That text
reads as the slot.
-/
theorem Grammar.SlotOf.readsAs {ts : List Token} {s : Slot} (h : SlotOf ts s) :
    ReadsAs s.render (SlotOf · s) := by
  obtain ⟨k, hword, hname⟩ : ∃ k, SpaceWord k s.space ∧ s.space.name = k.spelling := by
    match s.space with
    | .stack => exact ⟨.sp, .sp, rfl⟩
    | .region .data => exact ⟨.data, .data, rfl⟩
    | .region .const => exact ⟨.const, .const, rfl⟩
  refine ⟨_, .offset hword (Parser.slotOf_offset_le h), fun rest _ => ?_⟩
  simp only [Slot.render, hname, String.toList_append, List.append_assoc]
  refine .mark (by decide) (.keyword k (ends_cons (by decide)) (.binary .add ?_ ?_))
  · exact (starts_nat _).resumes _
  · exact .number _ (ends_cons (by decide)) (.mark (by decide) (.refl rest))

/-- The names of the widths are no reserved words, so the lexer makes identifiers of them. -/
theorem Width.name_spec (w : Width) : WidthName w.name w ∧ IsName w.name := by
  cases w with
  | byte => exact ⟨.m8, ⟨'m', ['8'], rfl, by decide, by decide⟩, by decide +kernel⟩
  | word => exact ⟨.m16, ⟨'m', ['1', '6'], rfl, by decide, by decide⟩, by decide +kernel⟩
  | dword => exact ⟨.m32, ⟨'m', ['3', '2'], rfl, by decide, by decide⟩, by decide +kernel⟩
  | qword => exact ⟨.m64, ⟨'m', ['6', '4'], rfl, by decide, by decide⟩, by decide +kernel⟩

/-- A word that is not negative is written the same with and without a sign in mind. -/
theorem toString_toInt {n : Word} (h : 0 ≤ n.toInt) : toString n.toInt = toString n.toNat := by
  have heq : n.toInt.toNat = n.toNat := by
    rw [BitVec.toInt_eq_toNat_cond] at h ⊢
    split at h <;> omega
  rw [Int.toString_eq_repr, Int.repr_eq_if, if_pos h, heq]
  rfl

/-- With or without parentheses, an operand starts with a character that continues no operator. -/
theorem Expr.starts_enclose {e : Expr} {text : String} (h : Starts text) :
    Starts (e.enclose text) := by
  have hparen : Starts ("(" ++ text ++ ")") := by
    refine Starts.append (Starts.append ⟨'(', rfl, by decide⟩ text) ")"
  cases e with
  | binary op left right => exact hparen
  | unary op operand => exact hparen
  | _ => exact h

/--
Every expression starts with a character that continues no operator, so an operator in front of it
is read as it is.
-/
theorem Expr.starts_render (e : Expr) : Starts e.render := by
  -- a literal starts with a digit or with its sign
  have hint : ∀ n : Int, Starts (toString n) := by
    intro n
    rw [Int.toString_eq_repr, Int.repr_eq_if]
    split
    · exact starts_nat n.toNat
    · exact Starts.append ⟨'-', rfl, by decide⟩ _
  induction e with
  | number value wide =>
      cases wide with
      | false => exact hint _
      | true => exact (hint _).append _
  | sp => exact ⟨'s', rfl, by decide⟩
  | base r =>
      cases r with
      | data => exact ⟨'d', rfl, by decide⟩
      | const => exact ⟨'c', rfl, by decide⟩
  | slot s =>
      simp only [render, Slot.render, String.append_assoc]
      exact Starts.append ⟨'[', rfl, by decide⟩ _
  | indirect width address _ =>
      simp only [render, Width.name, String.append_assoc]
      exact Starts.append ⟨'m', rfl, by decide⟩ _
  | binary op left right ihl _ =>
      simp only [render, String.append_assoc]
      exact (starts_enclose ihl).append _
  | unary op operand _ =>
      cases op with
      | neg => exact Starts.append ⟨'-', rfl, by decide⟩ _
      | not => exact Starts.append ⟨'~', rfl, by decide⟩ _

/-- An operand with its parentheses, if it needs any, is a primary expression. -/
theorem Expr.enclose_readsAs {e : Expr} (h : ReadsAs e.render (Derives e.layer · e)) :
    ReadsAs (e.enclose e.render) (Derives .primary · e) := by
  obtain ⟨ts, hts, hpasses⟩ := h
  have hparen : ReadsAs ("(" ++ e.render ++ ")") (Derives .primary · e) := by
    refine ⟨_, .paren hts.toExpr, fun rest _ => ?_⟩
    simp only [String.toList_append, List.append_assoc]
    refine .mark (by decide) ?_
    exact (hpasses _ (ends_cons (by decide))).trans (.mark (by decide) (.refl rest))
  cases e with
  | binary op left right => exact hparen
  | unary op operand => exact hparen
  | _ => exact ⟨ts, hts, hpasses⟩

/-- The text of an access through an address, for whatever reads accesses. -/
theorem Expr.indirect_readsAs {width : Width} {address : Expr} {P : List Token → Prop}
    (h : ReadsAs address.render (Derives .expr · address))
    (hP : ∀ ts, Derives .expr ts address →
      P (.id width.name :: .openSquare :: (ts ++ [.closeSquare]))) :
    ReadsAs (Expr.indirect width address).render P := by
  obtain ⟨ts, hts, haddress⟩ := h
  refine ⟨_, hP ts hts, fun rest _ => ?_⟩
  simp only [render, String.toList_append, List.append_assoc]
  refine .name width.name_spec.2 (ends_cons (by decide)) (.mark (by decide) ?_)
  exact (haddress _ (ends_cons (by decide))).trans (.mark (by decide) (.refl rest))

/--
The text of an expression without negative literals reads as the expression. It need not be the text
that was parsed, since the parentheses of that are not kept.
-/
theorem Grammar.Derives.readsAs {layer : Layer} {ts : List Token} {e : Expr}
    (h : Derives layer ts e) (hliterals : ∀ v ∈ e.literals, 0 ≤ v.toInt) :
    ReadsAs e.render (Derives e.layer · e) := by
  -- by induction on the derivation that the expression was read by; the printed text has another
  -- one
  induction h with
  | single _ ih => exact ih hliterals
  | plain _ ih => exact ih hliterals
  | paren _ ih => exact ih hliterals
  | binary op _ _ ihl ihr =>
      obtain ⟨hl, hr⟩ := List.forall_mem_append.mp hliterals
      obtain ⟨ls, hls, hleft⟩ := Expr.enclose_readsAs (ihl hl)
      obtain ⟨rs, hrs, hright⟩ := Expr.enclose_readsAs (ihr hr)
      refine ⟨_, .binary op hls.toExpr (.plain hrs), fun rest hrest => ?_⟩
      simp only [Expr.render, String.toList_append, List.append_assoc]
      refine (hleft _ (ends_cons (by decide))).trans (.space (.binary op ?_ (.space ?_)))
      · exact resumes_cons (by decide)
      · exact hright rest hrest
  | neg _ ih =>
      obtain ⟨ts, hts, hoperand⟩ := Expr.enclose_readsAs (ih hliterals)
      refine ⟨_, .neg (.plain hts), fun rest hrest => ?_⟩
      simp only [Expr.render, String.toList_append, List.append_assoc]
      exact .binary .sub ((Expr.starts_enclose (Expr.starts_render _)).resumes rest)
        (hoperand rest hrest)
  | not _ ih =>
      obtain ⟨ts, hts, hoperand⟩ := Expr.enclose_readsAs (ih hliterals)
      refine ⟨_, .not (.plain hts), fun rest hrest => ?_⟩
      simp only [Expr.render, String.toList_append, List.append_assoc]
      exact .mark (by decide) (hoperand rest hrest)
  | number n =>
      refine ⟨_, .number n, fun rest hrest => ?_⟩
      rw [Expr.render, toString_toInt (hliterals n List.mem_cons_self)]
      exact .number n hrest (.refl rest)
  | wide n =>
      refine ⟨_, .wide n, fun rest _ => ?_⟩
      rw [Expr.render, toString_toInt (hliterals n List.mem_cons_self), String.toList_append,
        List.append_assoc]
      exact .number n (ends_cons (by decide)) (.space (.wide (.refl rest)))
  | sp => exact ⟨_, .sp, fun rest hrest => .keyword .sp hrest (.refl rest)⟩
  | data => exact ⟨_, .data, fun rest hrest => .keyword .data hrest (.refl rest)⟩
  | const => exact ⟨_, .const, fun rest hrest => .keyword .const hrest (.refl rest)⟩
  | slot h => exact h.readsAs.mono fun _ => .slot
  | indirect _ _ hatom ih =>
      refine Expr.indirect_readsAs ((ih hliterals).mono fun ts => Derives.toExpr) fun ts hts => ?_
      exact .indirect (Width.name_spec _).1 hts hatom

end Quadword
