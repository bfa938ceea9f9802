import Quadword.Program.Printer
import Quadword.Proofs.Grammar.Source

/-!
# The characters of printed programs

A printed statement holds no control character, so it stays on one line, and nothing in it is taken
for the ending of a line.

* **`Statement.plain_render`**: a statement whose names are plain prints as plain text.
-/

namespace Quadword

namespace Lexical

/-! ## Decimal digits -/

theorem isDigit_toString {n : Nat} : ∀ c ∈ (toString n).toList, c.isDigit = true := by
  intro c hc
  have hmem : c ∈ Nat.toDigits 10 n := by
    rw [← Nat.toList_repr]
    exact hc
  exact Nat.isDigit_of_mem_toDigits (by decide) (by decide) hmem

/-- The digits of a number, read one after the other, give the number again. -/
theorem ofDigitChars_toString (n : Nat) : Nat.ofDigitChars 10 (toString n).toList 0 = n := by
  have hdigits : (toString n).toList = Nat.toDigits 10 n := Nat.toList_repr
  rw [hdigits, Nat.ofDigitChars_ten_toDigits]

theorem toString_ne_nil (n : Nat) : (toString n).toList ≠ [] := by
  have hdigits : (toString n).toList = Nat.toDigits 10 n := Nat.toList_repr
  rw [hdigits]
  exact Nat.toDigits_ne_nil

end Lexical

/-! ## Plain text -/

open scoped Lexical

/-- No character of the text is a control character such as a line break. -/
def Text.Plain (text : String) : Prop := ∀ c ∈ text.toList, 32 ≤ c.toNat

instance (text : String) : Decidable (Text.Plain text) :=
  inferInstanceAs (Decidable (∀ c ∈ text.toList, 32 ≤ c.toNat))

namespace Text

/--
Texts that are put together from plain ones are plain, which is how all of the printer's are shown
to be.
-/
@[simp] theorem plain_append {a b : String} : Plain (a ++ b) ↔ Plain a ∧ Plain b := by
  simp only [Plain, String.toList_append, List.forall_mem_append]

theorem plain_join {texts : List String} (h : ∀ t ∈ texts, Plain t) :
    Plain (String.join texts) := by
  intro c hc
  rw [String.toList_join] at hc
  obtain ⟨t, ht, hc⟩ := List.mem_flatMap.mp hc
  exact h t ht c hc

/-- A plain text has none of the characters that could be taken for the ending of a line. -/
theorem Plain.not_mem {text : String} {c : Char} (h : Plain text) (hc : c.toNat < 32) :
    c ∉ text.toList := fun hmem => Nat.not_lt_of_le (h c hmem) hc

@[simp] theorem plain_nat (n : Nat) : Plain (toString n) := by
  intro c hc
  have := Lexical.isDigit_iff.mp (Lexical.isDigit_toString c hc)
  omega

@[simp] theorem plain_int (n : Int) : Plain (toString n) := by
  rw [Int.toString_eq_repr, Int.repr_eq_if]
  split
  · exact plain_nat n.toNat
  · exact plain_append.mpr ⟨by decide, plain_nat (-n).toNat⟩

end Text

/-- All characters of a word are ones that a word can go on with, the first one too. -/
theorem Lexical.IsWord.isWordChar {text : String} (h : IsWord text) :
    ∀ c ∈ text.toList, isWordChar c = true := by
  obtain ⟨c, cs, htext, hc, hcs⟩ := h
  rw [htext]
  exact List.forall_mem_cons.mpr ⟨isWordChar_iff.mpr (.inl hc), hcs⟩

/-- A word is plain. This covers names, whose text the printer takes over. -/
theorem Lexical.IsWord.plain {text : String} (h : IsWord text) : Text.Plain text := by
  intro c hc
  rcases isWordChar_iff.mp (h.isWordChar c hc) with hc | hc
  · have := isWordStart_iff.mp hc
    omega
  · have := isDigit_iff.mp hc
    omega

/-! ## Items of a program -/

open Text

/-- A slot is printed in one form, with the name of its space and its offset. -/
theorem Slot.plain_render (s : Slot) : Plain s.render := by
  have hspace : Plain s.space.name := by
    match s.space with
    | .stack => decide
    | .region .data => decide
    | .region .const => decide
  simp only [render, plain_append, plain_nat]
  exact ⟨⟨⟨⟨by decide, hspace⟩, by decide⟩, trivial⟩, by decide⟩

theorem Expr.plain_enclose {e : Expr} {text : String} (h : Plain text) :
    Plain (e.enclose text) := by
  unfold enclose
  split
  · exact plain_append.mpr ⟨plain_append.mpr ⟨by decide, h⟩, by decide⟩
  · exact plain_append.mpr ⟨plain_append.mpr ⟨by decide, h⟩, by decide⟩
  · exact h

theorem BinOp.plain_spelling (op : BinOp) : Plain op.spelling := by
  have hall : ∀ op ∈ all, Plain op.spelling := by decide
  exact hall op (mem_all op)

theorem Comparison.plain_spelling (c : Comparison) : Plain c.spelling := by
  have hall : ∀ c ∈ all, Plain c.spelling := by decide
  exact hall c (mem_all c)

/--
An expression prints as plain text. By induction over it, with a case for each form, as the printer
has one.
-/
theorem Expr.plain_render (e : Expr) : Plain e.render := by
  induction e with
  | number value wide =>
      cases wide with
      | false => exact plain_int _
      | true => exact plain_append.mpr ⟨plain_int _, by decide⟩
  | sp => decide
  | base r => cases r <;> decide
  | slot s => exact s.plain_render
  | indirect width address ih =>
      -- one name for each width
      have hwidth : Plain width.name := by cases width <;> decide
      simp only [render, plain_append]
      exact ⟨⟨⟨hwidth, by decide⟩, ih⟩, by decide⟩
  | binary op left right ihl ihr =>
      simp only [render, plain_append]
      exact ⟨⟨⟨⟨plain_enclose ihl, by decide⟩, op.plain_spelling⟩, by decide⟩, plain_enclose ihr⟩
  | unary op operand ih =>
      have hop : Plain op.spelling := by cases op <;> decide
      exact plain_append.mpr ⟨hop, plain_enclose ih⟩

theorem Condition.plain_render (c : Condition) : Plain c.render := by
  simp only [render, plain_append]
  exact ⟨⟨⟨⟨c.left.plain_render, by decide⟩, c.comparison.plain_spelling⟩, by decide⟩,
    c.right.plain_render⟩

/-- The arguments of a call print as plain text, each of them after a comma. -/
theorem plain_renderArguments (arguments : List Expr) : Plain (renderArguments arguments) := by
  refine plain_join fun t ht => ?_
  obtain ⟨a, -, rfl⟩ := List.mem_map.mp ht
  exact plain_append.mpr ⟨by decide, a.plain_render⟩

/-- The destination of a jump is a label or the word `finish`. -/
theorem Destination.plain_render {d : Destination} (h : ∀ name, d = .label name → Plain name) :
    Plain d.render := by
  cases d with
  | label name => exact h name rfl
  | finish => decide

/--
**A statement whose names are plain prints as plain text.** Names are the only part that comes from
outside of the printer.
-/
theorem Statement.plain_render {s : Statement} (h : ∀ name ∈ s.names, Plain name) :
    Plain s.render := by
  -- a place is printed as the expression that reads it
  have hplace : ∀ p : Place, Plain p.render := fun p => p.read.plain_render
  cases s with
  | label name => exact plain_append.mpr ⟨by decide, h name List.mem_cons_self⟩
  | assign target value =>
      simp only [render, plain_append]
      exact ⟨⟨hplace target, by decide⟩, value.plain_render⟩
  | assignIf target value condition =>
      simp only [render, plain_append]
      exact ⟨⟨⟨⟨hplace target, by decide⟩, value.plain_render⟩, by decide⟩, condition.plain_render⟩
  | select target condition yes no =>
      simp only [render, plain_append]
      exact ⟨⟨⟨⟨⟨⟨hplace target, by decide⟩, condition.plain_render⟩, by decide⟩, yes.plain_render⟩,
        by decide⟩, no.plain_render⟩
  | update target op value =>
      simp only [render, plain_append]
      exact ⟨⟨⟨⟨hplace target, by decide⟩, op.plain_spelling⟩, by decide⟩, value.plain_render⟩
  | goto d =>
      refine plain_append.mpr ⟨by decide, d.plain_render ?_⟩
      rintro name rfl
      exact h name List.mem_cons_self
  | gotoIf d condition =>
      simp only [render, plain_append]
      refine ⟨⟨⟨by decide, d.plain_render ?_⟩, by decide⟩, condition.plain_render⟩
      rintro name rfl
      exact h name List.mem_cons_self
  | pass count =>
      rw [render]
      split
      · decide
      · exact plain_append.mpr ⟨by decide, plain_nat _⟩
  | setSp op value =>
      cases op with
      | none => exact plain_append.mpr ⟨by decide, value.plain_render⟩
      | some op =>
          simp only [render, plain_append]
          exact ⟨⟨⟨by decide, op.plain_spelling⟩, by decide⟩, value.plain_render⟩
  | align boundary => exact plain_append.mpr ⟨by decide, plain_nat _⟩
  | syscall name arguments output =>
      have hname : Plain name := h name List.mem_cons_self
      have harguments := plain_renderArguments arguments
      cases output with
      | none =>
          simp only [render, plain_append]
          exact ⟨⟨by decide, hname⟩, harguments⟩
      | some output =>
          simp only [render, plain_append]
          exact ⟨⟨⟨hplace output, by decide⟩, hname⟩, harguments⟩

end Quadword
