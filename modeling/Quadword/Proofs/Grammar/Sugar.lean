import Quadword.Proofs.Assembly.Faithful

/-!
# The letters are short for brackets

`s[8]` says the same as `[sp+8]`, and so do the letters of the other spaces. A list of tokens in
which some of these are written out stands for the same program as before, whatever surrounds them:
no letter that is followed by a bracket means anything else in a program.

Both directions are shown at once, for any relation between lists of tokens that can be cut where
the grammar cuts (`Transparent`). An occurrence that reaches over such a cut would leave a bracket
open there, and the tokens of a construct close all the brackets that they open (`Closed`).

* **`Desugars`**: some references by letters are written out.
* **`Transparent.derives`**, **`Transparent.statement`**: what is related derives the same trees.
* **`Program.ofTokens_desugars`**: the two programs are the same, apart from positions.
-/

namespace Quadword

namespace Grammar

/-- The second list is the first one with some references by letters written out. -/
inductive Desugars : List Token → List Token → Prop where
  | nil : Desugars [] []
  | keep {ts us : List Token} (t : Token) (h : Desugars ts us) : Desugars (t :: ts) (t :: us)
  | expand {name : String} {k : Keyword} {space : Space} {n : Word} {ts us : List Token}
      (hletter : SpaceLetter name space) (hword : SpaceWord k space) (h : Desugars ts us) :
      Desugars (.id name :: .openSquare :: .number n :: .closeSquare :: ts)
        (.openSquare :: .keyword k :: .binary .add :: .number n :: .closeSquare :: us)

/-! ## Brackets -/

/-- A token that no reference starts with. -/
def Plain : Token → Prop
  | .id _ | .openSquare => False
  | _ => True

/-- From every point on, at least as many brackets are closed as are opened. -/
def Closed (ts : List Token) : Prop :=
  ∀ n, (ts.drop n).count .openSquare ≤ (ts.drop n).count .closeSquare

namespace Closed

variable {ts us : List Token} {t : Token}

/-- The empty list opens no bracket at all; it is where the closure of every other list starts. -/
theorem nil : Closed [] := by simp [Closed]

/--
What follows closed tokens may be closed as well: a suffix of both is a suffix of the first list
with all of the second behind it, or a suffix of the second alone.
-/
theorem append (hts : Closed ts) (hus : Closed us) : Closed (ts ++ us) := by
  intro n
  rw [List.drop_append, List.count_append, List.count_append]
  exact Nat.add_le_add (hts n) (hus (n - ts.length))

/--
A token in front that is no opening bracket leaves a closed list closed. Together with `append` and
`bracket` this covers every production of the grammar.
-/
theorem cons (ht : t ≠ .openSquare) (hts : Closed ts) : Closed (t :: ts) := by
  intro n
  cases n with
  | zero =>
    have hle : ts.count .openSquare ≤ ts.count .closeSquare := hts 0
    rw [List.drop_zero, List.count_cons_of_ne ht, List.count_cons]
    omega
  | succ n => exact hts n

/-- One token is closed unless it is an opening bracket, which nothing behind it would close. -/
theorem single (ht : t ≠ .openSquare) : Closed [t] := nil.cons ht

/--
Closed tokens inside a pair of brackets: the pair opens one bracket and closes one, and from every
later point on the closing one is still to come.
-/
theorem bracket (hts : Closed ts) : Closed (.openSquare :: (ts ++ [.closeSquare])) := by
  intro n
  cases n with
  | zero =>
    have hle : ts.count .openSquare ≤ ts.count .closeSquare := hts 0
    simp
    omega
  | succ n => exact hts.append (single (by simp)) n

theorem tail (h : Closed (t :: ts)) : Closed ts := fun n => h (n + 1)

/-- Nothing that is closed ends in a bracket that stays open. -/
theorem not_open (h : Closed (.openSquare :: ts)) : .closeSquare ∈ ts := by
  -- counted from the front, the bracket that is opened here needs one that is closed
  have hle := h 0
  rw [List.drop_zero, List.count_cons_self, List.count_cons_of_ne (by simp)] at hle
  exact List.count_pos_iff.mp (by omega)

/--
A pair of brackets is not cut apart behind something closed: where one part of a list is closed, the
bracket that closes the pair is in the same part.
-/
theorem cut_bracket {mid rs : List Token} (hts : Closed ts) (hne : ts ≠ [])
    (hmid : .closeSquare ∉ mid) (h : .openSquare :: (mid ++ .closeSquare :: us) = ts ++ rs) :
    ∃ ts', ts = .openSquare :: (mid ++ .closeSquare :: ts') ∧ us = ts' ++ rs := by
  cases ts with
  | nil => exact absurd rfl hne
  | cons t ts =>
    obtain ⟨rfl, h₁⟩ := List.cons.inj h
    -- the closing bracket that belongs to the opening one is in `ts`, and `mid` has none
    have hclose := hts.not_open
    rcases List.append_eq_append_iff.mp h₁ with ⟨as, rfl, h₂⟩ | ⟨bs, rfl, -⟩
    · cases as with
      | nil =>
        rw [List.append_nil] at hclose
        exact absurd hclose hmid
      | cons a as =>
        obtain ⟨rfl, rfl⟩ := List.cons.inj h₂
        exact ⟨as, rfl, rfl⟩
    · exact absurd (List.mem_append_left bs hclose) hmid

end Closed

/--
Every spelling of a slot closes the brackets it opens: a bare word or a sum inside a pair, or a
letter in front of a pair.
-/
theorem SlotOf.closed {ts : List Token} {s : Slot} (h : SlotOf ts s) : Closed ts := by
  cases h with
  | @bare k _ _ => exact .bracket (.single (by simp))
  | @offset k _ n _ _ =>
    exact @Closed.bracket [.keyword k, .binary .add, .number n]
      (.cons (by simp) (.cons (by simp) (.single (by simp))))
  | letter _ _ => exact .cons (by simp) (.bracket (.single (by simp)))

/--
The tokens of an expression close all their brackets. By induction over the derivation; the only
brackets beside those of a slot are the pair around an indirect address.
-/
theorem Derives.closed {layer : Layer} {ts : List Token} {e : Expr} (h : Derives layer ts e) :
    Closed ts := by
  -- what opens with a bracket or a parenthesis also closes it
  induction h with
  | single _ ih => exact ih
  | binary op _ _ ihl ihr => exact ihl.append (ihr.cons (by simp))
  | neg _ ih => exact ih.cons (by simp)
  | not _ ih => exact ih.cons (by simp)
  | plain _ ih => exact ih
  | wide n => exact .cons (by simp) (.single (by simp))
  | slot h => exact h.closed
  | indirect _ _ _ ih => exact ih.bracket.cons (by simp)
  | paren _ ih => exact (ih.append (.single (by simp))).cons (by simp)
  | _ => exact .single (by simp)

theorem ConditionOf.closed {ts : List Token} {c : Condition} (h : ConditionOf ts c) :
    Closed ts := by
  cases h with
  | compare c hl hr => exact hl.derives.closed.append (hr.derives.closed.cons (by simp))

/-- A place to write to is a slot or an indirect access, and both close their brackets. -/
theorem PlaceOf.closed {ts : List Token} {p : Place} (h : PlaceOf ts p) : Closed ts := by
  cases h with
  | slot h _ => exact h.closed
  | indirect _ h _ => exact h.closed.bracket.cons (by simp)

/--
A list of call arguments is closed argument by argument; the comma in front of each opens nothing.
-/
theorem ArgumentsOf.closed {ts : List Token} {as : List Expr} (h : ArgumentsOf ts as) :
    Closed ts := by
  induction h with
  | nil => exact .nil
  | cons h _ _ ih => exact (h.closed.append ih).cons (by simp)

/--
Arguments start with a comma, so a name in front of them is never followed by a bracket and cannot
be read as a letter of a space.
-/
theorem ArgumentsOf.head?_plain {ts : List Token} {as : List Expr} (h : ArgumentsOf ts as) :
    ∀ t ∈ ts.head?, Plain t := by
  cases h with
  | nil => simp
  | cons _ _ _ => simp [Plain]

/--
A statement closes its brackets. For every form of statement the parts are closed by the lemmas
above and the tokens between the parts are no brackets.
-/
theorem StatementOf.closed {ts : List Token} {s : Statement} (h : StatementOf ts s) :
    Closed ts := by
  cases h with
  | label name => exact .cons (by simp) (.single (by simp))
  | goto hd => exact .cons (by simp) (.single (by cases hd <;> simp))
  | gotoIf hd hc => exact .cons (by simp) (.cons (by cases hd <;> simp) (hc.closed.cons (by simp)))
  | pass => exact .single (by simp)
  | passTimes n => exact .cons (by simp) (.cons (by simp) (.single (by simp)))
  | align _ => exact .cons (by simp) (.single (by simp))
  | syscall name ha => exact .cons (by simp) (ha.closed.cons (by simp))
  | setSp hv => exact .cons (by simp) (hv.derives.closed.cons (by simp))
  | updateSp op hv => exact .cons (by simp) (hv.derives.closed.cons (by simp))
  | syscallTo name hp ha =>
    exact hp.closed.append (.cons (by simp) (.cons (by simp) (ha.closed.cons (by simp))))
  -- a choice has the most parts, each of which is closed on its own
  | select hp hc hy hn =>
    have hchoice := hy.derives.closed.append (hn.derives.closed.cons (t := .colon) (by simp))
    refine hp.closed.append (.cons (by simp) (.cons (by simp) (hc.closed.append ?_)))
    exact .cons (by simp) (hchoice.cons (by simp))
  | assignIf hp hv hc =>
    exact hp.closed.append ((hv.derives.closed.append (hc.closed.cons (by simp))).cons (by simp))
  | assign hp hv => exact hp.closed.append (hv.derives.closed.cons (by simp))
  | update op hp hv => exact hp.closed.append (hv.derives.closed.cons (by simp))

/-- A literal of an initial value has no brackets in it, with a sign and a width word or without. -/
theorem LiteralOf.closed {ts : List Token} {n : Word} (h : LiteralOf ts n) : Closed ts := by
  cases h with
  | plain n => exact .single (by simp)
  | wide n => exact .cons (by simp) (.single (by simp))
  | negative n => exact .cons (by simp) (.single (by simp))
  | negativeWide n => exact .cons (by simp) (.cons (by simp) (.single (by simp)))

/-- An initial value is a slot, the sign of the assignment and a literal, all of them closed. -/
theorem InitializerOf.closed {ts : List Token} {i : Initializer} (h : InitializerOf ts i) :
    Closed ts := by
  cases h with
  | assign hslot hvalue => exact hslot.closed.append (hvalue.closed.cons (by simp))

/-! ## Where the grammar cuts -/

/--
A relation that respects the cuts of the grammar: what is related to a list of tokens is cut at the
same places, and its references stand for the same slots.
-/
structure Transparent (R : List Token → List Token → Prop) : Prop where
  empty : R [] []
  nil : ∀ {us}, R [] us → us = []
  keep : ∀ {ts us} (t : Token), R ts us → R (t :: ts) (t :: us)
  split : ∀ {ls rs us t}, Closed ls → R (ls ++ t :: rs) us → Plain t →
    ∃ ls' rs', us = ls' ++ t :: rs' ∧ R ls ls' ∧ R rs rs'
  name : ∀ {name ts us}, (∀ t ∈ ts.head?, Plain t) → R (.id name :: ts) us →
    ∃ us', us = .id name :: us' ∧ R ts us'
  slot : ∀ {ts us s}, SlotOf ts s → R ts us → SlotOf us s
  indirect : ∀ {name width ts address us}, WidthName name width → Derives .expr ts address →
    Atom address → R (.id name :: .openSquare :: (ts ++ [.closeSquare])) us →
    ∃ ts', us = .id name :: .openSquare :: (ts' ++ [.closeSquare]) ∧ R ts ts'

namespace Transparent

variable {R : List Token → List Token → Prop}

/-- A plain token in front stays in front: the cut of `split` with nothing before it. -/
theorem cons (hR : Transparent R) {t : Token} {ts us : List Token}
    (h : R (t :: ts) us) (ht : Plain t) : ∃ us', us = t :: us' ∧ R ts us' := by
  obtain ⟨ls', rs', rfl, hl, hr⟩ := hR.split (@Closed.nil) h ht
  obtain rfl := hR.nil hl
  exact ⟨rs', rfl, hr⟩

/-- A cut in front of a plain token, or at the end of all. -/
theorem cut (hR : Transparent R) {ls rs us : List Token} (hls : Closed ls)
    (hrs : ∀ t ∈ rs.head?, Plain t) (h : R (ls ++ rs) us) :
    ∃ ls' rs', us = ls' ++ rs' ∧ R ls ls' ∧ R rs rs' ∧ rs'.head? = rs.head? := by
  cases rs with
  | nil =>
    rw [List.append_nil] at h
    exact ⟨us, [], (List.append_nil us).symm, h, hR.empty, rfl⟩
  | cons t rs =>
    obtain ⟨ls', rs', rfl, hl, hr⟩ := hR.split hls h (hrs t rfl)
    exact ⟨ls', t :: rs', rfl, hl, hR.keep t hr, rfl⟩

theorem single (hR : Transparent R) {t : Token} {us : List Token} (h : R [t] us) (ht : Plain t) :
    us = [t] := by
  obtain ⟨us', rfl, hnil⟩ := hR.cons h ht
  rw [hR.nil hnil]

/-! ### Expressions -/

/--
**Related tokens derive the same expression.** By induction over the derivation: the operators and
the parentheses are plain tokens, so a related list is cut there as well and its parts are related
to the parts. Slots and indirect addresses are the two productions with brackets of their own, and
`Transparent` speaks of them by name.
-/
theorem derives (hR : Transparent R) {layer : Layer} {ts : List Token} {e : Expr}
    (h : Derives layer ts e) : ∀ {us}, R ts us → Derives layer us e := by
  -- the induction is on the derivation, with the related list `us` free in every case
  induction h with
  | single _ ih => exact fun hus => .single (ih hus)
  | binary op hl _ ihl ihr =>
    intro us hus
    -- the left operand closes its brackets, so the cut at the operator is one of `us` as well
    obtain ⟨ls', rs', rfl, hls, hrs⟩ := hR.split hl.closed hus trivial
    exact .binary op (ihl hls) (ihr hrs)
  | neg _ ih =>
    intro us hus
    obtain ⟨us', rfl, hts⟩ := hR.cons hus trivial
    exact .neg (ih hts)
  | not _ ih =>
    intro us hus
    obtain ⟨us', rfl, hts⟩ := hR.cons hus trivial
    exact .not (ih hts)
  | plain _ ih => exact fun hus => .plain (ih hus)
  | number n =>
    intro us hus
    rw [hR.single hus trivial]
    exact .number n
  | wide n =>
    intro us hus
    obtain ⟨us', rfl, hts⟩ := hR.cons hus trivial
    rw [hR.single hts trivial]
    exact .wide n
  | sp =>
    intro us hus
    rw [hR.single hus trivial]
    exact .sp
  | data =>
    intro us hus
    rw [hR.single hus trivial]
    exact .data
  | const =>
    intro us hus
    rw [hR.single hus trivial]
    exact .const
  -- the two productions with brackets of their own are fields of `Transparent`
  | slot h => exact fun hus => .slot (hR.slot h hus)
  | indirect hname hd hatom ih =>
    intro us hus
    obtain ⟨ts', rfl, hts⟩ := hR.indirect hname hd hatom hus
    exact .indirect hname (ih hts) hatom
  | paren hd ih =>
    intro us hus
    obtain ⟨us', rfl, hts⟩ := hR.cons hus trivial
    -- nothing stands behind the closing parenthesis, so nothing does in `us`
    obtain ⟨ts', rest, rfl, hts, hrest⟩ := hR.split hd.closed hts trivial
    rw [hR.nil hrest]
    exact .paren (ih hts)

/--
A value is an expression with a bound on its operations, and the expression stays the same, so the
bound does.
-/
theorem value (hR : Transparent R) {ts us : List Token} {e : Expr} (h : ValueOf ts e)
    (hus : R ts us) : ValueOf us e := ⟨hR.derives h.derives hus, h.operations⟩

theorem operand (hR : Transparent R) {ts us : List Token} {e : Expr} (h : OperandOf ts e)
    (hus : R ts us) : OperandOf us e := ⟨hR.derives h.derives hus, h.operations⟩

/-! ### Statements -/

/-- A comparison is cut at its sign; both operands are related and so mean the same. -/
theorem condition (hR : Transparent R) {ts us : List Token} {c : Condition}
    (h : ConditionOf ts c) (hus : R ts us) : ConditionOf us c := by
  cases h with
  | compare c hl hr =>
    obtain ⟨ls', rs', rfl, hls, hrs⟩ := hR.split hl.derives.closed hus trivial
    exact .compare c (hR.operand hl hls) (hR.operand hr hrs)

/--
A place is a slot or an indirect access, the two productions that `Transparent` keeps by assumption.
-/
theorem place (hR : Transparent R) {ts us : List Token} {p : Place} (h : PlaceOf ts p)
    (hus : R ts us) : PlaceOf us p := by
  cases h with
  | slot h hspace => exact .slot (hR.slot h hus) hspace
  | indirect hname hd hatom =>
    obtain ⟨ts', rfl, hts⟩ := hR.indirect hname hd hatom hus
    exact .indirect hname (hR.derives hd hts) hatom

/-- Arguments are cut in front of the next comma, which is plain, or at the end of the list. -/
theorem arguments (hR : Transparent R) {ts : List Token} {as : List Expr} (h : ArgumentsOf ts as) :
    ∀ {us}, R ts us → ArgumentsOf us as := by
  induction h with
  | nil =>
    intro us hus
    rw [hR.nil hus]
    exact .nil
  | cons hd harg hmore ih =>
    intro us hus
    obtain ⟨us, rfl, hus₁⟩ := hR.cons hus trivial
    obtain ⟨ts', more', rfl, hts, hmore', -⟩ := hR.cut hd.closed hmore.head?_plain hus₁
    exact .cons (hR.derives hd hts) harg (ih hmore')

/--
A name after `goto` stays that name if no bracket follows it, and the word for the end of the
program is a plain token. So a jump leads to the same label.
-/
theorem destination (hR : Transparent R) {t : Token} {d : Destination} {ts us : List Token}
    (h : DestinationOf t d) (hts : ∀ t ∈ ts.head?, Plain t) (hus : R (t :: ts) us) :
    ∃ us', us = t :: us' ∧ R ts us' := by
  cases h with
  | label name => exact hR.name hts hus
  | finish => exact hR.cons hus trivial

/--
**Related tokens are the same statement.** Each form of statement is cut at its own words and signs,
which are plain tokens, and its parts are related and so stand for the same expressions, places and
conditions. A name is the delicate part: it stays a name only because the token behind it, if there
is one, is plain, and so each form says what stands behind its names.
-/
theorem statement (hR : Transparent R) {ts us : List Token} {s : Statement}
    (h : StatementOf ts s) (hus : R ts us) : StatementOf us s := by
  -- a name at the end of a statement has nothing behind it that could be a bracket
  have hnil : ∀ t ∈ ([] : List Token).head?, Plain t := by simp
  cases h with
  | label name =>
    obtain ⟨us₁, rfl, hus₁⟩ := hR.cons hus trivial
    obtain ⟨us₂, rfl, hus₂⟩ := hR.name hnil hus₁
    rw [hR.nil hus₂]
    exact .label name
  | goto hd =>
    obtain ⟨us₁, rfl, hus₁⟩ := hR.cons hus trivial
    obtain ⟨us₂, rfl, hus₂⟩ := hR.destination hd hnil hus₁
    rw [hR.nil hus₂]
    exact .goto hd
  | @gotoIf _ _ cs _ hd hc =>
    -- behind the name comes the word of the condition, which is no bracket
    have hcond : ∀ t ∈ (.keyword .cond :: cs : List Token).head?, Plain t := by simp [Plain]
    obtain ⟨us₁, rfl, hus₁⟩ := hR.cons hus trivial
    obtain ⟨us₂, rfl, hus₂⟩ := hR.destination hd hcond hus₁
    obtain ⟨us₃, rfl, hus₃⟩ := hR.cons hus₂ trivial
    exact .gotoIf hd (hR.condition hc hus₃)
  | pass =>
    rw [hR.single hus trivial]
    exact .pass
  | passTimes n =>
    obtain ⟨us₁, rfl, hus₁⟩ := hR.cons hus trivial
    obtain ⟨us₂, rfl, hus₂⟩ := hR.cons hus₁ trivial
    rw [hR.single hus₂ trivial]
    exact .passTimes n
  | align hn =>
    obtain ⟨us₁, rfl, hus₁⟩ := hR.cons hus trivial
    rw [hR.single hus₁ trivial]
    exact .align hn
  | syscall name ha =>
    obtain ⟨us₁, rfl, hus₁⟩ := hR.cons hus trivial
    -- behind the name of the call comes the comma of its first argument, or nothing
    obtain ⟨us₂, rfl, hus₂⟩ := hR.name ha.head?_plain hus₁
    exact .syscall name (hR.arguments ha hus₂)
  | setSp hv =>
    obtain ⟨us₁, rfl, hus₁⟩ := hR.cons hus trivial
    obtain ⟨us₂, rfl, hus₂⟩ := hR.cons hus₁ trivial
    exact .setSp (hR.value hv hus₂)
  | updateSp op hv =>
    obtain ⟨us₁, rfl, hus₁⟩ := hR.cons hus trivial
    obtain ⟨us₂, rfl, hus₂⟩ := hR.cons hus₁ trivial
    exact .updateSp op (hR.operand hv hus₂)
  | syscallTo name hp ha =>
    obtain ⟨ps, us₁, rfl, hps, hus₁⟩ := hR.split hp.closed hus trivial
    obtain ⟨us₂, rfl, hus₂⟩ := hR.cons hus₁ trivial
    obtain ⟨us₃, rfl, hus₃⟩ := hR.name ha.head?_plain hus₂
    exact .syscallTo name (hR.place hp hps) (hR.arguments ha hus₃)
  | select hp hc hy hn =>
    -- three cuts: at the assignment, at the question mark and at the colon
    obtain ⟨ps, us₁, rfl, hps, hus₁⟩ := hR.split hp.closed hus trivial
    obtain ⟨us₂, rfl, hus₂⟩ := hR.cons hus₁ trivial
    obtain ⟨cs, us₃, rfl, hcs, hus₃⟩ := hR.split hc.closed hus₂ trivial
    obtain ⟨us₄, rfl, hus₄⟩ := hR.cons hus₃ trivial
    obtain ⟨ys, ns, rfl, hys, hns⟩ := hR.split hy.derives.closed hus₄ trivial
    exact .select (hR.place hp hps) (hR.condition hc hcs) (hR.value hy hys) (hR.value hn hns)
  | assignIf hp hv hc =>
    obtain ⟨ps, us₁, rfl, hps, hus₁⟩ := hR.split hp.closed hus trivial
    obtain ⟨ts, cs, rfl, hts, hcs⟩ := hR.split hv.derives.closed hus₁ trivial
    exact .assignIf (hR.place hp hps) (hR.value hv hts) (hR.condition hc hcs)
  | assign hp hv =>
    obtain ⟨ps, ts, rfl, hps, hts⟩ := hR.split hp.closed hus trivial
    exact .assign (hR.place hp hps) (hR.value hv hts)
  | update op hp hv =>
    obtain ⟨ps, ts, rfl, hps, hts⟩ := hR.split hp.closed hus trivial
    exact .update op (hR.place hp hps) (hR.operand hv hts)

/-! ### Programs -/

/-- A literal is a list of plain tokens, so nothing else is related to it. -/
theorem literal (hR : Transparent R) {ts us : List Token} {n : Word} (h : LiteralOf ts n)
    (hus : R ts us) : LiteralOf us n := by
  -- none of the tokens of a literal is sugar, so all of them stay as they are
  cases h with
  | plain n =>
    rw [hR.single hus trivial]
    exact .plain n
  | wide n =>
    obtain ⟨us₁, rfl, hus₁⟩ := hR.cons hus trivial
    rw [hR.single hus₁ trivial]
    exact .wide n
  | negative n =>
    obtain ⟨us₁, rfl, hus₁⟩ := hR.cons hus trivial
    rw [hR.single hus₁ trivial]
    exact .negative n
  | negativeWide n =>
    obtain ⟨us₁, rfl, hus₁⟩ := hR.cons hus trivial
    obtain ⟨us₂, rfl, hus₂⟩ := hR.cons hus₁ trivial
    rw [hR.single hus₂ trivial]
    exact .negativeWide n

/--
An initial value is cut at the sign of its assignment, with the slot on the left of it and the
literal on the right.
-/
theorem initializer (hR : Transparent R) {ts us : List Token} {i : Initializer}
    (h : InitializerOf ts i) (hus : R ts us) : InitializerOf us i := by
  cases h with
  | assign hslot hvalue =>
    obtain ⟨ss, ns, rfl, hss, hns⟩ := hR.split hslot.closed hus trivial
    exact .assign (hR.slot hslot hss) (hR.literal hvalue hns)

/--
What is related to a line and the end of it is another line and the same end. The end is a newline
or the end of the text, both of them plain.
-/
theorem line (hR : Transparent R) {ls ts us : List Token} (hls : Closed ls) (hend : LineEnds ts)
    (hus : R (ls ++ ts) us) :
    ∃ ls' ts', us = ls' ++ ts' ∧ R ls ls' ∧ R ts ts' ∧ LineEnds ts' := by
  -- both kinds of line end are plain tokens
  have hplain : ∀ t ∈ ts.head?, Plain t := by
    intro t ht
    rcases hend with hend | hend
    · rw [hend] at ht
      cases ht
      trivial
    · rw [hend] at ht
      cases ht
      trivial
  obtain ⟨ls', ts', rfl, hl, hts, hhead⟩ := hR.cut hls hplain hus
  refine ⟨ls', ts', rfl, hl, hts, ?_⟩
  rwa [LineEnds, hhead]

/--
A run of initial values stays one, with the same values. Line breaks are not touched, so the lines
correspond, and each has its own derivation.
-/
theorem initialRun (hR : Transparent R) {ts rest : List Token} {is : List Initializer}
    (h : InitialRun ts is rest) :
    ∀ {us}, R ts us → ∃ rest', InitialRun us is rest' ∧ R rest rest' := by
  induction h with
  | nil ts => exact fun hus => ⟨_, .nil _, hus⟩
  | blank _ ih =>
    intro us hus
    obtain ⟨us₁, rfl, hus₁⟩ := hR.cons hus trivial
    obtain ⟨rest', hrun, hrest⟩ := ih hus₁
    exact ⟨rest', .blank hrun, hrest⟩
  | line hi hend _ ih =>
    intro us hus
    obtain ⟨ls', ts', rfl, hls, hts, hend'⟩ := hR.line hi.closed hend hus
    obtain ⟨rest', hrun, hrest⟩ := ih hts
    exact ⟨rest', .line (hR.initializer hi hls) hend' hrun, hrest⟩

/--
Statements stay the same statements. Behind the end of the text nothing is read, so nothing is said
of the tokens there, which need not correspond.
-/
theorem statements (hR : Transparent R) {ts more : List Token} {ss : List Statement}
    (h : StatementsOf ts ss) :
    ∀ {us}, R (ts ++ more) us → ∃ ts' more', us = ts' ++ more' ∧ StatementsOf ts' ss := by
  induction h with
  | done =>
    intro us hus
    obtain ⟨us₁, rfl, -⟩ := hR.cons hus trivial
    exact ⟨[.eof], us₁, rfl, .done⟩
  | blank _ ih =>
    intro us hus
    obtain ⟨us₁, rfl, hus₁⟩ := hR.cons hus trivial
    obtain ⟨ts', more', rfl, hts⟩ := ih hus₁
    exact ⟨.newline :: ts', more', rfl, .blank hts⟩
  | line hs hend _ ih =>
    intro us hus
    rw [List.append_assoc] at hus
    obtain ⟨ls', rest, rfl, hls, hrest, hend'⟩ :=
      hR.line hs.closed (Parser.lineEnds_append hend more) hus
    obtain ⟨ts', more', rfl, hts⟩ := ih hrest
    refine ⟨ls' ++ ts', more', by rw [List.append_assoc], .line (hR.statement hs hls) ?_ hts⟩
    -- there is at least the end of the text
    cases ts' with
    | nil => exact absurd (Parser.statementsOf_length_pos hts) (by simp)
    | cons t ts' => exact hend'

end Transparent

/-! ## Writing letters out -/

namespace Desugars

/-- Nothing has to be written out: every list of tokens is related to itself. -/
theorem refl (ts : List Token) : Desugars ts ts := by
  induction ts with
  | nil => exact .nil
  | cons t ts ih => exact .keep t ih

/-- A cut of the first list, in front of which all brackets are closed, is one of the second. -/
theorem cut {ts us : List Token} (h : Desugars ts us) :
    ∀ {ls rs}, ts = ls ++ rs → Closed ls → rs.head? ≠ some .openSquare →
      ∃ ls' rs', us = ls' ++ rs' ∧ Desugars ls ls' ∧ Desugars rs rs' := by
  -- induction on the relation; a cut of the whole list is a cut in front of its first entry or one
  -- of the rest
  induction h with
  | nil =>
    intro ls rs hts _ _
    obtain ⟨rfl, rfl⟩ := List.append_eq_nil_iff.mp hts.symm
    exact ⟨[], [], rfl, .nil, .nil⟩
  | @keep ts us t h ih =>
    intro ls rs hts hls hrs
    cases ls with
    | nil =>
      subst hts
      exact ⟨[], t :: us, rfl, .nil, h.keep t⟩
    | cons l ls =>
      obtain ⟨rfl, rfl⟩ := List.cons.inj hts
      obtain ⟨ls', rs', rfl, hl, hr⟩ := ih rfl hls.tail hrs
      exact ⟨t :: ls', rs', rfl, hl.keep t, hr⟩
  | @expand name k space n ts us hletter hword h ih =>
    intro ls rs hts hls hrs
    cases ls with
    | nil =>
      subst hts
      exact ⟨[], _, rfl, .nil, h.expand hletter hword⟩
    | cons l ls =>
      obtain ⟨rfl, hts₁⟩ := List.cons.inj hts
      by_cases hne : ls = []
      · subst hne
        obtain rfl : _ = rs := hts₁
        exact absurd rfl hrs
      · obtain ⟨ls, rfl, rfl⟩ :=
          @Closed.cut_bracket ls ts [.number n] rs hls.tail hne (by simp) hts₁
        obtain ⟨ls', rs', rfl, hl, hr⟩ := ih rfl hls.tail.tail.tail.tail hrs
        exact ⟨_, rs', rfl, hl.expand hletter hword, hr⟩

/-- A cut of the second list, in front of which all brackets are closed, is one of the first. -/
theorem cut_flip {ts us : List Token} (h : Desugars ts us) :
    ∀ {ls rs}, us = ls ++ rs → Closed ls →
      ∃ ls' rs', ts = ls' ++ rs' ∧ Desugars ls' ls ∧ Desugars rs' rs := by
  induction h with
  | nil =>
    intro ls rs hus _
    obtain ⟨rfl, rfl⟩ := List.append_eq_nil_iff.mp hus.symm
    exact ⟨[], [], rfl, .nil, .nil⟩
  | @keep ts us t h ih =>
    intro ls rs hus hls
    cases ls with
    | nil =>
      subst hus
      exact ⟨[], t :: ts, rfl, .nil, h.keep t⟩
    | cons l ls =>
      obtain ⟨rfl, rfl⟩ := List.cons.inj hus
      obtain ⟨ls', rs', rfl, hl, hr⟩ := ih rfl hls.tail
      exact ⟨t :: ls', rs', rfl, hl.keep t, hr⟩
  | @expand name k space n ts us hletter hword h ih =>
    intro ls rs hus hls
    -- the written-out form has one more token, but a cut inside of it leaves the same bracket open
    by_cases hne : ls = []
    · subst hne
      rw [List.nil_append] at hus
      subst hus
      exact ⟨[], _, rfl, .nil, h.expand hletter hword⟩
    · obtain ⟨ls, rfl, rfl⟩ :=
        @Closed.cut_bracket ls us [.keyword k, .binary .add, .number n] rs hls hne (by simp) hus
      obtain ⟨ls', rs', rfl, hl, hr⟩ := ih rfl hls.tail.tail.tail.tail.tail
      exact ⟨_, rs', rfl, hl.expand hletter hword, hr⟩

end Desugars

/-- Each letter stands for one space, since the parser looks it up in a table. -/
theorem SpaceLetter.unique {name : String} {space space' : Space} (h : SpaceLetter name space)
    (h' : SpaceLetter name space') : space' = space := by
  have heq := Parser.ofLetter?_of_spaceLetter h'
  rw [Parser.ofLetter?_of_spaceLetter h] at heq
  exact (Option.some.inj heq).symm

/-- Each word of a space names one space, which is read off the two lists of words. -/
theorem SpaceWord.unique {k : Keyword} {space space' : Space} (h : SpaceWord k space)
    (h' : SpaceWord k space') : space' = space := by
  cases h <;> cases h' <;> rfl

/--
The name of a width, such as `m8`, is no letter of a space. So what stands in front of an indirect
address is never taken for a reference by a letter.
-/
theorem WidthName.not_letter {name : String} {width : Width} {space : Space}
    (h : WidthName name width) : ¬ SpaceLetter name space := by
  intro hletter
  have heq := Parser.ofName?_of_widthName h
  rw [Parser.ofName?_of_spaceLetter hletter] at heq
  cases heq

/-- A base that another token follows is no operand, so it is not all of an address. -/
theorem not_atom_of_base {k : Keyword} {t : Token} {ts : List Token} {e : Expr}
    (h : Derives .expr (.keyword k :: t :: ts) e) : ¬ Atom e := by
  generalize hus : .keyword k :: t :: ts = us at h
  cases h with
  | binary op _ _ => exact fun h => nomatch h
  | single h =>
    cases h with
    | plain h =>
      cases h with
      | slot h => cases h <;> cases hus
      | _ => cases hus
    | _ => cases hus

/--
Writing letters out respects the cuts of the grammar. An occurrence reaches from a letter to its
closing bracket, so a cut with closed tokens in front of it never falls inside of one, and a slot
that is written out is the slot that the letter stood for.
-/
theorem transparent_desugars : Transparent Desugars where
  empty := .nil
  nil h := by cases h; rfl
  keep t h := h.keep t
  split := by
    intro ls rs us t hls h ht
    obtain ⟨ls', rs', rfl, hl, hr⟩ := h.cut rfl hls (by rintro ⟨⟩; exact ht)
    cases hr with
    | keep _ hr => exact ⟨ls', _, rfl, hl, hr⟩
    | expand _ _ _ => exact ht.elim
  name := by
    intro name ts us hts h
    cases h with
    | keep _ h => exact ⟨_, rfl, h⟩
    | expand _ _ _ => exact (hts _ rfl).elim
  slot := by
    intro ts us s hs h
    cases hs with
    | bare hword =>
      rcases h with _ | ⟨_, _ | ⟨_, _ | ⟨_, _ | _⟩⟩⟩
      exact .bare hword
    | offset hword hn =>
      rcases h with _ | ⟨_, _ | ⟨_, _ | ⟨_, _ | ⟨_, _ | ⟨_, _ | _⟩⟩⟩⟩⟩
      exact .offset hword hn
    | letter hletter hn =>
      cases h with
      | keep _ h =>
        rcases h with _ | ⟨_, _ | ⟨_, _ | ⟨_, _ | _⟩⟩⟩
        exact .letter hletter hn
      | expand hletter' hword h =>
        cases h
        -- the same letter, so the same space: the sum names the slot that the letter did
        obtain rfl := hletter.unique hletter'
        exact .offset hword hn
  indirect := by
    intro name width ts address us hname hd hatom h
    generalize hvs : ts ++ [.closeSquare] = vs at h
    cases h with
    -- the name in front of an indirect address is that of a width
    | expand hletter _ _ => exact absurd hletter hname.not_letter
    | keep _ h =>
      cases h with
      | keep _ h =>
        obtain ⟨ts', rest, rfl, hts, hrest⟩ := h.cut hvs.symm hd.closed (by simp)
        rcases hrest with _ | ⟨_, _ | _⟩
        exact ⟨ts', rfl, hts⟩

/--
The other direction, from the written-out form to the letter. Here the cut may fall into the sum
that a letter abbreviates only if a bracket is open there; and the sum is never all of an indirect
address, because an address is an operand.
-/
theorem transparent_resugars : Transparent (flip Desugars) where
  empty := .nil
  nil h := by cases h; rfl
  keep t h := .keep t h
  split := by
    intro ls rs ts t hls h ht
    obtain ⟨ls', rs', rfl, hl, hr⟩ := h.cut_flip rfl hls
    cases hr with
    | keep _ hr => exact ⟨ls', _, rfl, hl, hr⟩
    | expand _ _ _ => exact ht.elim
  name := by
    intro name us ts _ h
    cases h with
    | keep _ h => exact ⟨_, rfl, h⟩
  slot := by
    intro us ts s hs h
    cases hs with
    | bare hword =>
      rcases h with _ | ⟨_, _ | ⟨_, _ | ⟨_, _ | _⟩⟩⟩
      exact .bare hword
    | offset hword hn =>
      cases h with
      | keep _ h =>
        rcases h with _ | ⟨_, _ | ⟨_, _ | ⟨_, _ | ⟨_, _ | _⟩⟩⟩⟩
        exact .offset hword hn
      | expand hletter hword' h =>
        cases h
        obtain rfl := hword.unique hword'
        exact .letter hletter hn
    | letter hletter hn =>
      rcases h with _ | ⟨_, _ | ⟨_, _ | ⟨_, _ | ⟨_, _ | _⟩⟩⟩⟩
      exact .letter hletter hn
  indirect := by
    intro name width us address ts hname hd hatom h
    rcases h with _ | ⟨_, h⟩
    generalize hvs : us ++ [.closeSquare] = vs at h
    cases h with
    | keep _ h =>
      obtain ⟨ts', rest, rfl, hts, hrest⟩ := h.cut_flip hvs.symm hd.closed
      rcases hrest with _ | ⟨_, _ | _⟩
      exact ⟨ts', rfl, hts⟩
    | expand _ _ _ =>
      -- the address would be a sum
      match us, hvs with
      | [_], hvs => simp at hvs
      | t :: u :: us, hvs =>
        obtain ⟨rfl, -⟩ := List.cons.inj hvs
        exact absurd hatom (not_atom_of_base hd)

end Grammar

open Grammar

/-! ## Positions -/

namespace Program

/--
The code of statements does not depend on where they stand. Lowering reads the statements
themselves, and their spans are only for the quotations.
-/
theorem lowerStatements_code {mode : Addressing} {fresh : Nat} {ss ss' : List (Located Statement)}
    {blocks blocks' : List Block} (hvalues : ss'.map Located.value = ss.map Located.value)
    (h : lowerStatements mode fresh ss = .ok blocks)
    (h' : lowerStatements mode fresh ss' = .ok blocks') :
    blocks'.map Block.code = blocks.map Block.code := by
  induction ss generalizing ss' fresh blocks blocks' with
  | nil =>
    obtain rfl := List.map_eq_nil_iff.mp hvalues
    cases h
    cases h'
    rfl
  | cons s ss ih =>
    cases ss' with
    | nil => cases hvalues
    | cons s' ss' =>
      obtain ⟨hs, hss⟩ := List.cons.inj hvalues
      -- both lists take the same label numbers, since they hold the same statements
      obtain ⟨code, more, hcode, hmore, rfl⟩ := lowerStatements_cons h
      obtain ⟨code', more', hcode', hmore', rfl⟩ := lowerStatements_cons h'
      rw [hs] at hcode' hmore'
      cases hcode.symm.trans hcode'
      rw [List.map_cons, List.map_cons, ih hss hmore hmore']

/-- Without comments, an assembly text does not depend on where anything stood in the source. -/
theorem assemble_of_values {p p' : Program} {t : Target} {text text' : String}
    (ht : t.annotate = false) (hdata : p'.data.map Located.value = p.data.map Located.value)
    (hss : p'.statements.map Located.value = p.statements.map Located.value)
    (h : p.assemble t = .ok text) (h' : p'.assemble t = .ok text') : text' = text := by
  obtain ⟨l, hl, htext⟩ := bind_eq_ok.mp h
  obtain ⟨l', hl', htext'⟩ := bind_eq_ok.mp h'
  cases htext
  cases htext'
  -- the text reads three things of a listing: the external names, the two regions and the code
  have hexternals : l'.externals = l.externals := by
    rw [lower_externals hl, lower_externals hl']
    have hcallees : ∀ p : Program, (p.statements.filterMap fun s => s.value.callee?) =
        (p.statements.map Located.value).filterMap Statement.callee? := by
      intro p
      rw [List.filterMap_map]
      rfl
    rw [externals, externals, hcallees, hcallees, hss]
  have hregion : ∀ r, l'.region r = l.region r := by
    intro r
    have hlayout := layout_of_lower hl r
    have hlayout' := layout_of_lower hl' r
    unfold layout initializers at hlayout hlayout'
    rw [hdata] at hlayout'
    split at hlayout
    · next heq =>
      rw [heq] at hlayout'
      exact (Except.ok.inj hlayout').symm.trans (Except.ok.inj hlayout)
    · cases hlayout
  have hcode : l'.code = l.code := by
    obtain ⟨hblocks, exit, hexit, hend⟩ := lower_eq_ok hl
    obtain ⟨hblocks', exit', hexit', hend'⟩ := lower_eq_ok hl'
    cases hexit.symm.trans hexit'
    have hmap := lowerStatements_code hss hblocks hblocks'
    rw [Listing.code, Listing.code, hend, hend', List.flatMap_def, List.flatMap_def, hmap]
  have hregions : l'.data = l.data ∧ l'.const = l.const := ⟨hregion .data, hregion .const⟩
  rw [ht, Style.text, Style.text, Output.lines_eq, Output.lines_eq, hexternals, hcode, hregions.1,
    hregions.2]

/-- What is related to an accepted list of tokens is accepted as the same program. -/
theorem ofTokens_transparent {R : List Token → List Token → Prop} (hR : Transparent R)
    (hflip : Transparent (flip R)) {tokens tokens' : List (Located Token)} {start : Span}
    {p : Program} (hp : ofTokens tokens start = .ok p) (start' : Span)
    (h : R (tokens.map Located.value) (tokens'.map Located.value)) :
    ∃ p', ofTokens tokens' start' = .ok p' ∧
      p'.data.map Located.value = p.data.map Located.value ∧
      p'.statements.map Located.value = p.statements.map Located.value := by
  -- accepted means derived by the grammar, and the derivation is carried over part by part
  obtain ⟨⟨rest, us, hrun, ⟨ts, more, rfl, -, hts⟩, hlongest⟩, hapart, hlabels⟩ := ofTokens_sound hp
  obtain ⟨rest', hrun', hrest⟩ := hR.initialRun hrun h
  obtain ⟨ts', more', rfl, hts'⟩ := hR.statements hts hrest
  refine (ofTokens_iff start').mpr ⟨⟨_, _, hrun', ⟨ts', more', rfl, rfl, hts'⟩, ?_⟩, hapart, hlabels⟩
  -- a further initial value would be one of the given tokens as well
  intro i last hlast
  obtain ⟨last', hlast', -⟩ := hflip.initialRun hlast hrest
  exact hlongest i last' hlast'

end Program

/--
**Letters are short for brackets.** If some references by letters are written out in a list of
tokens, it is accepted exactly if it was before, as a program with the same initial values and the
same statements. So for every target that has no comments, both have the same assembly text.
-/
theorem Program.ofTokens_desugars {tokens tokens' : List (Located Token)} (start start' : Span)
    (h : Desugars (tokens.map Located.value) (tokens'.map Located.value)) :
    ((∃ p, ofTokens tokens start = .ok p) ↔ ∃ p', ofTokens tokens' start' = .ok p') ∧
    ∀ p p', ofTokens tokens start = .ok p → ofTokens tokens' start' = .ok p' →
      p'.data.map Located.value = p.data.map Located.value ∧
      p'.statements.map Located.value = p.statements.map Located.value ∧
      ∀ t : Target, t.annotate = false → ∃ text, p.assemble t = .ok text ∧
        p'.assemble t = .ok text := by
  -- the relation and its converse are transparent both, so either side is accepted if the other is
  have hforth := fun p (hp : ofTokens tokens start = .ok p) =>
    ofTokens_transparent transparent_desugars transparent_resugars hp start' h
  have hback := fun p (hp : ofTokens tokens' start' = .ok p) =>
    ofTokens_transparent transparent_resugars transparent_desugars hp start h
  constructor
  · constructor
    · rintro ⟨p, hp⟩
      obtain ⟨p', hp', -⟩ := hforth p hp
      exact ⟨p', hp'⟩
    · rintro ⟨p', hp'⟩
      obtain ⟨p, hp, -⟩ := hback p' hp'
      exact ⟨p, hp⟩
  · intro p p' hp hp'
    obtain ⟨q, hq, hdata, hss⟩ := hforth p hp
    obtain rfl : p' = q := Except.ok.inj (hp'.symm.trans hq)
    refine ⟨hdata, hss, fun t ht => ?_⟩
    obtain ⟨text, htext⟩ := Program.exists_assemble hp t
    obtain ⟨text', htext'⟩ := Program.exists_assemble hp' t
    obtain rfl := assemble_of_values ht hdata hss htext htext'
    exact ⟨_, htext, htext'⟩

/-- Letters in an initial value, in an address and as names; one of them is left as it is. -/
theorem Program.ofTokens_desugars_names :
    let ts : List Token :=
      [.id "d", .openSquare, .number 8, .closeSquare, .assign, .number 2, .newline, .hash, .id "s",
        .newline, .id "s", .openSquare, .number 0, .closeSquare, .assign, .id "m8", .openSquare,
        .id "d", .openSquare, .number 8, .closeSquare, .closeSquare, .newline, .keyword .goto,
        .id "s", .eof]
    let us : List Token :=
      [.openSquare, .keyword .data, .binary .add, .number 8, .closeSquare, .assign, .number 2,
        .newline, .hash, .id "s", .newline, .id "s", .openSquare, .number 0, .closeSquare, .assign,
        .id "m8", .openSquare, .openSquare, .keyword .data, .binary .add, .number 8, .closeSquare,
        .closeSquare, .newline, .keyword .goto, .id "s", .eof]
    Desugars ((unplaced ts).map Located.value) ((unplaced us).map Located.value) ∧
      ∃ p p', ofTokens (unplaced ts) .first = .ok p ∧ ofTokens (unplaced us) .first = .ok p' ∧
        p'.data.map Located.value = p.data.map Located.value ∧
        p'.statements.map Located.value = p.statements.map Located.value := by
  intro ts us
  have h : Desugars ((unplaced ts).map Located.value) ((unplaced us).map Located.value) := by
    rw [map_value_unplaced, map_value_unplaced]
    apply Desugars.expand .d .data
    -- the `s` in between is a label and a slot, and left as it is
    iterate 13 apply Desugars.keep
    apply Desugars.expand .d .data
    exact .refl _
  have hp : ∃ p, ofTokens (unplaced ts) .first = .ok p := ⟨_, rfl⟩
  obtain ⟨p', hp'⟩ := (ofTokens_desugars .first .first h).1.mp hp
  obtain ⟨p, hp⟩ := hp
  obtain ⟨hdata, hss, -⟩ := (ofTokens_desugars .first .first h).2 p p' hp hp'
  exact ⟨h, p, p', hp, hp', hdata, hss⟩

end Quadword
