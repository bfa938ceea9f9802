import Quadword.Program.Parser
import Quadword.Proofs.Grammar.Basic
import Quadword.Proofs.Grammar.Reading

/-!
# What has a derivation is read

The other direction: tokens that derive a tree are read as that tree, provided that what follows
them cannot continue it. An expression is continued by a binary operator, and a literal by the mark
for a wide one (`Stops`); nothing else needs a token of lookahead.

Two things are to be shown beyond following the derivation. The bounds on nesting and repetition are
never reached, because every level and every round takes a token of its own. And where a parser
tries one construct before another, the first must fail on the tokens of the second: a choice is
tried before a value, and no value starts like the condition of a choice (`selector_rejects`).
-/

namespace Quadword

open Grammar

namespace Parser

/-! ## References -/

/-- An offset within bounds is read; it is the only literal that a reference may hold. -/
theorem Accepts.offset {n : Word} {ts : List Token} {K : Word → List Token → Prop}
    (hn : n.toNat ≤ Slot.maxOffset) (h : K n ts) : Accepts offset (.number n :: ts) K := by
  unfold Parser.offset
  refine .bind (.literal ?_)
  rw [if_pos hn]
  exact .pure h

/-- Each of the three words of a space is read as its space. -/
theorem Accepts.space {k : Keyword} {s : Space} {ts : List Token}
    {K : Space → List Token → Prop} (hword : SpaceWord k s) (h : K s ts) :
    Accepts space (.keyword k :: ts) K := by
  unfold Parser.space
  refine .bind (.next ?_)
  cases hword with
  | sp => exact .pure h
  | data => exact .pure h
  | const => exact .pure h

theorem ofLetter?_of_spaceLetter {name : String} {space : Space} (h : SpaceLetter name space) :
    Space.ofLetter? name = some space := by
  cases h <;> rfl

theorem ofName?_of_widthName {name : String} {width : Width} (h : WidthName name width) :
    Width.ofName? name = some width := by
  cases h <;> rfl

/-- A letter that shortens a reference is not the name of an access through an address. -/
theorem ofName?_of_spaceLetter {name : String} {space : Space} (h : SpaceLetter name space) :
    Width.ofName? name = none := by
  cases h <;> rfl

/--
Each of the three spellings of a slot is read as that slot, whatever follows: a slot ends with its
closing bracket, so it needs no lookahead.
-/
theorem Accepts.slot {ts rest : List Token} {s : Slot} {K : Slot → List Token → Prop}
    (hs : SlotOf ts s) (h : K s rest) : Accepts slot (ts ++ rest) K := by
  unfold Parser.slot
  -- without an offset, with one behind the space, or by the letter of the space
  cases hs with
  | bare hword =>
      refine .bind (.next (.bind (.space hword ?_)))
      refine .bind (.bind (.accept_other (by simp) (.pure ?_)))
      exact .bind (.expect (.pure h))
  | offset hword hn =>
      refine .bind (.next (.bind (.space hword ?_)))
      refine .bind (.bind (.accept_self (.offset hn ?_)))
      exact .bind (.expect (.pure h))
  | letter hletter hn =>
      refine .bind (.next ?_)
      simp only [ofLetter?_of_spaceLetter hletter]
      exact .bind (.expect (.bind (.offset hn (.bind (.expect (.pure h))))))

/-! ## Expressions -/

/-- The tokens neither continue an expression nor are there none. -/
def Stops : List Token → Prop
  | [] | .wide :: _ | .binary _ :: _ => False
  | _ => True

/--
What ends an expression does not start with the mark of a wide literal, so a literal at its end
stays as it was written.
-/
theorem Stops.head?_ne_wide {ts : List Token} (h : Stops ts) : ts.head? ≠ some .wide := by
  intro hhead
  cases ts with
  | nil => simp at hhead
  | cons t ts =>
      have ht : t = .wide := by simpa using hhead
      rw [ht] at h
      exact h

/--
The end of a line continues no expression. Every expression at the end of a statement is stopped by
this.
-/
theorem stops_of_lineEnds {ts : List Token} (h : LineEnds ts) : Stops ts := by
  cases ts with
  | nil => simp [LineEnds] at h
  | cons t ts =>
      have ht : t = .newline ∨ t = .eof := by simpa [LineEnds] using h
      rcases ht with rfl | rfl
      · trivial
      · trivial

theorem isAtom_of_atom {e : Expr} (h : Atom e) : e.isAtom = true := by
  cases h <;> rfl

theorem admits_of_argument {e : Expr} (h : Argument e) : Role.argument.admits e = true := by
  cases h with
  | atom h => simp [Role.admits, isAtom_of_atom h]
  | indirect width address => rfl

/-- Every expression takes at least one token. -/
theorem derives_length_pos {layer : Layer} {ts : List Token} {e : Expr}
    (h : Derives layer ts e) : 0 < ts.length := by
  induction h with
  | single _ ih => exact ih
  | binary op _ _ ihl _ => rw [List.length_append]; omega
  | plain _ ih => exact ih
  | slot h => cases h <;> simp
  | _ => simp

/-- The first token of an operand without operators is not that of one with a unary operator. -/
theorem primary_head {ts : List Token} {e : Expr} (h : Derives .primary ts e) :
    ∃ t us, ts = t :: us ∧ t ≠ .binary .sub ∧ t ≠ .tilde := by
  cases h with
  | slot hs => cases hs <;> exact ⟨_, _, rfl, by simp, by simp⟩
  | _ => exact ⟨_, _, rfl, by simp, by simp⟩

/--
Reading in a role succeeds if the expression is read and has the shape that the role asks for.
-/
theorem Accepts.constrain {role : Role} {p : Parser (Located Expr)} {vs : List Token} {e : Expr}
    {K : Expr → List Token → Prop} (hrole : role.admits e = true)
    (h : Accepts p vs fun a us => a.value = e ∧ K e us) : Accepts (constrain role p) vs K := by
  unfold Parser.constrain
  refine .bind (h.mono fun a us hK => ?_)
  rw [hK.1, if_pos hrole]
  exact .pure hK.2

/--
The loop over operators ends where no operator follows, with the operand that it has so far. One
more round is needed to see that, so the bound must not be used up.
-/
theorem Accepts.operations_stop {operand : Parser Expr} {bound : Nat} {left : Expr}
    {rest : List Token} {K : Expr → List Token → Prop} (hbound : 0 < bound) (hstop : Stops rest)
    (h : K left rest) : Accepts (operations operand bound left) rest K := by
  cases bound with
  | zero => exact absurd hbound (by omega)
  | succ bound =>
      unfold Parser.operations
      cases rest with
      | nil => exact hstop.elim
      | cons t ts =>
          refine .bind (.peek ?_)
          -- an operator is what does not stop an expression; every other token ends the loop
          cases t with
          | binary op => exact hstop.elim
          | _ => exact .pure h

/-- The loop over operators goes on with the operator and the operand that follow. -/
theorem Accepts.operations_step {operand : Parser Expr} {bound : Nat} {left : Expr} {op : BinOp}
    {vs : List Token} {K : Expr → List Token → Prop}
    (h : Accepts operand vs fun right us => Accepts (operations operand bound (.binary op left right))
      us K) :
    Accepts (operations operand (bound + 1) left) (.binary op :: vs) K := by
  rw [operations.eq_2]
  exact .bind (.peek (.bind (.next (.bind h))))

/--
What it means that the tokens of a layer are read as `e`. Of an expression, only the part before the
loop has come to its end is described: it leaves the loop at the tokens that follow, with enough of
its bound left.
-/
def ReadAs (layer : Layer) (ts : List Token) (e : Expr) : Prop :=
  ∀ (depth : Nat) (rest : List Token) (K : Expr → List Token → Prop), rest.head? ≠ some .wide →
    match layer with
    | .expr => ts.length ≤ depth → ∀ bound, ts.length ≤ bound →
        (∀ b, bound < b + ts.length → Accepts (operations (unary depth) b e) rest K) →
        Accepts (unary depth >>= operations (unary depth) bound) (ts ++ rest) K
    | .unary => ts.length ≤ depth → K e rest → Accepts (unary depth) (ts ++ rest) K
    | .primary => ts.length ≤ depth + 1 → K e rest →
        Accepts (primary (chain (unary depth) depth)) (ts ++ rest) K

/-- An expression inside brackets or parentheses is read to its end. -/
theorem ReadAs.chain {ts rest : List Token} {e : Expr} {depth : Nat}
    {K : Located Expr → List Token → Prop} (h : ReadAs .expr ts e) (hlen : ts.length ≤ depth)
    (hstop : Stops rest) (hK : ∀ span, K ⟨e, span⟩ rest) :
    Accepts (chain (unary depth) depth) (ts ++ rest) K := by
  unfold Parser.chain
  refine .spanned (h depth rest _ hstop.head?_ne_wide hlen depth hlen fun b hb => ?_)
  exact .operations_stop (by omega) hstop hK

/--
**A derivation is read as its tree.** By induction over the derivation, following the parser from
above: each operator and each bracket of the derivation uses up a token, so the bound on the nesting
and the bound on the rounds of the loop, which both start at the number of tokens, hold out.
-/
theorem derives_readAs {layer : Layer} {ts : List Token} {e : Expr} (h : Derives layer ts e) :
    ReadAs layer ts e := by
  induction h with
  | single hd ih =>
      intro depth rest K hwide hlen bound hbound hK
      have hpos := derives_length_pos hd
      -- the loop has not begun, so all of its bound is left
      exact .bind (ih depth rest _ hwide hlen (hK bound (by omega)))
  | @binary ls rs left right op hl hr ihl ihr =>
      intro depth rest K hwide hlen bound hbound hK
      rw [List.length_append, List.length_cons] at hlen hbound
      rw [List.append_assoc, List.cons_append]
      refine ihl depth _ K (by simp) (by omega) bound (by omega) fun b hb => ?_
      -- the loop still has a round left for the operator
      obtain ⟨b, rfl⟩ : ∃ b', b = b' + 1 := ⟨b - 1, by omega⟩
      refine .operations_step (ihr depth rest _ hwide (by omega) (hK b ?_))
      rw [List.length_append, List.length_cons]
      omega
  | neg hd ih =>
      intro depth rest K hwide hlen hK
      rw [List.length_cons] at hlen
      obtain ⟨d, rfl⟩ : ∃ d, depth = d + 1 := ⟨depth - 1, by omega⟩
      rw [unary.eq_2]
      refine .bind (.peek (.bind (.next (.bind (ih d rest _ hwide (by omega) ?_)))))
      exact .pure hK
  | not hd ih =>
      intro depth rest K hwide hlen hK
      rw [List.length_cons] at hlen
      obtain ⟨d, rfl⟩ : ∃ d, depth = d + 1 := ⟨depth - 1, by omega⟩
      rw [unary.eq_2]
      refine .bind (.peek (.bind (.next (.bind (ih d rest _ hwide (by omega) ?_)))))
      exact .pure hK
  | plain hd ih =>
      intro depth rest K hwide hlen hK
      have hpos := derives_length_pos hd
      -- there is a token, so there is a level
      obtain ⟨d, rfl⟩ : ∃ d, depth = d + 1 := ⟨depth - 1, by omega⟩
      have hprimary := ih d rest K hwide hlen hK
      obtain ⟨t, us, rfl, hsub, htilde⟩ := primary_head hd
      rw [unary.eq_2]
      refine .bind (.peek ?_)
      -- its first token is that of no unary operator
      split
      · exact absurd rfl hsub
      · exact absurd rfl htilde
      · exact hprimary
  | number n =>
      intro depth rest K hwide _ hK
      -- this is where the premise about the mark is needed
      exact .bind (.peek (.bind (.next (.bind (.accept_other hwide (.pure hK))))))
  | wide n =>
      intro depth rest K _ _ hK
      exact .bind (.peek (.bind (.next (.bind (.accept_self (.pure hK))))))
  | sp =>
      intro depth rest K _ _ hK
      exact .bind (.peek (.bind (.next (.pure hK))))
  | data =>
      intro depth rest K _ _ hK
      exact .bind (.peek (.bind (.next (.pure hK))))
  | const =>
      intro depth rest K _ _ hK
      exact .bind (.peek (.bind (.next (.pure hK))))
  | slot hs =>
      intro depth rest K _ _ hK
      have hslot : Accepts (Parser.slot >>= fun s => Pure.pure (Expr.slot s)) _ K :=
        .bind (.slot hs (.pure hK))
      cases hs with
      | bare hword => exact .bind (.peek hslot)
      | offset hword hn => exact .bind (.peek hslot)
      -- a name in front of a bracket: it is a letter, so it is no width
      | letter hletter hn =>
          refine .bind (.peek ?_)
          simp only [ofName?_of_spaceLetter hletter]
          exact hslot
  | @indirect ts name width address hname hd hatom ih =>
      intro depth rest K _ hlen hK
      simp only [List.length_cons, List.length_append, List.length_nil] at hlen
      simp only [List.cons_append, List.append_assoc, List.nil_append]
      refine .bind (.peek ?_)
      simp only [ofName?_of_widthName hname]
      refine .bind (.bind (.next (.bind (.expect (.bind ?_)))))
      refine .constrain (e := address) (isAtom_of_atom hatom) ?_
      -- the closing bracket stops the address, and the bracket itself pays for the level
      refine ih.chain (by omega) trivial fun span => ⟨rfl, ?_⟩
      exact .bind (.expect (.pure (.pure hK)))
  | @paren ts e hd ih =>
      intro depth rest K _ hlen hK
      simp only [List.length_cons, List.length_append, List.length_nil] at hlen
      simp only [List.cons_append, List.append_assoc, List.nil_append]
      refine .bind (.peek (.bind (.next (.bind ?_))))
      -- the closing parenthesis stops what is inside, whatever follows it
      refine ih.chain (by omega) trivial fun span => ?_
      exact .bind (.expect (.pure hK))

/--
A whole expression is read to its end if what follows stops it. The bound is the number of all
remaining tokens, which is at least the number of its own.
-/
theorem Accepts.expression {ts rest : List Token} {e : Expr} {K : Located Expr → List Token → Prop}
    (he : Derives .expr ts e) (hstop : Stops rest) (h : ∀ span, K ⟨e, span⟩ rest) :
    Accepts expression (ts ++ rest) K := by
  unfold Parser.expression
  refine .bind (.remaining ?_)
  refine (derives_readAs he).chain ?_ hstop h
  rw [List.length_append]
  omega

theorem Accepts.operand {role : Role} {ts rest : List Token} {e : Expr}
    {K : Expr → List Token → Prop} (he : Derives .expr ts e) (hrole : role.admits e = true)
    (hstop : Stops rest) (h : K e rest) : Accepts (Parser.operand role) (ts ++ rest) K :=
  .constrain hrole (.expression he hstop fun _ => ⟨rfl, h⟩)

theorem Accepts.value {ts rest : List Token} {e : Expr} {K : Expr → List Token → Prop}
    (he : ValueOf ts e) (hstop : Stops rest) (h : K e rest) :
    Accepts (Parser.operand .value) (ts ++ rest) K :=
  .operand he.derives (by simpa [Role.admits] using he.operations) hstop h

/-- An operand of the grammar is read on the right of a combining assignment. -/
theorem Accepts.combined {ts rest : List Token} {e : Expr} {K : Expr → List Token → Prop}
    (he : OperandOf ts e) (hstop : Stops rest) (h : K e rest) :
    Accepts (Parser.operand .operand) (ts ++ rest) K :=
  .operand he.derives (by simpa [Role.admits] using he.operations) hstop h

theorem Accepts.compared {ts rest : List Token} {e : Expr} {K : Expr → List Token → Prop}
    (he : OperandOf ts e) (hstop : Stops rest) (h : K e rest) :
    Accepts (Parser.operand .condition) (ts ++ rest) K :=
  .operand he.derives (by simpa [Role.admits] using he.operations) hstop h

/-! ## Statements -/

/-- A condition is read; the comparison sign stops its left operand. -/
theorem Accepts.condition {cs rest : List Token} {c : Condition} {K : Condition → List Token → Prop}
    (hc : ConditionOf cs c) (hstop : Stops rest) (h : K c rest) :
    Accepts condition (cs ++ rest) K := by
  cases hc with
  | compare comparison hl hr =>
      unfold Parser.condition
      rw [List.append_assoc, List.cons_append]
      refine .bind (.compared hl trivial (.bind (.next ?_)))
      exact .bind (.compared hr hstop (.pure h))

/-- A slot outside the constant region is read as a place. -/
theorem Accepts.writableSlot {ts rest : List Token} {s : Slot} {K : Place → List Token → Prop}
    (hs : SlotOf ts s) (hspace : s.space ≠ .region .const) (h : K (.slot s) rest) :
    Accepts writableSlot (ts ++ rest) K := by
  unfold Parser.writableSlot
  refine .bind (.spanned (.slot hs fun span => ?_))
  rw [if_neg hspace]
  exact .pure h

/--
Each form of place is read. Only a letter of a space could be mistaken for the name of a width, and
it is none.
-/
theorem Accepts.place {ps rest : List Token} {target : Place} {K : Place → List Token → Prop}
    (hp : PlaceOf ps target) (h : K target rest) : Accepts place (ps ++ rest) K := by
  unfold Parser.place
  cases hp with
  | slot hs hspace =>
      have hslot : Accepts Parser.writableSlot _ K := .writableSlot hs hspace h
      -- the first token decides what is tried: only a name can be a width
      cases hs with
      | bare hword => exact .bind (.peek hslot)
      | offset hword hn => exact .bind (.peek hslot)
      | letter hletter hn =>
          refine .bind (.peek ?_)
          simp only [ofName?_of_spaceLetter hletter]
          exact hslot
  | @indirect ts name width address hname hd hatom =>
      simp only [List.cons_append, List.append_assoc, List.nil_append]
      refine .bind (.peek ?_)
      simp only [ofName?_of_widthName hname]
      refine .bind (.bind (.next (.bind (.expect (.bind ?_)))))
      refine .constrain (e := address) (isAtom_of_atom hatom) ?_
      refine .expression hd trivial fun span => ⟨rfl, ?_⟩
      exact .bind (.expect (.pure (.pure h)))

/-- The first token of a place is a bracket or an identifier. -/
theorem place_head {ps : List Token} {target : Place} (h : PlaceOf ps target) :
    ∃ t us, ps = t :: us ∧ (t = .openSquare ∨ ∃ name, t = .id name) := by
  cases h with
  | slot hs _ =>
      cases hs with
      | bare _ => exact ⟨_, _, rfl, .inl rfl⟩
      | offset _ _ => exact ⟨_, _, rfl, .inl rfl⟩
      | letter _ _ => exact ⟨_, _, rfl, .inr ⟨_, rfl⟩⟩
  | indirect _ _ _ => exact ⟨_, _, rfl, .inr ⟨_, rfl⟩⟩

/-- Arguments are followed by another argument, or by what follows them all. -/
theorem stops_arguments {ts rest : List Token} {as : List Expr} (h : ArgumentsOf ts as)
    (hstop : Stops rest) : Stops (ts ++ rest) := by
  cases h with
  | nil => exact hstop
  | cons _ _ _ => trivial

/--
All arguments are read if the line ends behind them: the comma of the next argument stops each one,
and the number of rounds is bounded by the number of tokens.
-/
theorem Accepts.arguments {ts rest : List Token} {as : List Expr} {bound : Nat}
    {K : List Expr → List Token → Prop} (ha : ArgumentsOf ts as) (hbound : ts.length ≤ bound)
    (hend : LineEnds rest) (h : K as rest) : Accepts (arguments bound) (ts ++ rest) K := by
  induction ha generalizing bound K with
  | nil =>
      cases bound with
      | zero => exact .pure h
      | succ bound =>
          refine .bind (.accept_other ?_ (.pure h))
          rw [List.nil_append]
          -- no comma follows, in either way for a line to end
          rcases hend with hend | hend
          · rw [hend]; simp
          · rw [hend]; simp
  | @cons ts us a as hd harg hmore ih =>
      simp only [List.length_cons, List.length_append] at hbound
      -- the comma is one of the tokens that the bound counts
      obtain ⟨b, rfl⟩ : ∃ b, bound = b + 1 := ⟨bound - 1, by omega⟩
      simp only [List.cons_append, List.append_assoc]
      refine .bind (.accept_self (.bind ?_))
      refine .operand hd (admits_of_argument harg)
        (stops_arguments hmore (stops_of_lineEnds hend)) (.bind ?_)
      exact ih (by omega) (.pure h)

/-- A call is read from its keyword on, with all of its arguments, up to the end of the line. -/
theorem Accepts.syscall {t : Token} {name : String} {ts rest : List Token} {as : List Expr}
    {output : Option Place} {K : Statement → List Token → Prop} (ha : ArgumentsOf ts as)
    (hend : LineEnds rest) (h : K (.syscall name as output) rest) :
    Accepts (syscall output) (t :: .id name :: (ts ++ rest)) K := by
  unfold Parser.syscall
  refine .bind (.next (.bind (.identifier (.bind (.remaining (.bind ?_))))))
  refine .arguments ha ?_ hend (.pure h)
  rw [List.length_append]
  omega

/-! ### A value is not the head of a choice -/

/--
An expression that starts with a parenthesis starts with an expression in parentheses. So the
closing one is where the parser expects it, and the operators are behind it.
-/
theorem derives_openParen {layer : Layer} {ts us : List Token} {e : Expr}
    (h : Derives layer ts e) (hts : ts = .openParen :: us) :
    ∃ inner tail e', us = inner ++ .closeParen :: tail ∧ Derives .expr inner e' := by
  induction h generalizing us with
  | single _ ih => exact ih hts
  | @binary ls rs _ _ op hl _ ih _ =>
      -- the parenthesis belongs to the left operand
      cases ls with
      | nil => exact absurd (derives_length_pos hl) (by simp)
      | cons l ls =>
          rw [List.cons_append, List.cons.injEq] at hts
          obtain ⟨rfl, rfl⟩ := hts
          obtain ⟨inner, tail, e', rfl, hinner⟩ := ih rfl
          exact ⟨inner, tail ++ .binary op :: rs, e', by simp, hinner⟩
  | plain _ ih => exact ih hts
  | slot hs => cases hs <;> simp at hts
  | @paren inner e hinner _ =>
      rw [List.cons.injEq] at hts
      exact ⟨inner, [], e, by rw [← hts.2], hinner⟩
  | _ => simp at hts

/-- After `(` and an expression a choice needs a comparison, where a value has its `)`. -/
theorem selector_rejects {ts rest : List Token} {e : Expr} (h : Derives .expr ts e) :
    Rejects selector (ts ++ rest) := by
  unfold Rejects Parser.selector
  refine .bind (.expect fun us hus => ?_)
  cases ts with
  | nil => exact absurd (derives_length_pos h) (by simp)
  | cons t ts =>
      rw [List.cons_append, List.cons.injEq] at hus
      obtain ⟨rfl, rfl⟩ := hus
      obtain ⟨inner, tail, e', rfl, hinner⟩ := derives_openParen h rfl
      rw [List.append_assoc, List.cons_append]
      unfold Parser.condition Parser.operand Parser.constrain
      -- what stands in the parentheses is read to its end, and no comparison comes next
      have hread : Accepts expression (inner ++ .closeParen :: (tail ++ rest))
          fun _ us => us = .closeParen :: (tail ++ rest) :=
        .expression hinner trivial fun _ => rfl
      refine .bind (.bind (.bind (hread.ensures.mono fun a us hus => ?_)))
      subst hus
      -- an operand of a condition at best; then the closing parenthesis is no comparison sign
      split
      · exact .pure (.bind (.next .fail))
      · exact .throw

/--
Where a value stands, the attempt at a choice fails and the value is read after all. So what is left
to show is how the statement goes on behind the value.
-/
theorem Accepts.chosen_value {target : Place} {ts vs : List Token} {e : Expr}
    {K : Statement → List Token → Prop} (he : ValueOf ts e) (hstop : Stops vs)
    (h : Accepts (do
      if ← accept (.keyword .cond) then
        let c ← Parser.condition
        Pure.pure (.assignIf target e c)
      else Pure.pure (.assign target e)) vs K) :
    Accepts (chosen target) (ts ++ vs) K := by
  unfold Parser.chosen
  refine .bind (.attempt_none (selector_rejects he.derives) (.bind ?_))
  exact .value he hstop h

/--
What follows `place =` is read as the statement that it completes. It only must not start with the
word for calls, which the parser looks for first.
-/
theorem Accepts.assigned_of_chosen {target : Place} {vs : List Token}
    {K : Statement → List Token → Prop} (hvs : vs.head? ≠ some (.keyword .syscall))
    (hne : vs ≠ []) (h : Accepts (chosen target) vs K) : Accepts (assigned target) vs K := by
  unfold Parser.assigned
  cases vs with
  | nil => exact absurd rfl hne
  | cons v vs =>
      refine .bind (.peek ?_)
      cases v with
      | keyword k =>
          cases k with
          | syscall => exact absurd rfl hvs
          | _ => exact h
      | _ => exact h

/-- No expression starts with the keyword of a call. -/
theorem derives_head?_ne_syscall {layer : Layer} {ts rest : List Token} {e : Expr}
    (h : Derives layer ts e) : (ts ++ rest).head? ≠ some (.keyword .syscall) := by
  induction h generalizing rest with
  | single _ ih => exact ih
  | binary _ _ _ ih _ => rw [List.append_assoc]; exact ih
  | plain _ ih => exact ih
  | slot hs => cases hs <;> simp
  | _ => simp

/-- An expression is not empty, so there is a token to look at. -/
theorem derives_append_ne_nil {layer : Layer} {ts rest : List Token} {e : Expr}
    (h : Derives layer ts e) : ts ++ rest ≠ [] := by
  have hpos := derives_length_pos h
  intro hnil
  rw [List.append_eq_nil_iff.mp hnil |>.1] at hpos
  exact absurd hpos (by simp)

/-- A statement that starts with a place is read by the parser of stores. -/
theorem Accepts.statement_of_store {ps vs : List Token} {target : Place}
    {K : Statement → List Token → Prop} (hp : PlaceOf ps target)
    (h : Accepts store (ps ++ vs) K) : Accepts statement (ps ++ vs) K := by
  obtain ⟨t, us, rfl, ht⟩ := place_head hp
  -- both kinds of first token send the parser to the stores
  rcases ht with rfl | ⟨name, rfl⟩
  · exact .bind (.peek h)
  · exact .bind (.peek h)

theorem Accepts.destination {t : Token} {d : Destination} {ts : List Token}
    {K : Destination → List Token → Prop} (hd : DestinationOf t d) (h : K d ts) :
    Accepts destination (t :: ts) K := by
  cases hd with
  | label name => exact .bind (.next (.pure h))
  | finish => exact .bind (.next (.pure h))

/--
A line ends with a newline or with the end of the text and with nothing else; so an optional token
at the end of a statement is not there.
-/
theorem lineEnds_head?_ne {rest : List Token} {t : Token} (hend : LineEnds rest)
    (hnewline : t ≠ .newline) (heof : t ≠ .eof) : rest.head? ≠ some t := by
  rcases hend with hend | hend
  · rw [hend]; simpa using hnewline.symm
  · rw [hend]; simpa using heof.symm

/--
**A statement is read.** One case for each form. The optional parts, a condition or a count, are
read if they are there and, since the line ends, not taken from what follows if they are not.
-/
theorem Accepts.statement {ts rest : List Token} {s : Statement}
    {K : Statement → List Token → Prop} (hs : StatementOf ts s) (hend : LineEnds rest)
    (h : K s rest) : Accepts statement (ts ++ rest) K := by
  -- the end of a line continues nothing
  have hstop := stops_of_lineEnds hend
  have hcond : rest.head? ≠ some (.keyword .cond) := lineEnds_head?_ne hend (by simp) (by simp)
  have hmul : rest.head? ≠ some (.binary .mul) := lineEnds_head?_ne hend (by simp) (by simp)
  cases hs with
  | label name => exact .bind (.peek (.bind (.next (.bind (.identifier (.pure h))))))
  | goto hd =>
      refine .bind (.peek (.bind (.next (.bind (.destination hd (.bind ?_))))))
      exact .accept_other hcond (.pure h)
  | gotoIf hd hc =>
      refine .bind (.peek (.bind (.next (.bind (.destination hd (.bind ?_))))))
      exact .accept_self (.bind (.condition hc hstop (.pure h)))
  | pass =>
      exact .bind (.peek (.bind (.next (.bind (.accept_other hmul (.pure h))))))
  | passTimes n =>
      exact .bind (.peek (.bind (.next (.bind (.accept_self (.bind (.literal (.pure h))))))))
  | align hn =>
      refine .bind (.peek (.bind (.next (.bind (.literal ?_)))))
      rcases hn with rfl | rfl
      · exact .pure h
      · exact .pure h
  | syscall name ha => exact .bind (.peek (.syscall ha hend h))
  | setSp hv =>
      exact .bind (.peek (.bind (.next (.bind (.next (.bind (.value hv hstop (.pure h))))))))
  | updateSp op hv =>
      exact .bind (.peek (.bind (.next (.bind (.next (.bind (.combined hv hstop (.pure h))))))))
  | syscallTo name hp ha =>
      simp only [List.append_assoc, List.cons_append]
      refine .statement_of_store hp (.bind (.place hp (.bind (.next ?_))))
      exact .bind (.peek (.syscall ha hend h))
  | select hp hc hy hn =>
      -- the attempt at a choice succeeds
      simp only [List.append_assoc, List.cons_append]
      refine .statement_of_store hp (.bind (.place hp (.bind (.next ?_))))
      refine .assigned_of_chosen (by simp) (by simp) ?_
      refine .bind (.attempt_some (.bind (.expect (.bind ?_))))
      refine .condition hc trivial (.bind (.expect (.bind (.expect (.pure (.bind ?_))))))
      exact .value hy trivial (.bind (.expect (.bind (.value hn hstop (.pure h)))))
  | assignIf hp hv hc =>
      -- the attempt at a choice fails on a value
      simp only [List.append_assoc, List.cons_append]
      refine .statement_of_store hp (.bind (.place hp (.bind (.next ?_))))
      refine .assigned_of_chosen (derives_head?_ne_syscall hv.derives)
        (derives_append_ne_nil hv.derives) ?_
      refine .chosen_value hv trivial (.bind (.accept_self ?_))
      exact .bind (.condition hc hstop (.pure h))
  | assign hp hv =>
      simp only [List.append_assoc, List.cons_append]
      refine .statement_of_store hp (.bind (.place hp (.bind (.next ?_))))
      refine .assigned_of_chosen (derives_head?_ne_syscall hv.derives)
        (derives_append_ne_nil hv.derives) ?_
      exact .chosen_value hv hstop (.bind (.accept_other hcond (.pure h)))
  | update op hp hv =>
      simp only [List.append_assoc, List.cons_append]
      refine .statement_of_store hp (.bind (.place hp (.bind (.next ?_))))
      exact .bind (.combined hv hstop (.pure h))

end Parser

end Quadword
