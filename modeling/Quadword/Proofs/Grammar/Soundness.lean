import Quadword.Program.Parser
import Quadword.Proofs.Grammar.Basic
import Quadword.Proofs.Grammar.Reading

/-!
# What is read has a derivation

Every parser reads only what its grammar derives: where it succeeds, the tokens between its start
and its end derive the tree that it returns. The statements have the form `Reads p G`, and each
proof follows the text of its parser through the rules of `Ensures`.

The bounds on nesting and repetition that the parsers carry play no part in this direction, so the
inductions are on those bounds and nothing is said about how large they are.
-/

namespace Quadword

open Grammar

namespace Parser

variable {α : Type}

/-- The tokens that the parser takes off the front derive what it returns. -/
def Reads (p : Parser α) (G : List Token → α → Prop) : Prop :=
  ∀ vs, Ensures p vs fun a us => ∃ ts, vs = ts ++ us ∧ G ts a

/-! ## References -/

/--
An offset that was read is a literal within the largest offset; any other number is refused, and a
refusal ensures everything.
-/
theorem Ensures.offset {vs : List Token} {K : Word → List Token → Prop}
    (h : ∀ n us, vs = .number n :: us → n.toNat ≤ Slot.maxOffset → K n us) :
    Ensures offset vs K := by
  unfold Parser.offset
  refine .bind (.literal fun n us hvs => ?_)
  split
  · next hn => exact .pure (h n us hvs hn)
  · exact .fail

/-- A base that was read is one of three words, and the word names the space that is returned. -/
theorem Ensures.space {vs : List Token} {K : Space → List Token → Prop}
    (h : ∀ k space us, vs = .keyword k :: us → SpaceWord k space → K space us) :
    Ensures space vs K := by
  unfold Parser.space
  refine .bind ?_
  cases vs with
  | nil => exact .next_nil
  | cons v vs =>
      refine .next ?_
      -- the three words, and every other token
      split
      · exact .pure (h _ _ vs rfl .sp)
      · exact .pure (h _ _ vs rfl .data)
      · exact .pure (h _ _ vs rfl .const)
      · exact .fail

/--
The offset of a reference is left out and counts as zero, or stands behind a plus sign and is within
bounds.
-/
theorem Ensures.optionalOffset {vs : List Token} {K : Word → List Token → Prop}
    (hnone : K 0 vs)
    (hsome : ∀ n us, vs = .binary .add :: .number n :: us → n.toNat ≤ Slot.maxOffset → K n us) :
    Ensures optionalOffset vs K := by
  unfold Parser.optionalOffset
  refine .bind (.accept (fun us hvs => ?_) fun _ => ?_)
  · rw [if_pos rfl]
    exact .offset fun n us' hus hn => hsome n us' (by rw [hvs, hus]) hn
  · rw [if_neg (by simp)]
    exact .pure hnone

/-- The table of letters holds nothing but the letters of the grammar. -/
theorem spaceLetter_of_ofLetter? {name : String} {space : Space}
    (h : Space.ofLetter? name = some space) : SpaceLetter name space := by
  unfold Space.ofLetter? at h
  split at h
  · next hname => cases h; subst hname; exact .s
  · split at h
    · next hname => cases h; subst hname; exact .d
    · split at h
      · next hname => cases h; subst hname; exact .c
      · cases h

/-- The table of widths holds nothing but the four names of the grammar. -/
theorem widthName_of_ofName? {name : String} {width : Width}
    (h : Width.ofName? name = some width) : WidthName name width := by
  unfold Width.ofName? at h
  split at h
  · next hname => cases h; subst hname; exact .m8
  · split at h
    · next hname => cases h; subst hname; exact .m16
    · split at h
      · next hname => cases h; subst hname; exact .m32
      · split at h
        · next hname => cases h; subst hname; exact .m64
        · cases h

/-- A slot that was read is spelled in one of the three ways that the grammar has. -/
theorem slot_reads : Reads slot SlotOf := by
  intro vs
  unfold Parser.slot
  refine .bind ?_
  cases vs with
  | nil => exact .next_nil
  | cons v vs =>
      refine .next ?_
      split
      · -- `[base` and then either `]` or `+offset]`
        refine .bind (.space fun k space us hvs hword => ?_)
        refine .bind (.optionalOffset ?_ fun n us' hus hn => ?_)
        · refine .bind (.expect fun us' hus => .pure ?_)
          exact ⟨_, by rw [hvs, hus]; rfl, .bare hword⟩
        · refine .bind (.expect fun us'' hus' => .pure ?_)
          exact ⟨_, by rw [hvs, hus, hus']; rfl, .offset hword hn⟩
      · -- a letter and the offset in brackets
        split
        · next name space hletter =>
            refine .bind (.expect fun us hvs => ?_)
            refine .bind (.offset fun n us' hus hn => ?_)
            refine .bind (.expect fun us'' hus' => .pure ?_)
            exact ⟨_, by rw [hvs, hus, hus']; rfl, .letter (spaceLetter_of_ofLetter? hletter) hn⟩
        · exact .fail
      · exact .fail

/-! ## Expressions -/

/--
The test for atoms, which the parser runs on an address, is right: what passes it computes nothing
and goes through no address.
-/
theorem atom_of_isAtom {e : Expr} (h : e.isAtom = true) : Atom e := by
  cases e with
  | number value wide => exact .number value wide
  | sp => exact .sp
  | base r => exact .base r
  | slot s => exact .slot s
  | indirect width address => cases h
  | binary op left right => cases h
  | unary op operand => cases h

/--
What the role of an argument admits is an atom or an indirect access. The parser decides this on the
tree and not on the tokens, so parentheses around an argument make no difference.
-/
theorem argument_of_admits {e : Expr} (h : Role.argument.admits e = true) : Argument e := by
  simp only [Role.admits, Bool.or_eq_true] at h
  rcases h with h | h
  · exact .atom (atom_of_isAtom h)
  · cases e with
    | indirect width address => exact .indirect width address
    | _ => simp [Expr.isIndirect] at h

/--
Reading in a role: the shape is checked after the expression is read, so what succeeds has the
shape, and the rest of a proof may use it.
-/
theorem Ensures.constrain {role : Role} {p : Parser (Located Expr)} {vs : List Token}
    {K : Expr → List Token → Prop}
    (h : Ensures p vs fun e us => role.admits e.value = true → K e.value us) :
    Ensures (constrain role p) vs K := by
  unfold Parser.constrain
  refine .bind (h.mono fun e us hK => ?_)
  split
  · next hrole => exact .pure (hK hrole)
  · exact .throw

/-- A parser of expressions reads a layer of their grammar. -/
abbrev ReadsLayer (p : Parser Expr) (layer : Layer) : Prop := Reads p (Derives layer)

/-- A parser of expressions with positions reads whole expressions. -/
abbrev ReadsExpr (p : Parser (Located Expr)) : Prop := Reads p fun ts e => Derives .expr ts e.value

/-- From the name of an access on: the name, and an address in brackets that is an atom. -/
theorem Ensures.indirect {nested : Parser (Located Expr)} {t : Token} {vs : List Token}
    {K : Expr → List Token → Prop} (hn : ReadsExpr nested)
    (h : ∀ ts us address, vs = .openSquare :: (ts ++ .closeSquare :: us) →
      Derives .expr ts address → Atom address → K address us) :
    Ensures (indirect nested) (t :: vs) K := by
  unfold Parser.indirect
  refine .bind (.next (.bind (.expect fun us hvs => ?_)))
  refine .bind (.constrain ((hn us).mono ?_))
  rintro e us' ⟨ts, hus, he⟩ hrole
  refine .bind (.expect fun us'' hus' => .pure ?_)
  exact h ts us'' e.value (by rw [hvs, hus, hus']) he (atom_of_isAtom hrole)

/--
The innermost layer: one case for each token that can start an operand. Brackets and parentheses go
on with `nested`, and what is assumed of that gives the derivation inside of them.
-/
theorem primary_reads {nested : Parser (Located Expr)} (hn : ReadsExpr nested) :
    ReadsLayer (primary nested) .primary := by
  intro vs
  unfold Parser.primary
  refine .bind ?_
  cases vs with
  | nil => exact .peek_nil
  | cons v vs =>
      refine .peek ?_
      cases v with
      -- the mark behind a number is optional, and the derivation says whether it was there
      | number n =>
          refine .bind (.next (.bind (.accept (fun us hvs => .pure ?_) fun _ => .pure ?_)))
          · exact ⟨[.number n, .wide], by rw [hvs]; rfl, .wide n⟩
          · exact ⟨[.number n], rfl, .number n⟩
      | keyword k =>
          cases k with
          | sp => exact .bind (.next (.pure ⟨_, rfl, .sp⟩))
          | data => exact .bind (.next (.pure ⟨_, rfl, .data⟩))
          | const => exact .bind (.next (.pure ⟨_, rfl, .const⟩))
          | _ => exact .bind (.next .fail)
      | openParen =>
          refine .bind (.next (.bind ((hn vs).mono ?_)))
          rintro e us ⟨ts, hvs, he⟩
          refine .bind (.expect fun us' hus => .pure ?_)
          exact ⟨_, by rw [hvs, hus]; simp, .paren he⟩
      | openSquare =>
          refine .bind ((slot_reads _).mono ?_)
          rintro s us ⟨ts, hvs, hs⟩
          exact .pure ⟨ts, hvs, .slot hs⟩
      | id name =>
          dsimp only
          -- a name that is no width can only be a letter of a space, which `slot` decides
          split
          · next width hwidth =>
              refine .bind (.indirect hn fun ts us address hvs he hatom => .pure ?_)
              exact ⟨_, by rw [hvs]; simp, .indirect (widthName_of_ofName? hwidth) he hatom⟩
          · refine .bind ((slot_reads _).mono ?_)
            rintro s us ⟨ts, hvs, hs⟩
            exact .pure ⟨ts, hvs, .slot hs⟩
      | _ => exact .bind (.next .fail)

/--
The loop over operators extends the expression that it starts from. All of them group to the left,
so what has been read becomes the left operand of the next one.
-/
theorem operations_ensures {operand : Parser Expr} (ho : ReadsLayer operand .unary) (bound : Nat) :
    ∀ {ls : List Token} {left : Expr} (vs : List Token), Derives .expr ls left →
      Ensures (operations operand bound left) vs
        fun e us => ∃ ts, vs = ts ++ us ∧ Derives .expr (ls ++ ts) e := by
  -- `left` changes from round to round, so it is part of what the induction is about
  induction bound with
  | zero => intro ls left vs _; exact .fail
  | succ bound ih =>
      intro ls left vs hleft
      unfold Parser.operations
      refine .bind ?_
      cases vs with
      | nil => exact .peek_nil
      | cons v vs =>
          refine .peek ?_
          -- an operator starts another round with a longer left side; anything else ends the run
          split
          · next op =>
              refine .bind (.next (.bind ((ho vs).mono ?_)))
              rintro right us ⟨rs, hvs, hr⟩
              refine (ih us (.binary op hleft hr)).mono ?_
              rintro e us' ⟨ts, hus, he⟩
              exact ⟨.binary op :: (rs ++ ts), by rw [hvs, hus]; simp, by simpa using he⟩
          · exact .pure ⟨[], rfl, by simpa using hleft⟩

/--
A run of operands derives an expression: the first operand alone does, and the loop over operators
extends it.
-/
theorem chain_reads {operand : Parser Expr} (ho : ReadsLayer operand .unary) (bound : Nat) :
    ReadsExpr (chain operand bound) := by
  intro vs
  unfold Parser.chain
  refine .spanned (.bind ((ho vs).mono ?_))
  rintro first us ⟨ls, hvs, hf⟩
  refine (operations_ensures ho bound us (.single hf)).mono ?_
  rintro e us' ⟨ts, hus, he⟩ span
  exact ⟨ls ++ ts, by rw [hvs, hus]; simp, he⟩

/--
The layer of the unary operators, for every bound on the nesting. By induction on that bound: a sign
goes on with one level less, and so does everything inside brackets and parentheses.
-/
theorem unary_reads (depth : Nat) : ReadsLayer (unary depth) .unary := by
  induction depth with
  | zero => intro vs; exact .fail
  | succ depth ih =>
      intro vs
      unfold Parser.unary
      refine .bind ?_
      cases vs with
      | nil => exact .peek_nil
      | cons v vs =>
          refine .peek ?_
          -- a minus sign, a tilde, or neither
          split
          · refine .bind (.next (.bind ((ih vs).mono ?_)))
            rintro e us ⟨ts, hvs, he⟩
            exact .pure ⟨_, by rw [hvs]; simp, .neg he⟩
          · refine .bind (.next (.bind ((ih vs).mono ?_)))
            rintro e us ⟨ts, hvs, he⟩
            exact .pure ⟨_, by rw [hvs]; simp, .not he⟩
          · -- nested expressions have a level less, so they are read by induction
            refine (primary_reads (chain_reads ih depth) _).mono ?_
            rintro e us ⟨ts, hvs, he⟩
            exact ⟨ts, hvs, .plain he⟩

/--
A whole expression. The bound it is read with is the number of tokens that are left, which does not
matter for what is read.
-/
theorem expression_reads : ReadsExpr expression := by
  intro vs
  unfold Parser.expression
  exact .bind (.remaining (chain_reads (unary_reads vs.length) vs.length vs))

/-- An expression in a role has the shape that the role allows. -/
theorem operand_reads (role : Role) :
    Reads (operand role) fun ts e => Derives .expr ts e ∧ role.admits e = true := by
  intro vs
  unfold Parser.operand
  refine .constrain ((expression_reads vs).mono ?_)
  rintro e us ⟨ts, hvs, he⟩ hrole
  exact ⟨ts, hvs, he, hrole⟩

theorem value_reads : Reads (operand .value) ValueOf := fun vs =>
  (operand_reads .value vs).mono fun _ _ ⟨ts, hvs, he, hrole⟩ =>
    ⟨ts, hvs, he, by simpa [Role.admits] using hrole⟩

theorem combined_reads : Reads (operand .operand) OperandOf := fun vs =>
  (operand_reads .operand vs).mono fun _ _ ⟨ts, hvs, he, hrole⟩ =>
    ⟨ts, hvs, he, by simpa [Role.admits] using hrole⟩

theorem compared_reads : Reads (operand .condition) OperandOf := fun vs =>
  (operand_reads .condition vs).mono fun _ _ ⟨ts, hvs, he, hrole⟩ =>
    ⟨ts, hvs, he, by simpa [Role.admits] using hrole⟩

/-! ## Statements -/

/--
A condition is two operands around a comparison sign; whatever else follows the first operand is an
error.
-/
theorem condition_reads : Reads condition ConditionOf := by
  intro vs
  unfold Parser.condition
  refine .bind ((compared_reads vs).mono ?_)
  rintro left us ⟨ls, hvs, hl⟩
  refine .bind ?_
  -- behind the first operand a comparison must follow
  cases us with
  | nil => exact .next_nil
  | cons t us =>
      refine .next ?_
      cases t with
      | compare c =>
          refine .bind ((compared_reads us).mono ?_)
          rintro right us' ⟨rs, hus, hr⟩
          exact .pure ⟨_, by rw [hvs, hus]; simp, .compare c hl hr⟩
      | _ => exact .fail

/-- A slot that is written to is not in the constant region: the parser throws on those. -/
theorem writableSlot_reads : Reads writableSlot PlaceOf := by
  intro vs
  unfold Parser.writableSlot
  refine .bind (.spanned ((slot_reads vs).mono ?_))
  rintro s us ⟨ts, hvs, hs⟩ span
  show Ensures (if s.space = .region .const then _ else _) _ _
  -- the constant region is read-only
  split
  · exact .throw
  · next hspace => exact .pure ⟨ts, hvs, .slot hs hspace⟩

/--
A place to write to is an access by a width, if the name is that of one, and otherwise a slot.
-/
theorem place_reads : Reads place PlaceOf := by
  intro vs
  unfold Parser.place
  refine .bind ?_
  cases vs with
  | nil => exact .peek_nil
  | cons v vs =>
      refine .peek ?_
      cases v with
      | id name =>
          dsimp only
          -- the name of a width, or else the letter of a space
          split
          · next width hwidth =>
              refine .bind (.indirect expression_reads fun ts us address hvs he hatom => .pure ?_)
              exact ⟨_, by rw [hvs]; simp, .indirect (widthName_of_ofName? hwidth) he hatom⟩
          · exact writableSlot_reads _
      | _ => exact writableSlot_reads _

/-- The destination of a jump is one token, a name or the word for the end. -/
theorem Ensures.destination {vs : List Token} {K : Destination → List Token → Prop}
    (h : ∀ t d us, vs = t :: us → DestinationOf t d → K d us) : Ensures destination vs K := by
  unfold Parser.destination
  refine .bind ?_
  cases vs with
  | nil => exact .next_nil
  | cons v vs =>
      refine .next ?_
      split
      · exact .pure (h _ _ vs rfl .finish)
      · next name => exact .pure (h _ _ vs rfl (.label name))
      · exact .fail

/-- Arguments, for any bound on their number: each is read in its role, behind a comma. -/
theorem arguments_reads (bound : Nat) : Reads (arguments bound) ArgumentsOf := by
  induction bound with
  | zero => intro vs; exact .pure ⟨[], rfl, .nil⟩
  | succ bound ih =>
      intro vs
      unfold Parser.arguments
      -- a comma starts another argument, and without one the list ends
      refine .bind (.accept (fun us hvs => ?_) fun _ => ?_)
      · rw [if_pos rfl]
        refine .bind ((operand_reads .argument us).mono ?_)
        rintro a us' ⟨ts, hus, ha, hrole⟩
        refine .bind ((ih us').mono ?_)
        rintro as ws ⟨ts', hus', has⟩
        exact .pure ⟨_, by rw [hvs, hus, hus']; simp, .cons ha (argument_of_admits hrole) has⟩
      · rw [if_neg (by simp)]
        exact .pure ⟨[], rfl, .nil⟩

/-- From the keyword of a call on: the name of the procedure and the arguments. -/
theorem Ensures.syscall {output : Option Place} {t : Token} {vs : List Token}
    {K : Statement → List Token → Prop}
    (h : ∀ name ts us as, vs = .id name :: (ts ++ us) → ArgumentsOf ts as →
      K (.syscall name as output) us) :
    Ensures (syscall output) (t :: vs) K := by
  unfold Parser.syscall
  refine .bind (.next (.bind (.identifier fun name us hvs => ?_)))
  refine .bind (.remaining (.bind ((arguments_reads us.length us).mono ?_)))
  rintro as us' ⟨ts, hus, has⟩
  exact .pure (h name ts us' as (by rw [hvs, hus]) has)

/--
What opens a choice is a condition in parentheses and a question mark. The shape of the tokens is
part of the statement, because the choice puts them behind the sign of the assignment.
-/
theorem selector_reads :
    Reads selector fun ts c => ∃ cs, ts = .openParen :: (cs ++ [.closeParen, .question]) ∧
      ConditionOf cs c := by
  intro vs
  unfold Parser.selector
  refine .bind (.expect fun us hvs => .bind ((condition_reads us).mono ?_))
  rintro c us' ⟨cs, hus, hc⟩
  refine .bind (.expect fun ws hws => .bind (.expect fun ws' hws' => .pure ?_))
  exact ⟨_, by rw [hvs, hus, hws, hws']; simp, cs, rfl, hc⟩

/--
What follows `place =` completes a choice or an assignment to a statement. A choice is tried first,
and an assignment is what is left when that has been given up.
-/
theorem chosen_reads {ps : List Token} {target : Place} (hp : PlaceOf ps target) :
    Reads (chosen target) fun ts s => StatementOf (ps ++ .assign :: ts) s := by
  intro vs
  unfold Parser.chosen
  refine .bind (.attempt ((selector_reads vs).mono ?_) fun _ => ?_)
  · -- a choice
    rintro c us ⟨ts, hvs, cs, rfl, hc⟩
    refine .bind ((value_reads us).mono ?_)
    rintro yes us' ⟨ys, hus, hy⟩
    refine .bind (.expect fun ws hws => .bind ((value_reads ws).mono ?_))
    rintro no ws' ⟨ns, hws', hn⟩
    exact .pure ⟨_, by rw [hvs, hus, hws, hws']; simp, .select hp hc hy hn⟩
  · -- a value, and a condition after it or not
    refine .bind ((value_reads vs).mono ?_)
    rintro e us ⟨ts, hvs, he⟩
    refine .bind (.accept (fun us' hus => ?_) fun _ => ?_)
    · rw [if_pos rfl]
      refine .bind ((condition_reads us').mono ?_)
      rintro c ws ⟨cs, hws, hc⟩
      exact .pure ⟨_, by rw [hvs, hus, hws]; simp, .assignIf hp he hc⟩
    · rw [if_neg (by simp)]
      exact .pure ⟨ts, hvs, .assign hp he⟩

/-- What follows `place =` is a call, which is told by its keyword, or one of the forms above. -/
theorem assigned_reads {ps : List Token} {target : Place} (hp : PlaceOf ps target) :
    Reads (assigned target) fun ts s => StatementOf (ps ++ .assign :: ts) s := by
  intro vs
  unfold Parser.assigned
  refine .bind ?_
  cases vs with
  | nil => exact .peek_nil
  | cons v vs =>
      refine .peek ?_
      cases v with
      | keyword k =>
          -- only the word for calls leads away from an ordinary value
          cases k with
          | syscall =>
              refine .syscall fun name ts us as hvs has => ?_
              exact ⟨_, by rw [hvs]; simp, .syscallTo name hp has⟩
          | _ => exact chosen_reads hp _
      | _ => exact chosen_reads hp _

/--
A statement that stores starts with its target; the sign behind that tells which of the five forms
it is.
-/
theorem store_reads : Reads store StatementOf := by
  intro vs
  unfold Parser.store
  refine .bind ((place_reads vs).mono ?_)
  rintro target us ⟨ps, hvs, hp⟩
  refine .bind ?_
  cases us with
  | nil => exact .next_nil
  | cons t us =>
      refine .next ?_
      -- the token behind the target: a combining assignment, an assignment, or an error
      cases t with
      | compound op =>
          refine .bind ((combined_reads us).mono ?_)
          rintro e us' ⟨ts, hus, he⟩
          exact .pure ⟨_, by rw [hvs, hus]; simp, .update op hp he⟩
      | assign =>
          refine (assigned_reads hp us).mono ?_
          rintro s us' ⟨ts, hus, hs⟩
          exact ⟨_, by rw [hvs, hus]; simp, hs⟩
      | _ => exact .fail

/--
From the keyword on, a change of the stack pointer is an assignment or a combining assignment.
-/
theorem setSp_reads {vs : List Token} :
    Ensures setSp (.keyword .sp :: vs)
      fun s us => ∃ ts, .keyword .sp :: vs = ts ++ us ∧ StatementOf ts s := by
  unfold Parser.setSp
  refine .bind (.next (.bind ?_))
  cases vs with
  | nil => exact .next_nil
  | cons v vs =>
      refine .next ?_
      -- the second token tells whether the stack pointer is set or updated
      cases v with
      | assign =>
          refine .bind ((value_reads vs).mono ?_)
          rintro e us ⟨ts, hvs, he⟩
          exact .pure ⟨_, by rw [hvs]; simp, .setSp he⟩
      | compound op =>
          refine .bind ((combined_reads vs).mono ?_)
          rintro e us ⟨ts, hvs, he⟩
          exact .pure ⟨_, by rw [hvs]; simp, .updateSp op he⟩
      | _ => exact .fail

/-- From the keyword on, a jump has a destination and possibly a condition. -/
theorem goto_reads {vs : List Token} :
    Ensures goto (.keyword .goto :: vs)
      fun s us => ∃ ts, .keyword .goto :: vs = ts ++ us ∧ StatementOf ts s := by
  unfold Parser.goto
  refine .bind (.next (.bind (.destination fun t d us hvs hd => ?_)))
  refine .bind (.accept (fun us' hus => ?_) fun _ => ?_)
  · rw [if_pos rfl]
    refine .bind ((condition_reads us').mono ?_)
    rintro c ws ⟨cs, hws, hc⟩
    exact .pure ⟨_, by rw [hvs, hus, hws]; simp, .gotoIf hd hc⟩
  · rw [if_neg (by simp)]
    exact .pure ⟨_, by rw [hvs]; rfl, .goto hd⟩

/-- From the keyword on, a `pass` stands alone or is followed by a star and a count. -/
theorem pass_reads {vs : List Token} :
    Ensures pass (.keyword .pass :: vs)
      fun s us => ∃ ts, .keyword .pass :: vs = ts ++ us ∧ StatementOf ts s := by
  unfold Parser.pass
  refine .bind (.next (.bind (.accept (fun us hvs => ?_) fun _ => ?_)))
  · rw [if_pos rfl]
    exact .bind (.literal fun n us' hus => .pure ⟨_, by rw [hvs, hus]; rfl, .passTimes n⟩)
  · rw [if_neg (by simp)]
    exact .pure ⟨_, rfl, .pass⟩

/--
From the keyword on, an alignment has the boundary 8 or 16, and no other number is let through.
-/
theorem align_reads {vs : List Token} :
    Ensures align (.keyword .align :: vs)
      fun s us => ∃ ts, .keyword .align :: vs = ts ++ us ∧ StatementOf ts s := by
  unfold Parser.align
  refine .bind (.next (.bind (.literal fun n us hvs => ?_)))
  -- 8, then 16, then every other number
  split
  · next hn => exact .pure ⟨_, by rw [hvs, hn]; rfl, .align (.inl rfl)⟩
  · split
    · next hn => exact .pure ⟨_, by rw [hvs, hn]; rfl, .align (.inr rfl)⟩
    · exact .fail

/--
**What a statement is read from derives it.** The first token tells the kind; each kind has been
dealt with above.
-/
theorem statement_reads : Reads statement StatementOf := by
  intro vs
  unfold Parser.statement
  refine .bind ?_
  cases vs with
  | nil => exact .peek_nil
  | cons v vs =>
      refine .peek ?_
      -- the first token tells the kind of statement
      cases v with
      | hash =>
          refine .bind (.next (.bind (.identifier fun name us hvs => .pure ?_)))
          exact ⟨_, by rw [hvs]; rfl, .label name⟩
      | keyword k =>
          cases k with
          | goto => exact goto_reads
          | pass => exact pass_reads
          | align => exact align_reads
          | syscall =>
              refine .syscall fun name ts us as hvs has => ?_
              exact ⟨_, by rw [hvs]; simp, .syscall name has⟩
          | sp => exact setSp_reads
          | _ => exact .bind (.next .fail)
      | openSquare => exact store_reads _
      | id name => exact store_reads _
      | _ => exact .bind (.next .fail)

end Parser

end Quadword
