import Quadword.Proofs.Grammar.Settled

/-!
# What a line settles

Statements follow the rules of `Settles` one after the other, apart from two places.

* The arguments of a call are bounded by the number of tokens, and a run that comes to this bound
  stops without failing. So the bound has to be shown to be irrelevant (**`argumentList_eq`**).
* After `place =` a choice is tried first, and given up if it fails (**`chosen_settles`**).

A line at the start of a program may also store to a slot that no statement can store to. So a
statement is compared with lines in which the target of a store is any slot (**`line`**), and both
what is a statement and what is an initial value is such a line (**`Accepts.line`**).
-/

namespace Quadword

open Grammar

namespace Parser

/-! ## Statements -/

section Statements

variable {X : Excuse} {c : Cursor}

/--
A condition is two operands and a comparison sign; another token in place of the sign is blamed in
every run.
-/
theorem condition_settles : SettlesSelf condition X c := by
  unfold Parser.condition
  refine (operand_settles _).andThen fun left c₁ us₁ _ _ => .next fun t ts _ => ?_
  cases t.value with
  | compare comparison =>
      exact .inr ((operand_settles _).andThen fun right c₂ us₂ _ _ => .pure fun _ => rfl)
  | _ => exact .inl ⟨⟨_, rfl⟩, fun _ _ => .fail⟩

theorem label_settles : SettlesSelf label X c := by
  unfold Parser.label
  refine .next fun t ts _ => .inr ?_
  exact identifier_settles.andThen fun name c₁ us₁ _ _ => .pure fun _ => rfl

/-- The destination of a jump is one token. -/
theorem destination_settles : SettlesSelf destination X c := by
  unfold Parser.destination
  refine .next fun t ts _ => ?_
  cases t.value with
  | keyword k =>
      cases k with
      | finish => exact .inr (.pure fun _ => rfl)
      | _ => exact .inl ⟨⟨_, rfl⟩, fun _ _ => .fail⟩
  | id name => exact .inr (.pure fun _ => rfl)
  | _ => exact .inl ⟨⟨_, rfl⟩, fun _ _ => .fail⟩

/-- A jump, with its condition or without one: the next token decides. -/
theorem goto_settles : SettlesSelf goto X c := by
  unfold Parser.goto
  refine .next fun t ts _ => .inr (destination_settles.andThen fun target c₁ us₁ _ _ => ?_)
  refine .accept (fun _ _ _ => ?_) (.pure fun _ => rfl)
  exact condition_settles.andThen fun condition c₂ us₂ _ _ => .pure fun _ => rfl

theorem pass_settles : SettlesSelf pass X c := by
  unfold Parser.pass
  refine .next fun t ts _ => .inr (.accept (fun _ _ _ => ?_) (.pure fun _ => rfl))
  exact literal_settles.andThen fun count c₁ us₁ _ _ => .pure fun _ => rfl

/--
An alignment. A boundary other than 8 and 16 is refused by its value, without a token to blame.
-/
theorem align_settles : SettlesSelf align X c := by
  unfold Parser.align
  refine .next fun t ts _ => .inr (literal_settles.andThen fun n c₁ us₁ _ _ => ?_)
  -- the two boundaries that are let through, and any other
  by_cases h8 : n = 8
  · simp only [if_pos h8]
    exact .pure fun _ => rfl
  · by_cases h16 : n = 16
    · simp only [if_neg h8, if_pos h16]
      exact .pure fun _ => rfl
    · simp only [if_neg h8, if_neg h16]
      exact .fail (by simp)

/-- A change of the stack pointer: the sign behind the keyword decides how it goes on. -/
theorem setSp_settles : SettlesSelf setSp X c := by
  unfold Parser.setSp
  refine .next fun t ts _ => .inr (.next fun u us _ => ?_)
  cases u.value with
  | assign => exact .inr ((operand_settles _).andThen fun e c₁ us₁ _ _ => .pure fun _ => rfl)
  | compound op => exact .inr ((operand_settles _).andThen fun e c₁ us₁ _ _ => .pure fun _ => rfl)
  | _ => exact .inl ⟨⟨_, rfl⟩, fun _ _ => .fail⟩

/-! ### Calls -/

/-- Reads the arguments of a call, as many as there are. -/
def argumentList : Parser (List Expr) := remaining >>= arguments

/-- Two computations that begin alike are equal if they go on alike after a success. -/
theorem bind_congr_ok {α β : Type} {p : Parser α} {f g : α → Parser β}
    (h : ∀ a c', p c = .ok (a, c') → f a c' = g a c') : (p >>= f) c = (p >>= g) c := by
  rw [bind_apply, bind_apply]
  cases hp : p c with
  | error e => rfl
  | ok r => exact h r.1 r.2 hp

/-- An optional token that was read is one token less. -/
theorem accept_length {t : Token} {c' : Cursor} (h : accept t c = .ok (true, c')) :
    c.tokens.length = c'.tokens.length + 1 := by
  unfold Parser.accept at h
  cases htok : c.tokens with
  | nil => rw [htok] at h; cases h
  | cons u us =>
      rw [htok] at h
      dsimp only at h
      split at h
      · cases h
        rfl
      · cases h

/--
An operand takes no tokens back. Settling it says more than that, but this is what the bounds need.
-/
theorem operand_length {role : Role} {e : Expr} {c' : Cursor} (h : operand role c = .ok (e, c')) :
    c'.tokens.length ≤ c.tokens.length := by
  have hdrops : Drops (operand role) := Settles.drops (ι := Unit) fun _ => operand_settles role
  obtain ⟨us, hus⟩ := hdrops c e c' h
  rw [hus, List.length_append]
  omega

/-- Without tokens there are no arguments, whatever the bound is. -/
theorem arguments_nil (bound : Nat) (htok : c.tokens = []) : arguments bound c = .ok ([], c) := by
  cases bound with
  | zero => rfl
  | succ bound =>
      have hno : accept .comma c = .ok (false, c) := accept_other (by simp [Cursor.values, htok])
      rw [arguments, bind_ok hno]
      rfl

/-- A bound on the number of arguments makes no difference if there are not that many tokens. -/
theorem arguments_congr (bound : Nat) :
    ∀ (bound' : Nat) (c : Cursor), c.tokens.length ≤ bound → c.tokens.length ≤ bound' →
      arguments bound c = arguments bound' c := by
  induction bound with
  | zero =>
      intro bound' c hlen _
      have htok : c.tokens = [] := List.length_eq_zero_iff.mp (by omega)
      rw [arguments_nil _ htok, arguments_nil _ htok]
  | succ bound ih =>
      intro bound' c hlen hlen'
      cases bound' with
      | zero =>
          have htok : c.tokens = [] := List.length_eq_zero_iff.mp (by omega)
          rw [arguments_nil _ htok, arguments_nil _ htok]
      | succ bound' =>
          rw [arguments, arguments]
          refine bind_congr_ok fun comma c₁ hcomma => ?_
          cases comma with
          | false => rfl
          | true =>
              -- a comma was read, so one is left of both bounds
              have hlen₁ := accept_length hcomma
              refine bind_congr_ok fun a c₂ ha => ?_
              have hlen₂ := operand_length ha
              rw [bind_apply, bind_apply, ih bound' c₂ (by omega) (by omega)]

/--
Whatever their number, arguments are read one after the other. The loop has a bound, the number of
tokens, and this is the equation that it would have without.
-/
theorem argumentList_eq :
    argumentList = (do
      if ← accept .comma then
        let a ← operand .argument
        let as ← argumentList
        pure (a :: as)
      else pure []) := by
  funext c
  show arguments c.tokens.length c = _
  rw [arguments_congr _ (c.tokens.length + 1) c (Nat.le_refl _) (by omega), arguments]
  refine bind_congr_ok fun comma c₁ hcomma => ?_
  -- behind a comma, the bound that is left is still enough for what follows
  cases comma with
  | false => rfl
  | true =>
      have hlen₁ := accept_length hcomma
      refine bind_congr_ok fun a c₂ ha => ?_
      have hlen₂ := operand_length ha
      have hlist : arguments c.tokens.length c₂ = argumentList c₂ :=
        arguments_congr _ _ c₂ (by omega) (Nat.le_refl _)
      rw [bind_apply, bind_apply, hlist]

/--
Arguments read one after the other settle each other. By induction on the number of tokens; the
excuse grows along, by the tokens that were read.
-/
theorem argumentList_settles (n : Nat) :
    ∀ (X : Excuse) (c : Cursor), c.tokens.length ≤ n → SettlesSelf argumentList X c := by
  induction n with
  | zero =>
      intro X c hlen
      rw [argumentList_eq]
      refine .accept (fun l ts htok => ?_) (.pure fun _ => rfl)
      rw [htok] at hlen
      -- without tokens there is no comma
      exact absurd hlen (by simp)
  | succ n ih =>
      intro X c hlen
      rw [argumentList_eq]
      refine .accept (fun l ts htok => ?_) (.pure fun _ => rfl)
      rw [htok, List.length_cons] at hlen
      refine (operand_settles _).andThen fun a c₁ us₁ ha _ => ?_
      have hlen₁ : c₁.tokens.length ≤ ts.length := operand_length ha
      exact (ih _ _ (by omega)).andThen fun as c₂ us₂ _ _ => .pure fun _ => rfl

/-- A call settles its arguments, now that they have no bound. -/
theorem syscall_settles {output : Option Place} : SettlesSelf (syscall output) X c := by
  -- the bound on the arguments is read off first; together with them it is `argumentList`
  have heq : syscall output = (do
      let _ ← next
      let name ← identifier
      let as ← argumentList
      pure (.syscall name as output)) := by
    simp only [syscall, argumentList, bind_assoc]
  rw [heq]
  refine .next fun t ts _ => .inr (identifier_settles.andThen fun name c₁ us₁ _ _ => ?_)
  exact (argumentList_settles _ _ _ (Nat.le_refl _)).andThen fun as c₂ us₂ _ _ => .pure fun _ => rfl

/-! ### Choices -/

/-- What opens a choice is read straight through, so it is settled as far as it goes. -/
theorem selector_settles : SettlesSelf selector X c := by
  unfold Parser.selector
  refine (expect_settles _).andThen fun _ c₁ us₁ _ _ => ?_
  refine condition_settles.andThen fun condition c₂ us₂ _ _ => ?_
  refine (expect_settles _).andThen fun _ c₃ us₃ _ _ => ?_
  exact (expect_settles _).andThen fun _ c₄ us₄ _ _ => .pure fun _ => rfl

/-- Reads a value that is not a choice, and the condition after it if there is one. -/
def plainValue (target : Place) : Parser Statement := do
  let value ← operand .value
  if ← accept (.keyword .cond) then
    let c ← condition
    pure (.assignIf target value c)
  else pure (.assign target value)

/-- A value and a condition behind it have no choice to make except on the next token. -/
theorem plainValue_settles {target : Place} : SettlesSelf (plainValue target) X c := by
  unfold plainValue
  refine (operand_settles _).andThen fun value c₁ us₁ _ _ => ?_
  refine .accept (fun _ _ _ => ?_) (.pure fun _ => rfl)
  exact condition_settles.andThen fun condition c₂ us₂ _ _ => .pure fun _ => rfl

/--
What is read as a plain value starts with an expression, with or without a condition behind it. The
operands of a choice do so as well, and by this the two are compared.
-/
theorem plainValue_ensures {target : Place} (vs : List Token) :
    Ensures (plainValue target) vs fun _ ws =>
      ∃ ts rs e, vs = ts ++ rs ++ ws ∧ Derives .expr ts e := by
  unfold plainValue
  refine .bind ((value_reads vs).mono ?_)
  rintro e us ⟨ts, hvs, he⟩
  -- with a condition behind it or without, the value has been read before
  refine .bind (.accept (fun us' hus => ?_) fun _ => ?_)
  · rw [if_pos rfl]
    refine .bind ((condition_reads us').mono ?_)
    rintro cond ws ⟨cs, hws, -⟩
    exact .pure ⟨ts, .keyword .cond :: cs, e, by rw [hvs, hus, hws]; simp, he.derives⟩
  · rw [if_neg (by simp)]
    exact .pure ⟨ts, [], e, by rw [hvs]; simp, he.derives⟩

/-- Where no choice starts, a plain value is read. -/
theorem chosen_ensures_of_rejects {target : Place} {vs : List Token}
    {K : Statement → List Token → Prop} (hrej : Rejects selector vs)
    (h : Ensures (plainValue target) vs K) : Ensures (chosen target) vs K := by
  have hnone : Accepts (attempt selector) vs fun r ws => r = none ∧ ws = vs :=
    .attempt_none hrej ⟨rfl, rfl⟩
  refine .bind (hnone.ensures.mono ?_)
  rintro _ _ ⟨rfl, rfl⟩
  exact h

/-- What a parser reads derives its result, said of a single run and the tokens that it took. -/
theorem Reads.of_tokens {α : Type} {p : Parser α} {G : List Token → α → Prop} {a : α} {c' : Cursor}
    {us : List (Located Token)} (h : Reads p G) (hp : p c = .ok (a, c'))
    (hus : c.tokens = us ++ c'.tokens) : G (us.map Located.value) a := by
  obtain ⟨ts, hts, hG⟩ := h c.values c a c' rfl hp
  rw [Cursor.values, hus, List.map_append] at hts
  rwa [List.append_cancel_right hts]

/-- Where the first operand of an expression fails, so does the expression. -/
theorem operand_error {role : Role} {t : Located Token} {ts : List (Located Token)}
    {err : Located ParseError} (htok : c.tokens = t :: ts)
    (h : unary (ts.length + 1) c = .error err) : operand role c = .error err := by
  have hremaining : remaining c = .ok (ts.length + 1, c) := by
    rw [Parser.remaining, htok]
    rfl
  have hexpr : expression c = .error err := by
    rw [Parser.expression, bind_ok hremaining, Parser.chain]
    rw [spanned_eq, bind_error h]
  rw [Parser.operand, Parser.constrain, bind_error hexpr]

/-- A comparison after `(` and an expression is where a value goes wrong: `)` should be there. -/
theorem value_fails {ls rest : List Token} {left : Expr} {cmp : Comparison}
    (hl : Derives .expr ls left) (hc : c.values = .openParen :: (ls ++ .compare cmp :: rest)) :
    ∃ us l more, c.tokens = us ++ ⟨.compare cmp, l⟩ :: more ∧
      us.map Located.value = .openParen :: ls ∧
      operand .value c = .error ⟨.expected (.token .closeParen) (.compare cmp), l⟩ := by
  obtain ⟨t, ts, htok, ht, hts⟩ := Cursor.tokens_of_values_cons hc
  have hlen : ls.length ≤ ts.length := by
    have hmap := congrArg List.length hts
    rw [List.length_map, List.length_append] at hmap
    omega
  -- the expression is read to its end, which the comparison marks
  have hread : Accepts (chain (unary ts.length) ts.length) (ls ++ .compare cmp :: rest)
      fun _ us => us = .compare cmp :: rest :=
    (derives_readAs hl).chain hlen trivial fun _ => rfl
  obtain ⟨e, c₁, hchain, hc₁⟩ := hread ⟨ts, t.span⟩ hts
  obtain ⟨us, hus⟩ := Settles.drops (chain_settles (unary_settles _) _ _) _ e c₁ hchain
  obtain ⟨u, more, hu, hcmp, -⟩ := Cursor.tokens_of_values_cons hc₁
  refine ⟨t :: us, u.span, more, ?_, ?_, operand_error htok ?_⟩
  · rw [htok, show ts = us ++ c₁.tokens from hus, hu, ← hcmp]
    rfl
  · rw [show ts = us ++ c₁.tokens from hus, List.map_append] at hts
    rw [List.map_cons, ht, List.append_cancel_right (hts.trans (by rw [← hc₁]; rfl))]
  · have hpeek : peek c = .ok (.openParen, c) := by rw [peek_cons htok, ht]
    have hnext : next c = .ok (.openParen, ⟨ts, t.span⟩) := by rw [next_cons htok, ht]
    have hnext₁ : next c₁ = .ok (.compare cmp, ⟨more, u.span⟩) := by rw [next_cons hu, hcmp]
    rw [unary.eq_2, bind_ok hpeek]
    show primary (chain (unary ts.length) ts.length) c = _
    rw [Parser.primary, bind_ok hpeek]
    show (next >>= _) c = _
    rw [bind_ok hnext, bind_ok hchain, Parser.expect, bind_assoc, bind_ok hnext₁]
    rfl

/-- The tokens that a selector accepts start with `(`, an operand and a comparison. -/
theorem selector_of_not_rejects {vs : List Token} (h : ¬ Rejects selector vs) :
    ∃ ls left cmp rest, vs = .openParen :: (ls ++ .compare cmp :: rest) ∧ OperandOf ls left := by
  refine Classical.byContradiction fun hno => h ((selector_reads vs).mono ?_)
  rintro _ us ⟨ts, hvs, cs, rfl, hc⟩
  cases hc with
  | @compare ls rs left _ cmp hl _ => exact hno ⟨ls, left, cmp, _, by rw [hvs]; simp; rfl, hl⟩

/-- An operand in parentheses is a plain value. -/
theorem plainValue_of_openParen {target : Place} {ls : List Token} {left : Expr}
    (hl : OperandOf ls left) :
    Accepts (plainValue target) (.openParen :: ls ++ [.closeParen, .newline]) fun _ _ => True := by
  have hvalue : ValueOf (.openParen :: (ls ++ [.closeParen])) left :=
    ⟨.single (.plain (.paren hl.derives)), by rw [hl.operations]; omega⟩
  have hsplit : .openParen :: ls ++ [.closeParen, .newline]
      = .openParen :: (ls ++ [.closeParen]) ++ [Token.newline] := by simp
  rw [hsplit]
  unfold plainValue
  exact .bind (.value hvalue trivial (.bind (.accept_other (by simp) (.pure trivial))))

/--
No tokens are both accepted and rejected: they can be placed somewhere, and the parser run on them.
-/
theorem Accepts.not_rejects {α : Type} {p : Parser α} {vs : List Token}
    {K : α → List Token → Prop} (h : Accepts p vs K) : ¬ Rejects p vs := by
  intro hrej
  obtain ⟨a, c', hp, -⟩ := h ⟨Program.unplaced vs, .first⟩ (Program.map_value_unplaced vs)
  exact hrej ⟨_, _⟩ a c' (Program.map_value_unplaced vs) hp

/--
A plain value that fails where a choice could go on fails at the comparison of that choice: not
before, because a value can start in the same way, and not behind, because no value goes on there.
-/
theorem plainValue_blames {target : Place} {e : Expectation} {found : Token} {l : Span}
    {us more : List (Located Token)} {ls rest rest' : List Token} {left : Expr} {cmp : Comparison}
    (hp : plainValue target c = .error ⟨.expected e found, l⟩)
    (hus : c.tokens = us ++ ⟨found, l⟩ :: more)
    (hall : ∀ rest, Rejects (plainValue target) (us.map Located.value ++ found :: rest))
    (hl : OperandOf ls left)
    (hvs : us.map Located.value ++ found :: rest = .openParen :: (ls ++ .compare cmp :: rest')) :
    ∃ us' more', c.tokens = us' ++ ⟨found, l⟩ :: more' ∧
      us'.map Located.value = .openParen :: ls ∧ e = .token .closeParen ∧ found = .compare cmp := by
  have hfront : us.map Located.value ++ [found] <+: us.map Located.value ++ found :: rest :=
    ⟨rest, by simp⟩
  -- the token that is blamed stands before the comparison, or at it or behind
  by_cases hlen : us.length ≤ ls.length
  · have hopen : .openParen :: ls <+: us.map Located.value ++ found :: rest :=
      ⟨.compare cmp :: rest', by rw [hvs]; rfl⟩
    obtain ⟨rs, hrs⟩ := List.prefix_of_prefix_length_le hfront hopen (by simp; omega)
    have haccept : Accepts (plainValue target) (.openParen :: ls ++ [.closeParen, .newline])
        fun _ _ => True := plainValue_of_openParen hl
    have hsplit : .openParen :: ls ++ [.closeParen, .newline]
        = us.map Located.value ++ found :: (rs ++ [.closeParen, .newline]) := by
      rw [← hrs]
      simp
    rw [hsplit] at haccept
    -- closing the parenthesis behind the operand makes a value of it, so no token up to there is
    -- final
    exact absurd (hall _) haccept.not_rejects
  · have hcmp : .openParen :: ls ++ [.compare cmp] <+: us.map Located.value ++ found :: rest :=
      ⟨rest', by rw [hvs]; simp⟩
    obtain ⟨rs, hrs⟩ := List.prefix_of_prefix_length_le hcmp hfront (by simp; omega)
    have hvalues : c.values = .openParen :: (ls ++ .compare cmp :: (rs ++ more.map Located.value)) :=
      calc c.values = us.map Located.value ++ [found] ++ more.map Located.value := by
            rw [Cursor.values, hus]
            simp
        _ = _ := by
            rw [← hrs]
            simp
    obtain ⟨us', l', more', hus', hls, hvalue⟩ := value_fails hl.derives hvalues
    rw [plainValue, bind_error hvalue] at hp
    cases hp
    exact ⟨us', more', hus', hls, rfl, rfl⟩

/--
What follows `place =`. The choice that was tried first is given up because of some token, and a
plain value is read from the parenthesis on. This fails before that token only if it fails at the
comparison, for up to there a choice starts as a value in parentheses does.
-/
theorem chosen_settles {target : Place}
    (hX : ∀ ls left cmp, OperandOf ls left →
      X (.token .closeParen) (.openParen :: ls) (.compare cmp)) :
    SettlesSelf (chosen target) X c := by
  -- either the opening of a choice is read, or it is given up and a value is read instead
  cases hsel : selector c with
  | ok r =>
      obtain ⟨cond, c₁⟩ := r
      have hattempt : attempt selector c = .ok (some cond, c₁) := by rw [Parser.attempt, hsel]
      obtain ⟨us, hus⟩ := Settles.drops (fun _ => selector_settles) c cond c₁ hsel
      obtain ⟨cs, hcs, hc⟩ := selector_reads.of_tokens hsel hus
      refine .step us hattempt hus (fun _ tail _ => ?_) ?_
      · -- the tokens of a choice are those of one whatever follows
        rw [hcs]
        simp only [List.cons_append, List.append_assoc, List.nil_append]
        refine .attempt_some (.bind (.expect (.bind (.condition hc trivial ?_))))
        exact .bind (.expect (.bind (.expect (.pure ⟨rfl, rfl⟩))))
      · refine (operand_settles _).andThen fun yes c₂ us₂ _ _ => ?_
        refine (expect_settles _).andThen fun _ c₃ us₃ _ _ => ?_
        exact (operand_settles _).andThen fun no c₄ us₄ _ _ => .pure fun _ => rfl
  | error err =>
      have hplain : chosen target c = plainValue target c := by
        have hattempt : attempt selector c = .ok (none, c) := by rw [Parser.attempt, hsel]
        rw [Parser.chosen, bind_ok hattempt]
        rfl
      refine ⟨fun s c' hp => ?_, fun e found l hp => ?_⟩
      · rw [hplain] at hp
        obtain ⟨us, hus, hq⟩ := plainValue_settles (X := X).agrees s c' hp
        refine ⟨us, hus, fun i tail htail => chosen_ensures_of_rejects ?_ (hq i tail htail)⟩
        obtain ⟨ts, rs, e, hvs, he⟩ := plainValue_ensures c.values c s c' rfl hp
        rw [Cursor.values, hus, List.map_append] at hvs
        rw [List.append_cancel_right hvs, List.append_assoc]
        exact selector_rejects he
      · rw [hplain] at hp
        obtain ⟨us, more, hus, hall | hexcuse⟩ := (plainValue_settles (X := X)).blames e found l hp
        -- either no choice opens there in any run, or some other tokens would have made one
        · by_cases hno : ∀ rest, Rejects selector (us.map Located.value ++ found :: rest)
          · refine ⟨us, more, hus, .inl fun i rest => chosen_ensures_of_rejects (hno rest) ?_⟩
            exact (hall i rest).mono fun _ _ hfalse => hfalse.elim
          · obtain ⟨rest, hrest⟩ := Classical.not_forall.mp hno
            obtain ⟨ls, left, cmp, rest', hvs, hl⟩ := selector_of_not_rejects hrest
            obtain ⟨us', more', hus', hls, rfl, rfl⟩ := plainValue_blames hp hus (hall ()) hl hvs
            -- the excuse: the value failed at the comparison of a choice that was given up
            exact ⟨us', more', hus', .inr (by rw [hls]; exact hX ls left cmp hl)⟩
        · exact ⟨us, more, hus, .inr hexcuse⟩

/--
What is assigned is a call, told by its keyword, or a choice or a value. So it needs the excuse of
those.
-/
theorem assigned_settles {target : Place}
    (hX : ∀ ls left cmp, OperandOf ls left →
      X (.token .closeParen) (.openParen :: ls) (.compare cmp)) :
    SettlesSelf (assigned target) X c := by
  unfold Parser.assigned
  refine .peek fun t ts _ => ?_
  cases t.value with
  | keyword k =>
      cases k with
      | syscall => exact syscall_settles
      | _ => exact chosen_settles hX
  | _ => exact chosen_settles hX

/-! ### Lines -/

/-- Reads any slot, as a place. -/
def anySlot : Parser Place := do
  let s ← spanned slot
  pure (.slot s.value)

/-- Reads a place, in the region that cannot be written too. -/
def anyPlace : Parser Place := do
  match ← peek with
  | .id name =>
    match Width.ofName? name with
    | some width =>
      let address ← indirect expression
      pure (.indirect width address)
    | none => anySlot
  | _ => anySlot

/-- Reads a statement that stores to memory, where `place` reads its target. -/
def storeWith (place : Parser Place) : Parser Statement := do
  let target ← place
  match ← next with
  | .compound op =>
    let value ← operand .operand
    pure (.update target op value)
  | .assign => assigned target
  | found => fail (.expected .assignment found)

/-- Reads a statement, where `store` reads one that stores to memory. -/
def statementWith (store : Parser Statement) : Parser Statement := do
  match ← peek with
  | .hash => label
  | .keyword .goto => goto
  | .keyword .pass => pass
  | .keyword .align => align
  | .keyword .syscall => syscall none
  | .keyword .sp => setSp
  | .openSquare | .id _ => store
  | found =>
    let _ ← next
    fail (.expected .statement found)

/-- Reads a line, which is a statement or an initial value. -/
def line : Parser Statement := statementWith (storeWith anyPlace)

/--
A slot that may be written is settled in the runs that allow any slot. The constant region is
refused by its value, and so no token is blamed.
-/
theorem writableSlot_settles : Settles writableSlot (fun _ : Unit => anySlot) Eq X c := by
  unfold Parser.writableSlot anySlot
  refine (slot_settles.spanned).bind fun s c' us _ _ => ?_
  -- a slot of the constant region is a failure here, and no token is to blame for it
  by_cases hconst : s.value.space = .region .const
  · rw [if_pos hconst]
    exact .throw (by simp)
  · rw [if_neg hconst]
    refine .pure fun x => ?_
    show Place.slot s.value = Place.slot x.2.1.value
    rw [show s.value = x.2.1.value from x.2.2]

/-- So is a place to write to. -/
theorem place_settles : Settles place (fun _ : Unit => anyPlace) Eq X c := by
  unfold Parser.place anyPlace
  refine .peek fun t ts _ => ?_
  cases t.value with
  | id name =>
      dsimp only
      cases Width.ofName? name with
      | none => exact writableSlot_settles
      | some width =>
          exact (indirect_settles expression_settles).andThen fun address c₁ us₁ _ _ =>
            .pure fun _ => rfl
  | _ => exact writableSlot_settles

/-- The excuses that a statement needs: a choice was given up, and its comparison is found. -/
def Excuse.Choices (X : Excuse) : Prop :=
  ∀ ps target ls left cmp, PlaceOf ps target → OperandOf ls left →
    X (.token .closeParen) (ps ++ .assign :: .openParen :: ls) (.compare cmp)

/--
A statement that stores settles what lines do. The target is part of the tokens before the one that
is blamed, which is why the excuse mentions its tokens.
-/
theorem store_settles (hX : X.Choices) :
    Settles store (fun _ : Unit => storeWith anyPlace) Eq X c := by
  unfold Parser.store storeWith
  refine place_settles.andThen fun target c₁ us hp hus => .next fun t ts _ => ?_
  -- the tokens before the sign are those of the target
  have hplace : PlaceOf (us.map Located.value) target := place_reads.of_tokens hp hus
  cases hv : t.value with
  | compound op =>
      exact .inr ((operand_settles _).andThen fun e c₂ us₂ _ _ => .pure fun _ => rfl)
  | assign =>
      refine .inr (assigned_settles fun ls left cmp hl => ?_)
      show X _ (us.map Located.value ++ t.value :: .openParen :: ls) _
      rw [hv]
      exact hX _ target ls left cmp hplace hl
  | _ => exact .inl ⟨⟨_, rfl⟩, fun _ _ => .fail⟩

/--
**A statement settles its line**: other tokens with the same front are read as the same line,
whether that is a statement or an initial value, and a token that is blamed ends no line, with the
one excuse.
-/
theorem statement_settles (hX : X.Choices) : Settles statement (fun _ : Unit => line) Eq X c := by
  unfold Parser.statement line statementWith
  refine .peek fun t ts htok => ?_
  -- the first token tells the kind of statement, or is blamed
  cases hv : t.value with
  | hash => exact label_settles
  | keyword k =>
      cases k with
      | goto => exact goto_settles
      | pass => exact pass_settles
      | align => exact align_settles
      | syscall => exact syscall_settles
      | sp => exact setSp_settles
      | _ => exact .blame htok hv
  | openSquare => exact store_settles hX
  | id name => exact store_settles hX
  | _ => exact .blame htok hv

end Statements

/-! ## What is a line -/

/-- The parser `q` does what `p` does wherever `p` succeeds. -/
def Extends {α : Type} (p q : Parser α) : Prop := ∀ c r, p c = .ok r → q c = .ok r

namespace Extends

variable {α β : Type}

theorem refl (p : Parser α) : Extends p p := fun _ _ h => h

/--
Sequencing keeps the relation: the first parts agree on what succeeds, and so do the second parts
after them.
-/
theorem bind {p q : Parser α} {f g : α → Parser β} (h : Extends p q)
    (hf : ∀ a, Extends (f a) (g a)) : Extends (p >>= f) (q >>= g) := by
  intro c r hr
  cases hp : p c with
  | error e => rw [bind_error hp] at hr; cases hr
  | ok ac =>
      rw [bind_ok hp] at hr
      rw [bind_ok (h c ac hp)]
      exact hf ac.1 ac.2 r hr

/-- What a parser accepts is accepted by one that does the same and more. -/
theorem accepts {p q : Parser α} {vs : List Token} {K : α → List Token → Prop}
    (h : Extends p q) (hp : Accepts p vs K) : Accepts q vs K := by
  intro c hc
  obtain ⟨a, c', hok, hK⟩ := hp c hc
  exact ⟨a, c', h c _ hok, hK⟩

end Extends

/-- Reading any slot does what reading a writable one does, where that succeeds. -/
theorem writableSlot_extends : Extends writableSlot anySlot := by
  refine (Extends.refl _).bind fun s => ?_
  by_cases hconst : s.value.space = .region .const
  · rw [if_pos hconst]
    intro c r hr
    cases hr
  · rw [if_neg hconst]
    exact .refl _

/-- So reading any place does what reading a place to write to does. -/
theorem place_extends : Extends place anyPlace := by
  refine (Extends.refl _).bind fun t => ?_
  cases t with
  | id name =>
      dsimp only
      cases Width.ofName? name with
      | none => exact writableSlot_extends
      | some width => exact .refl _
  | _ => exact writableSlot_extends

/-- Reading a line does what reading a statement does, and then something more. -/
theorem statement_extends : Extends statement line := by
  have hstore : Extends store (storeWith anyPlace) := place_extends.bind fun _ => .refl _
  refine (Extends.refl _).bind fun t => ?_
  cases t with
  | openSquare => exact hstore
  | id name => exact hstore
  | keyword k => cases k <;> exact .refl _
  | _ => exact .refl _

/-- Every slot is read as a place of a line, also in the constant region. -/
theorem Accepts.anyPlace {ts rest : List Token} {s : Slot} {K : Place → List Token → Prop}
    (hs : SlotOf ts s) (h : K (.slot s) rest) : Accepts anyPlace (ts ++ rest) K := by
  have hslot : Accepts anySlot (ts ++ rest) K := .bind (.spanned (.slot hs fun _ => .pure h))
  unfold Parser.anyPlace
  cases hs with
  | bare hword => exact .bind (.peek hslot)
  | offset hword hn => exact .bind (.peek hslot)
  | letter hletter hn =>
      refine .bind (.peek ?_)
      simp only [ofName?_of_spaceLetter hletter]
      exact hslot

/-- A literal with a sign or a mark is a value. -/
theorem valueOf_literal {ns : List Token} {n : Word} (h : LiteralOf ns n) : ∃ e, ValueOf ns e := by
  cases h with
  | plain n => exact ⟨_, .single (.plain (.number n)), Nat.zero_le _⟩
  | wide n => exact ⟨_, .single (.plain (.wide n)), Nat.zero_le _⟩
  | negative n => exact ⟨_, .single (.neg (.plain (.number n))), Nat.zero_le _⟩
  | negativeWide n => exact ⟨_, .single (.neg (.plain (.wide n))), Nat.zero_le _⟩

end Parser

namespace Grammar

/-- The tokens of a line of a program, whether a statement or an initial value. -/
inductive LineOf : List Token → Prop where
  | statement {ls : List Token} {s : Statement} (h : StatementOf ls s) : LineOf ls
  | initializer {ls : List Token} {i : Initializer} (h : InitializerOf ls i) : LineOf ls

/-- A line has a first token, which neither ends the text nor a line. -/
theorem LineOf.head {ls : List Token} (h : LineOf ls) :
    ∃ t us, ls = t :: us ∧ t ≠ .eof ∧ t ≠ .newline := by
  cases h with
  | statement hs => exact Parser.statementOf_head hs
  | initializer hi =>
      cases hi with
      | assign hslot _ => cases hslot <;> exact ⟨_, _, rfl, by simp, by simp⟩

end Grammar

namespace Parser

/--
**Both kinds of lines are read**: a statement because it is one, and an initial value as an
assignment of its literal.
-/
theorem Accepts.line {ls rest : List Token} (hl : LineOf ls) (hend : LineEnds rest) :
    Accepts line (ls ++ rest) fun _ ws => ws = rest := by
  cases hl with
  | statement hs => exact statement_extends.accepts (.statement hs hend rfl)
  | initializer hi =>
      cases hi with
      | @assign ts ns r offset value hslot hvalue =>
          -- the literal is a value, although a number with a sign is not read as one token
          obtain ⟨e, he⟩ := valueOf_literal hvalue
          have hcond : rest.head? ≠ some (.keyword .cond) :=
            lineEnds_head?_ne hend (by simp) (by simp)
          rw [List.append_assoc, List.cons_append]
          -- an assignment of the literal to the slot, which may be in any region
          have hstore : Accepts (storeWith Parser.anyPlace) (ts ++ .assign :: (ns ++ rest))
              fun _ ws => ws = rest := by
            refine .bind (.anyPlace hslot (.bind (.next ?_)))
            refine .assigned_of_chosen (derives_head?_ne_syscall he.derives)
              (derives_append_ne_nil he.derives) ?_
            refine .chosen_value he (stops_of_lineEnds hend) ?_
            exact .bind (.accept_other hcond (.pure rfl))
          cases hslot <;> exact .bind (.peek hstore)

end Parser

end Quadword
