import Mathlib.Data.List.Basic
import Quadword.Proofs.Grammar.SettledLine
import Quadword.Proofs.Text.Position

/-!
# Syntax errors name the offending token

A program that fails because of a token fails at that token, and no program starts with the tokens
up to and including it, whatever the others are.

There is one exception. After `place = (` and an operand, a comparison makes the parenthesis that of
a choice. If the choice is not completed, the parenthesis is read again as that of a value, which
has to be closed where the comparison stands; so the comparison is what is reported, although it was
not what is wrong (`GivenUp`).

The proof compares with a larger language, in which every line is a statement or an initial value
(`LinesOf`): which of the two a line is depends on the lines before it, and for the question where a
line goes wrong it does not matter.

* **`Passes`**: what lies between two points of a run is whole lines, in any text that starts so.
* **`statements_blames`**: a line that fails settles the text, since the lines before it are passed.
* **`Program.ofTokens_blames`**: the statement about programs.
-/

namespace Quadword

namespace Grammar

/-- Lines up to the end of the text, and anything after it. -/
inductive LinesOf : List Token → Prop where
  | done (more : List Token) : LinesOf (.eof :: more)
  | blank {ts : List Token} (h : LinesOf ts) : LinesOf (.newline :: ts)
  | line {ls ts : List Token} (hl : LineOf ls) (hend : LineEnds ts) (h : LinesOf ts) :
      LinesOf (ls ++ ts)

/--
A choice was given up: a `)` was asked for and a comparison is found, in front of which stand
`place = (` and an operand.
-/
inductive GivenUp : Expectation → List Token → Token → Prop where
  | choice {ps ls : List Token} {target : Place} {left : Expr} (front : List Token)
      (cmp : Comparison) (hp : PlaceOf ps target) (hl : OperandOf ls left) :
      GivenUp (.token .closeParen) (front ++ (ps ++ .assign :: .openParen :: ls)) (.compare cmp)

/-- Whatever stands in front of a choice, it was given up. -/
theorem GivenUp.prepend {e : Expectation} {vs : List Token} {found : Token}
    (h : GivenUp e vs found) (us : List Token) : GivenUp e (us ++ vs) found := by
  cases h with
  | choice front cmp hp hl =>
      rw [← List.append_assoc]
      exact .choice (us ++ front) cmp hp hl

/-! ## The larger language -/

/-- Statements are lines, and what comes behind the end of the text is left open. -/
theorem linesOf_of_statementsOf {ts : List Token} {ss : List Statement} (h : StatementsOf ts ss)
    (more : List Token) : LinesOf (ts ++ more) := by
  induction h with
  | done => exact .done more
  | blank _ ih => exact .blank ih
  | line hs hend _ ih =>
      rw [List.append_assoc]
      exact .line (.statement hs) (Parser.lineEnds_append hend more) ih

/-- A run of initial values in front of lines makes lines, since it is read line by line. -/
theorem linesOf_of_initialRun {ts rest : List Token} {is : List Initializer}
    (h : InitialRun ts is rest) (hrest : LinesOf rest) : LinesOf ts := by
  induction h with
  | nil ts => exact hrest
  | blank _ ih => exact .blank (ih hrest)
  | line hi hend _ ih => exact .line (.initializer hi) hend (ih hrest)

/-- A text that goes on with anything but its end or a line break goes on with a line. -/
theorem LinesOf.cases_line {vs : List Token} (h : LinesOf vs) (heof : vs.head? ≠ some .eof)
    (hnewline : vs.head? ≠ some .newline) :
    ∃ ls ts, vs = ls ++ ts ∧ LineOf ls ∧ LineEnds ts ∧ LinesOf ts := by
  cases h with
  | done more => exact absurd rfl heof
  | blank _ => exact absurd rfl hnewline
  | line hl hend h => exact ⟨_, _, rfl, hl, hend, h⟩

/--
A line break in front of lines may be taken off: no line starts with one, so it was a blank line.
-/
theorem LinesOf.of_newline {ts : List Token} (h : LinesOf (.newline :: ts)) : LinesOf ts := by
  generalize hvs : Token.newline :: ts = vs at h
  cases h with
  | done more => cases hvs
  | blank h => cases hvs; exact h
  | line hl _ _ =>
      obtain ⟨t, us, rfl, -, hne⟩ := hl.head
      cases hvs
      exact absurd rfl hne

end Grammar

namespace Parser

open Grammar

/--
The line at the front of a text is what any run of `line` on that text reads, so a line that is read
there can be taken off.
-/
theorem linesOf_of_line {vs ws : List Token} (h : LinesOf vs) (heof : vs.head? ≠ some .eof)
    (hnewline : vs.head? ≠ some .newline) (hread : Ensures line vs fun _ us => us = ws) :
    LineEnds ws ∧ LinesOf ws := by
  obtain ⟨ls, ts, rfl, hl, hend, hts⟩ := h.cases_line heof hnewline
  have hacc := Accepts.line hl hend
  obtain ⟨s, c', hok, hc'⟩ := hacc ⟨Program.unplaced _, .first⟩ (Program.map_value_unplaced _)
  obtain rfl : ts = ws := by
    rw [← hc']
    exact hread ⟨_, _⟩ s c' (Program.map_value_unplaced _) hok
  exact ⟨hend, hts⟩

/-! ## Whole lines -/

/--
What stands between the two cursors is whole lines: in any text that starts with those tokens and
goes on with the same token, lines come after them.
-/
def Passes (c c' : Cursor) : Prop :=
  ∃ front, c.tokens = front ++ c'.tokens ∧
    ∀ ws, ws.head? = c'.values.head? → LinesOf (front.map Located.value ++ ws) → LinesOf ws

/--
The token `found` at `l` settles that the tokens from `c` on are no lines, unless a choice was given
up there.
-/
def Blames (c : Cursor) (e : Expectation) (found : Token) (l : Span) : Prop :=
  ∃ us more, c.tokens = us ++ ⟨found, l⟩ :: more ∧
    ((∀ rest, ¬ LinesOf (us.map Located.value ++ found :: rest)) ∨
      GivenUp e (us.map Located.value) found)

variable {c c' c'' : Cursor} {e : Expectation} {found : Token} {l : Span}

theorem Passes.refl (c : Cursor) : Passes c c := ⟨[], rfl, fun _ _ h => h⟩

/--
Whole lines behind whole lines. The token in the middle is the same in both texts, which is what the
first part needs to know of the second.
-/
theorem Passes.trans (h : Passes c c') (h' : Passes c' c'') : Passes c c'' := by
  obtain ⟨us, hus, hlines⟩ := h
  obtain ⟨us', hus', hlines'⟩ := h'
  refine ⟨us ++ us', by rw [hus, hus', List.append_assoc], fun ws hws hfront => ?_⟩
  rw [List.map_append, List.append_assoc] at hfront
  exact hlines' ws hws (hlines _ (head?_eq_of_tokens hus' hws) hfront)

/--
What is blamed behind whole lines is blamed of the text that they are in. If it was an excuse, it
stays one, with the lines in front of it.
-/
theorem Passes.blames (h : Passes c c') (hblame : Blames c' e found l) : Blames c e found l := by
  obtain ⟨us, hus, hlines⟩ := h
  obtain ⟨us', more, hus', hfinal⟩ := hblame
  refine ⟨us ++ us', more, by rw [hus, hus', List.append_assoc], ?_⟩
  rw [List.map_append]
  -- a token that no lines continue, or a choice that was given up
  rcases hfinal with hfinal | hgiven
  · left
    intro rest hfront
    rw [List.append_assoc] at hfront
    exact hfinal rest (hlines _ (head?_eq_of_tokens hus' rfl) hfront)
  · exact .inr (hgiven.prepend _)

theorem passes_newline {t : Located Token} {ts : List (Located Token)} (htok : c.tokens = t :: ts)
    (ht : t.value = .newline) : Passes c ⟨ts, t.span⟩ := by
  refine ⟨[t], htok, fun ws _ hfront => ?_⟩
  rw [List.map_singleton, ht] at hfront
  exact hfront.of_newline

theorem skipNewlines_apply (c : Cursor) :
    skipNewlines c = .ok ((), afterNewlines c.last c.tokens) := rfl

/-- All the line breaks that are skipped are blank lines. -/
theorem passes_afterNewlines (last : Span) (ts : List (Located Token)) :
    Passes ⟨ts, last⟩ (afterNewlines last ts) := by
  induction ts generalizing last with
  | nil => exact .refl _
  | cons t ts ih =>
      unfold afterNewlines
      by_cases ht : t.value = .newline
      · rw [if_pos ht]
        exact (passes_newline rfl ht).trans (ih t.span)
      · rw [if_neg ht]
        exact .refl _

/--
The tokens of a line, with an end behind them: in any text that goes on in the same way, that line
is read and the rest are lines.
-/
theorem passes_line {us : List (Located Token)} (hus : c.tokens = us ++ c'.tokens)
    (hl : LineOf (us.map Located.value)) (hend : LineEnds c'.values) : Passes c c' := by
  refine ⟨us, hus, fun ws hws hfront => ?_⟩
  have hends : LineEnds ws := by
    rw [LineEnds, hws]
    exact hend
  -- the line is read to its end in every text that has it
  have hread := (Accepts.line hl hends).ensures
  obtain ⟨t, ts, hts, heof, hnewline⟩ := hl.head
  rw [hts] at hfront hread
  exact (linesOf_of_line hfront (by simpa using heof) (by simpa using hnewline) hread).2

/-! ## Initial values -/

section Drops

variable {α β : Type}

/-- Parsers that take tokens off the front may be put one after the other. -/
theorem Drops.bind {p : Parser α} {f : α → Parser β} (hp : Drops p) (hf : ∀ a, Drops (f a)) :
    Drops (p >>= f) := by
  intro c b c'' hb
  cases hpc : p c with
  | error err => rw [bind_error hpc] at hb; cases hb
  | ok ac =>
      rw [bind_ok hpc] at hb
      obtain ⟨us, hus⟩ := hp c ac.1 ac.2 hpc
      obtain ⟨us', hus'⟩ := hf ac.1 ac.2 b c'' hb
      exact ⟨us ++ us', by rw [hus, hus', List.append_assoc]⟩

theorem Drops.pure (a : α) : Drops (Pure.pure a) := by
  intro c b c' h
  cases h
  exact ⟨[], rfl⟩

theorem Drops.fail (err : ParseError) : Drops (fail (α := α) err) := by
  intro c a c' h
  cases h

/--
An optional token takes at most itself off the front. This follows from what it settles, though that
says far more.
-/
theorem accept_drops (t : Token) : Drops (accept t) := by
  refine Settles.drops (q := fun _ : Unit => accept t) (S := Eq) fun c => ?_
  rw [← bind_pure (accept t)]
  exact .accept (fun _ _ _ => .pure fun _ => rfl) (.pure fun _ => rfl)

theorem peek_drops : Drops peek := by
  refine Settles.drops (q := fun _ : Unit => peek) (S := Eq) fun c => ?_
  rw [← bind_pure peek]
  exact .peek fun _ _ _ => .pure fun _ => rfl

/-- Adding a span does not read. -/
theorem Drops.spanned {p : Parser α} (h : Drops p) : Drops (spanned p) := by
  intro c a c' hp
  have hspan := spanned_eq p c
  rw [hspan] at hp
  cases hpc : p c with
  | error err => rw [hpc] at hp; cases hp
  | ok ac =>
      rw [hpc] at hp
      cases hp
      exact h c _ _ hpc

end Drops

/-- An initial value takes its tokens off the front, part by part. -/
theorem initialValue_drops : Drops initialValue := by
  unfold Parser.initialValue
  refine (Settles.drops (ι := Unit) fun _ => slot_settles).bind fun s => ?_
  cases s.space with
  | stack => exact .fail _
  | region r =>
      refine (Settles.drops (ι := Unit) fun _ => expect_settles _).bind fun _ => ?_
      refine (accept_drops _).bind fun negative => ?_
      refine (Settles.drops (ι := Unit) fun _ => literal_settles).bind fun value => ?_
      exact (accept_drops _).bind fun _ => .pure _

/-- An initial value leaves the end of its line where it is. -/
theorem initializer_drops : Drops initializer := by
  unfold Parser.initializer
  refine initialValue_drops.spanned.bind fun i => peek_drops.bind fun t => ?_
  cases t with
  | newline => exact .pure i
  | eof => exact .pure i
  | _ => exact .fail _

/-- An initial value that is read is a line. -/
theorem passes_initializer {i : Located Initializer} (h : initializer c = .ok (i, c')) :
    Passes c c' := by
  obtain ⟨us, hus⟩ := initializer_drops c i c' h
  obtain ⟨ts, hts, hi, hend⟩ := initializer_ensures c.values c i c' rfl h
  rw [Cursor.values, hus, List.map_append] at hts
  rw [← List.append_cancel_right hts] at hi
  exact passes_line hus (.initializer hi) hend

/-- The loop over initial values passes lines, and blames no token for what it refuses. -/
theorem initializers_passes (bound : Nat) :
    ∀ (seen : List (Located Initializer)) (c : Cursor),
      match initializers seen bound c with
      | .ok (_, c') => Passes c c'
      | .error err => ∀ e found, err.value ≠ .expected e found := by
  induction bound with
  | zero => intro seen c; exact .refl c
  | succ bound ih =>
      intro seen c
      rw [initializers]
      -- the attempt gives up without a failure; an overlap is a failure, but of a different kind
      cases hi : initializer c with
      | error err =>
          have hnone : attempt initializer c = .ok (none, c) := by rw [Parser.attempt, hi]
          rw [bind_ok hnone]
          exact .refl c
      | ok r =>
          obtain ⟨i, c₁⟩ := r
          have hsome : attempt initializer c = .ok (some i, c₁) := by rw [Parser.attempt, hi]
          rw [bind_ok hsome]
          dsimp only
          by_cases hoverlap : (seen.any fun j => j.value.overlaps i.value) = true
          · rw [if_pos hoverlap]
            exact fun e found h => by cases h
          · rw [if_neg hoverlap]
            rw [bind_ok (skipNewlines_apply c₁)]
            have hrest := ih (seen ++ [i]) (afterNewlines c₁.last c₁.tokens)
            have hpass : Passes c (afterNewlines c₁.last c₁.tokens) :=
              (passes_initializer hi).trans (passes_afterNewlines c₁.last c₁.tokens)
            split at hrest
            · exact hpass.trans hrest
            · exact hrest

/-! ## Statements -/

/--
All that can be found at the end of a line. Only a line break is taken, and the last case, in which
the tokens have run out, does not occur in a text.
-/
theorem terminator_cases (c : Cursor) :
    c.values.head? = some .eof ∧ terminator c = .ok ((), c) ∨
      (∃ t ts, c.tokens = t :: ts ∧ t.value = .newline ∧
        terminator c = .ok ((), ⟨ts, t.span⟩)) ∨
      (∃ t ts, c.tokens = t :: ts ∧ t.value ≠ .newline ∧ t.value ≠ .eof ∧
        terminator c = .error ⟨.expected .lineEnd t.value, t.span⟩) ∨
      terminator c = .error ⟨.abruptEnd, c.last⟩ := by
  cases htok : c.tokens with
  | nil => exact .inr (.inr (.inr (bind_error (peek_nil htok))))
  | cons t ts =>
      have hnext := next_cons htok
      rw [terminator, bind_ok (peek_cons htok)]
      cases hv : t.value with
      -- the end of the text ends the last line and stays where it is
      | eof => exact .inl ⟨by rw [Cursor.values, htok, List.map_cons, hv]; rfl, rfl⟩
      | newline => exact .inr (.inl ⟨t, ts, rfl, hv, bind_ok hnext⟩)
      | _ =>
          refine .inr (.inr (.inl ⟨t, ts, rfl, by simp [hv], by simp [hv], ?_⟩))
          rw [hv]
          exact bind_ok hnext

/-- A computation that only rearranges its result afterwards fails where it failed before. -/
theorem error_of_bind_pure {α β : Type} {p : Parser α} {f : α → β} {err : Located ParseError}
    (h : (p >>= fun a => Pure.pure (f a)) c = .error err) : p c = .error err := by
  cases hpc : p c with
  | error err' =>
      rw [bind_error hpc] at h
      cases h
      rfl
  | ok r =>
      rw [bind_ok hpc] at h
      cases h

/-- A line that is blamed, or whose end is, or that is followed by such lines. -/
theorem line_blames {p : Parser (List (Located Statement) × Span)}
    (hp : ∀ c e found l, p c = .error ⟨.expected e found, l⟩ → Blames c e found l)
    (heof : c.values.head? ≠ some .eof) (hnewline : c.values.head? ≠ some .newline)
    (h : (do
      let s ← spanned statement
      terminator
      let (ss, finish) ← p
      pure (s :: ss, finish)) c = .error ⟨.expected e found, l⟩) :
    Blames c e found l := by
  have hchoices : Excuse.Choices GivenUp := fun _ _ _ _ cmp hplace hl => .choice [] cmp hplace hl
  have hsettles := statement_settles (c := c) hchoices
  have hspan := spanned_eq statement c
  -- the statement fails, or its end does, or what comes behind it
  cases hs : statement c with
  | error err =>
      rw [hs] at hspan
      rw [bind_error hspan] at h
      cases h
      obtain ⟨us, more, hus, hfinal⟩ := hsettles.blames e found l hs
      refine ⟨us, more, hus, hfinal.imp_left fun hrej rest hlines => ?_⟩
      have hhead : (us.map Located.value ++ found :: rest).head? = c.values.head? :=
        head?_eq_of_tokens hus rfl
      rw [← hhead] at heof hnewline
      obtain ⟨ls, ts, hvs, hl, hend, -⟩ := hlines.cases_line heof hnewline
      -- a line that starts like this would be read, but the statement settles that none is
      refine (Accepts.line hl hend).not_rejects ?_
      rw [← hvs]
      exact hrej () rest
  | ok r =>
      obtain ⟨s, c₁⟩ := r
      rw [hs] at hspan
      rw [bind_ok hspan] at h
      obtain ⟨us, hus, hread⟩ := hsettles.agrees s c₁ hs
      have hline : LineOf (us.map Located.value) := .statement (statement_reads.of_tokens hs hus)
      -- behind the statement: the end of the text, a line break, another token, or nothing
      rcases terminator_cases c₁ with ⟨heof₁, hend⟩ | ⟨u, vs, hu, hnewline₁, hend⟩ |
        ⟨u, vs, hu, hnewline₁, heof₁, hend⟩ | hend
      · rw [bind_ok hend] at h
        exact (passes_line hus hline (.inr heof₁)).blames (hp c₁ e found l (error_of_bind_pure h))
      · rw [bind_ok hend] at h
        have hends : LineEnds c₁.values := by
          left
          rw [Cursor.values, hu, List.map_cons, hnewline₁]
          rfl
        exact ((passes_line hus hline hends).trans (passes_newline hu hnewline₁)).blames
          (hp _ e found l (error_of_bind_pure h))
      · -- the line is the same in any other text, and does not end here
        rw [bind_error hend] at h
        cases h
        refine ⟨us, vs, by rw [hus, hu], .inl fun rest hlines => ?_⟩
        have hu' : (u.value :: rest).head? = c₁.values.head? := by rw [Cursor.values, hu]; rfl
        have hhead : (us.map Located.value ++ u.value :: rest).head? = c.values.head? :=
          head?_eq_of_tokens hus hu'
        rw [← hhead] at heof hnewline
        have hread' := (hread () (u.value :: rest) hu').mono fun _ _ hb => hb.2
        obtain ⟨hends, -⟩ := linesOf_of_line hlines heof hnewline hread'
        rcases hends with hends | hends
        · exact hnewline₁ (by simpa using hends)
        · exact heof₁ (by simpa using hends)
      · rw [bind_error hend] at h
        cases h

/--
**A statement that fails settles the text.** By induction on the bound of the loop: the lines before
it are passed, since they were read as statements, and the line itself is blamed by `line_blames`.
-/
theorem statements_blames (bound : Nat) :
    ∀ (c : Cursor) (e : Expectation) (found : Token) (l : Span),
      statements bound c = .error ⟨.expected e found, l⟩ → Blames c e found l := by
  induction bound with
  | zero => intro c e found l h; cases h
  | succ bound ih =>
      intro c e found l h
      refine (passes_afterNewlines c.last c.tokens).blames ?_
      rw [statements, bind_ok (skipNewlines_apply c)] at h
      have hnewline : (afterNewlines c.last c.tokens).values.head? ≠ some .newline := by
        rw [values_afterNewlines]
        exact head?_dropNewlines _
      generalize afterNewlines c.last c.tokens = c₁ at h hnewline ⊢
      -- without tokens the failure is about their end, and the end of the text is none
      cases htok : c₁.tokens with
      | nil =>
          rw [bind_error (peek_nil htok)] at h
          cases h
      | cons t ts =>
          rw [bind_ok (peek_cons htok)] at h
          have hhead : c₁.values.head? = some t.value := by rw [Cursor.values, htok]; rfl
          cases hv : t.value with
          | eof =>
              -- the end of the text is no failure
              rw [hv] at h
              dsimp only at h
              rw [bind_ok (peekSpan_eq c₁)] at h
              cases h
          | _ =>
              rw [hv] at h
              exact line_blames ih (by simp [hhead, hv]) hnewline h

/-! ## Programs -/

/--
The check of the labels is about names and does not say what was expected in place of a token.
-/
theorem checkLabels_error {ss : List (Located Statement)} {err : Located ParseError}
    (h : checkLabels ss = .error err) : ∀ e found, err.value ≠ .expected e found := by
  unfold checkLabels at h
  intro e found
  split at h
  · cases h
    simp
  · split at h
    · cases h
      simp
    · cases h

/--
A program fails at a token only in its statements: an attempt at an initial value is given up
without a failure, and what the loop over them refuses is an overlap. So all that is read before is
passed as whole lines.
-/
theorem program_blames (h : program c = .error ⟨.expected e found, l⟩) : Blames c e found l := by
  have hremaining : ∀ c, remaining c = .ok (c.tokens.length, c) := fun _ => rfl
  rw [program, bind_ok (skipNewlines_apply c), bind_ok (hremaining _)] at h
  have hpass := passes_afterNewlines c.last c.tokens
  generalize afterNewlines c.last c.tokens = c₁ at h hpass
  have hinit := initializers_passes c₁.tokens.length [] c₁
  -- whatever the loop over initial values refuses, it blames no token for it
  cases hdata : initializers [] c₁.tokens.length c₁ with
  | error err =>
      rw [hdata] at hinit
      rw [bind_error hdata] at h
      cases h
      exact absurd rfl (hinit e found)
  | ok r =>
      obtain ⟨data, c₂⟩ := r
      rw [hdata] at hinit
      rw [bind_ok hdata, bind_ok (hremaining _)] at h
      refine (hpass.trans hinit).blames ?_
      cases hss : statements c₂.tokens.length c₂ with
      | error err =>
          rw [bind_error hss] at h
          cases h
          exact statements_blames _ c₂ e found l hss
      | ok r =>
          obtain ⟨⟨ss, finish⟩, c₃⟩ := r
          rw [bind_ok hss] at h
          dsimp only at h
          -- labels are checked when all tokens have been read
          cases hlabels : checkLabels ss with
          | error err =>
              rw [hlabels] at h
              cases h
              exact absurd rfl (checkLabels_error hlabels e found)
          | ok _ =>
              rw [hlabels] at h
              cases h

end Parser

namespace Program

open Grammar

/-- Whatever is accepted is in the larger language: initial values and statements are lines. -/
theorem linesOf_of_ofTokens {tokens : List (Located Token)} {start : Span} {p : Program}
    (h : ofTokens tokens start = .ok p) : LinesOf (tokens.map Located.value) := by
  obtain ⟨⟨rest, us, hrun, ⟨ts, more, hrest, -, hts⟩, -⟩, -⟩ := ofTokens_sound h
  refine linesOf_of_initialRun hrun ?_
  rw [hrest]
  exact linesOf_of_statementsOf hts more

/--
**A token that is reported is where the program goes wrong.** If a list of tokens is refused because
something was expected where `found` stands, at `l`, then `found` is a token of the list and its
place is `l`; and a list that starts with the same tokens, up to and including `found`, is accepted
only if `found` is the comparison of a choice that was given up.
-/
theorem ofTokens_blames {tokens : List (Located Token)} {start : Span} {e : Expectation}
    {found : Token} {l : Span} (h : ofTokens tokens start = .error ⟨.expected e found, l⟩) :
    ∃ front rest, tokens = front ++ ⟨found, l⟩ :: rest ∧
      ∀ tokens' start' p, ofTokens tokens' start' = .ok p →
        front.map Located.value ++ [found] <+: tokens'.map Located.value →
        GivenUp e (front.map Located.value) found := by
  have hprogram : Parser.program ⟨tokens, start⟩ = .error ⟨.expected e found, l⟩ := by
    unfold ofTokens at h
    cases hp : Parser.program ⟨tokens, start⟩ with
    | ok r => rw [hp] at h; cases h
    | error err => rw [hp] at h; cases h; rfl
  obtain ⟨us, more, hus, hfinal⟩ := Parser.program_blames hprogram
  refine ⟨us, more, hus, fun tokens' start' p hp hstarts => ?_⟩
  -- no program goes on with the token that is blamed, or else the parser had given up on one before
  rcases hfinal with hno | hgiven
  · obtain ⟨rest, hrest⟩ := hstarts
    refine absurd (linesOf_of_ofTokens hp) ?_
    rw [← hrest, List.append_assoc]
    exact hno rest
  · exact hgiven

/-- A token on the first line, in the columns from `column` on. -/
def onLine (t : Token) (column : Nat) (width : Nat := 1) : Located Token :=
  ⟨t, Position.columns ⟨1, column⟩ width⟩

/-- After `s[0] = (1 + 2)` a line ends, or goes on with a condition or with another operand. -/
theorem ofTokens_blames_literal :
    let tokens :=
      [onLine (.id "s") 1, onLine .openSquare 2, onLine (.number 0) 3, onLine .closeSquare 4,
        onLine .assign 6, onLine .openParen 8, onLine (.number 1) 9, onLine (.binary .add) 11,
        onLine (.number 2) 13, onLine .closeParen 14, onLine (.number 3) 16, onLine .newline 17,
        ⟨.eof, Position.cell ⟨2, 1⟩⟩]
    ofTokens tokens .first = .error ⟨.expected .lineEnd (.number 3), Position.columns ⟨1, 16⟩ 1⟩ ∧
      ∃ front rest,
        tokens = front ++ ⟨.number 3, Position.columns ⟨1, 16⟩ 1⟩ :: rest ∧
        ∀ tokens' start' p, ofTokens tokens' start' = .ok p →
          ¬ front.map Located.value ++ [.number 3] <+: tokens'.map Located.value := by
  intro tokens
  have herror : ofTokens tokens .first
      = .error ⟨.expected .lineEnd (.number 3), Position.columns ⟨1, 16⟩ 1⟩ := rfl
  refine ⟨herror, ?_⟩
  obtain ⟨front, rest, hsplit, hgiven⟩ := ofTokens_blames herror
  refine ⟨front, rest, hsplit, fun tokens' start' p hp hstarts => ?_⟩
  -- no `)` was asked for
  cases hgiven tokens' start' p hp hstarts

/-- The tokens of `s[0] = (1`, which a choice as well as a value can start with. -/
def undecided : List (Located Token) :=
  [onLine (.id "s") 1, onLine .openSquare 2, onLine (.number 0) 3, onLine .closeSquare 4,
    onLine .assign 6, onLine .openParen 8, onLine (.number 1) 9]

/-- The tokens of `2) + 3`, behind which a choice is given up. -/
def notChosen : List (Located Token) :=
  [onLine (.number 2) 14, onLine .closeParen 15, onLine (.binary .add) 17, onLine (.number 3) 19,
    onLine .newline 20, ⟨.eof, Position.cell ⟨2, 1⟩⟩]

/-- The tokens of `2) ? 3 : 4`, which complete a choice. -/
def completed : List (Located Token) :=
  [onLine (.number 2) 14, onLine .closeParen 15, onLine .question 17, onLine (.number 3) 19,
    onLine .colon 21, onLine (.number 4) 23, onLine .newline 24, ⟨.eof, Position.cell ⟨2, 1⟩⟩]

/-- The exception is there: `s[0] = (1 == 2) + 3` fails at the comparison, which is not at fault. -/
theorem ofTokens_blames_comparison :
    ¬ ∀ (tokens : List (Located Token)) (start : Span) (e : Expectation) (found : Token) (l : Span),
      ofTokens tokens start = .error ⟨.expected e found, l⟩ →
        ∃ front rest, tokens = front ++ ⟨found, l⟩ :: rest ∧
          ∀ tokens' start' p, ofTokens tokens' start' = .ok p →
            ¬ front.map Located.value ++ [found] <+: tokens'.map Located.value := by
  intro hall
  obtain ⟨front, rest, hsplit, hno⟩ :=
    hall (undecided ++ onLine (.compare .eq) 11 2 :: notChosen) .first (.token .closeParen)
      (.compare .eq) (Position.columns ⟨1, 11⟩ 2) rfl
  -- only one of the tokens stands at that place
  obtain ⟨rfl, -, -⟩ :=
    (List.append_cons_inj_of_notMem (by decide) (by decide)).mp hsplit
  exact hno (undecided ++ onLine (.compare .eq) 11 2 :: completed) .first _ rfl
    ⟨completed.map Located.value, rfl⟩

end Program

end Quadword
