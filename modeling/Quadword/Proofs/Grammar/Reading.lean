import Quadword.Program.Parser.Basic

/-!
# What a parser does to the tokens ahead

Two views of a parser that forget positions and keep the tokens only:

* **`Ensures p vs K`**: wherever `p` succeeds on the tokens `vs`, its result and the tokens that it
  leaves satisfy `K`.
* **`Accepts p vs K`**: `p` succeeds on the tokens `vs`, with a result and remaining tokens that
  satisfy `K`.

Both have one rule for each way to build a parser, so a proof about a parser follows its text. Since
a parser is a function, what it accepts it also ensures (`Accepts.ensures`).
-/

namespace Quadword

/-- The tokens still to be read, without their positions. -/
def Cursor.values (c : Cursor) : List Token := c.tokens.map Located.value

/-- The span of the next token, or that of the last one if there is no next. -/
def Cursor.ahead (c : Cursor) : Span := (c.tokens.head?.map Located.span).getD c.last

/--
A first token without its position is the value of a first token that has one. The rules below are
stated over values, and this is how they get back at the cursor that a parser runs on.
-/
theorem Cursor.tokens_of_values_cons {c : Cursor} {t : Token} {ts : List Token}
    (h : c.values = t :: ts) :
    ∃ u us, c.tokens = u :: us ∧ u.value = t ∧ us.map Located.value = ts := by
  unfold Cursor.values at h
  cases htok : c.tokens with
  | nil => rw [htok] at h; simp at h
  | cons u us =>
      rw [htok, List.map_cons, List.cons.injEq] at h
      exact ⟨u, us, rfl, h.1, h.2⟩

theorem Cursor.tokens_of_values_nil {c : Cursor} (h : c.values = []) : c.tokens = [] :=
  List.map_eq_nil_iff.mp h

namespace Parser

variable {α β : Type}

/-- Wherever the parser succeeds on these tokens, its result and what it leaves satisfy `K`. -/
def Ensures (p : Parser α) (vs : List Token) (K : α → List Token → Prop) : Prop :=
  ∀ c a c', c.values = vs → p c = .ok (a, c') → K a c'.values

/-- The parser succeeds on these tokens, and its result and what it leaves satisfy `K`. -/
def Accepts (p : Parser α) (vs : List Token) (K : α → List Token → Prop) : Prop :=
  ∀ c, c.values = vs → ∃ a c', p c = .ok (a, c') ∧ K a c'.values

/-- The parser fails on these tokens. -/
def Rejects (p : Parser α) (vs : List Token) : Prop := Ensures p vs fun _ _ => False

/--
A sequence of two parsers, run: the second one goes on from the cursor that the first one leaves,
and a failure of the first one is the failure of both.
-/
theorem bind_apply (p : Parser α) (f : α → Parser β) (c : Cursor) :
    (p >>= f) c = match p c with
      | .ok (a, c') => f a c'
      | .error e => .error e := by
  -- the monad on cursors and failures, with the bind of the failures written out
  show (p c >>= fun x => f x.1 x.2) = _
  cases p c <;> rfl

/-! ## Consequence -/

/--
The outcome may be weakened. Nearly every proof about a parser starts with what is known about its
first part and weakens that to what the rest needs.
-/
theorem Ensures.mono {p : Parser α} {vs : List Token} {K L : α → List Token → Prop}
    (h : Ensures p vs K) (hKL : ∀ a us, K a us → L a us) : Ensures p vs L :=
  fun c a c' hc hp => hKL a _ (h c a c' hc hp)

/-- The same for acceptance: the parser still succeeds, and less is said about how. -/
theorem Accepts.mono {p : Parser α} {vs : List Token} {K L : α → List Token → Prop}
    (h : Accepts p vs K) (hKL : ∀ a us, K a us → L a us) : Accepts p vs L := by
  intro c hc
  obtain ⟨a, c', hp, hK⟩ := h c hc
  exact ⟨a, c', hp, hKL a _ hK⟩

/-- What a parser accepts with some outcome, it never does with another one. -/
theorem Accepts.ensures {p : Parser α} {vs : List Token} {K : α → List Token → Prop}
    (h : Accepts p vs K) : Ensures p vs K := by
  intro c a c' hc hp
  obtain ⟨a₁, c₁, hp₁, hK⟩ := h c hc
  rw [hp] at hp₁
  cases hp₁
  exact hK

/-! ## Sequencing -/

/--
Sequencing: the first parser ensures that the second one ensures the outcome. The result and the
remaining tokens of the first are what the second is applied to, so the rule can be used again
inside.
-/
theorem Ensures.bind {p : Parser α} {f : α → Parser β} {vs : List Token}
    {K : β → List Token → Prop} (h : Ensures p vs fun a us => Ensures (f a) us K) :
    Ensures (p >>= f) vs K := by
  intro c b c'' hc hb
  rw [bind_apply] at hb
  -- a success of both is one of the first, and one of the second from where that stopped
  cases hp : p c with
  | error e => rw [hp] at hb; simp at hb
  | ok r =>
      obtain ⟨a, c'⟩ := r
      rw [hp] at hb
      exact h c a c' hc hp c' b c'' rfl hb

/--
Sequencing for acceptance, read the same way: the first parser succeeds, and in such a state that
the second one does.
-/
theorem Accepts.bind {p : Parser α} {f : α → Parser β} {vs : List Token}
    {K : β → List Token → Prop} (h : Accepts p vs fun a us => Accepts (f a) us K) :
    Accepts (p >>= f) vs K := by
  intro c hc
  obtain ⟨a, c', hp, hf⟩ := h c hc
  obtain ⟨b, c'', hb, hK⟩ := hf c' rfl
  exact ⟨b, c'', by rw [bind_apply, hp]; exact hb, hK⟩

/-- A parser that reads nothing leaves the tokens as they are. -/
theorem Ensures.pure {a : α} {vs : List Token} {K : α → List Token → Prop} (h : K a vs) :
    Ensures (Pure.pure a) vs K := by
  intro c b c' hc hb
  cases hb
  rw [hc]
  exact h

theorem Accepts.pure {a : α} {vs : List Token} {K : α → List Token → Prop} (h : K a vs) :
    Accepts (Pure.pure a) vs K := by
  intro c hc
  exact ⟨a, c, rfl, by rw [hc]; exact h⟩

/--
A failing parser ensures anything, so a branch that fails closes at once in a proof of `Ensures`.
-/
theorem Ensures.fail {e : ParseError} {vs : List Token} {K : α → List Token → Prop} :
    Ensures (fail e) vs K := by
  intro c a c' _ h
  simp [Parser.fail] at h

theorem Ensures.throw {e : Located ParseError} {vs : List Token} {K : α → List Token → Prop} :
    Ensures (MonadExcept.throw e) vs K := by
  intro c a c' _ h
  cases h

/-! ## Single tokens -/

/-- There is no next token to look at when none is left; the parser fails there. -/
theorem Ensures.peek_nil {K : Token → List Token → Prop} : Ensures peek [] K := by
  intro c t c' hc h
  simp [Parser.peek, Cursor.tokens_of_values_nil hc] at h

/-- Looking at the next token returns that token and leaves all of them unread. -/
theorem Ensures.peek {t : Token} {ts : List Token} {K : Token → List Token → Prop}
    (h : K t (t :: ts)) : Ensures peek (t :: ts) K := by
  intro c a c' hc hp
  obtain ⟨u, us, htok, rfl, -⟩ := Cursor.tokens_of_values_cons hc
  simp only [Parser.peek, htok, Except.ok.injEq, Prod.mk.injEq] at hp
  obtain ⟨rfl, rfl⟩ := hp
  rw [hc]
  exact h

theorem Accepts.peek {t : Token} {ts : List Token} {K : Token → List Token → Prop}
    (h : K t (t :: ts)) : Accepts peek (t :: ts) K := by
  intro c hc
  obtain ⟨u, us, htok, rfl, -⟩ := Cursor.tokens_of_values_cons hc
  exact ⟨u.value, c, by simp [Parser.peek, htok], by rw [hc]; exact h⟩

theorem Ensures.next_nil {K : Token → List Token → Prop} : Ensures next [] K := by
  intro c t c' hc h
  simp [Parser.next, Cursor.tokens_of_values_nil hc] at h

/-- Reading a token returns it and leaves the ones behind it. -/
theorem Ensures.next {t : Token} {ts : List Token} {K : Token → List Token → Prop}
    (h : K t ts) : Ensures next (t :: ts) K := by
  intro c a c' hc hp
  obtain ⟨u, us, htok, rfl, rfl⟩ := Cursor.tokens_of_values_cons hc
  simp only [Parser.next, htok, Except.ok.injEq, Prod.mk.injEq] at hp
  obtain ⟨rfl, rfl⟩ := hp
  exact h

theorem Accepts.next {t : Token} {ts : List Token} {K : Token → List Token → Prop}
    (h : K t ts) : Accepts next (t :: ts) K := by
  intro c hc
  obtain ⟨u, us, htok, rfl, rfl⟩ := Cursor.tokens_of_values_cons hc
  exact ⟨u.value, ⟨us, u.span⟩, by simp [Parser.next, htok], h⟩

/--
An optional token splits a proof in two: either it is there and is read, or the tokens start with
something else, or with nothing, and are left alone.
-/
theorem Ensures.accept {t : Token} {vs : List Token} {K : Bool → List Token → Prop}
    (hyes : ∀ us, vs = t :: us → K true us) (hno : vs.head? ≠ some t → K false vs) :
    Ensures (accept t) vs K := by
  intro c a c' hc hp
  cases vs with
  -- at the end of the tokens nothing is accepted
  | nil =>
      simp only [Parser.accept, Cursor.tokens_of_values_nil hc, Except.ok.injEq,
        Prod.mk.injEq] at hp
      obtain ⟨rfl, rfl⟩ := hp
      rw [hc]
      exact hno (by simp)
  | cons v vs =>
      obtain ⟨u, us, htok, rfl, rfl⟩ := Cursor.tokens_of_values_cons hc
      simp only [Parser.accept, htok] at hp
      -- the token is there, or another one is
      split at hp
      · next heq =>
          cases hp
          exact hyes _ (by rw [heq]; rfl)
      · next hne =>
          cases hp
          rw [hc]
          exact hno (by simpa using hne)

theorem Accepts.accept_self {t : Token} {ts : List Token} {K : Bool → List Token → Prop}
    (h : K true ts) : Accepts (accept t) (t :: ts) K := by
  intro c hc
  obtain ⟨u, us, htok, hu, rfl⟩ := Cursor.tokens_of_values_cons hc
  exact ⟨true, ⟨us, u.span⟩, by simp [Parser.accept, htok, hu], h⟩

/--
An optional token that is not there costs nothing; `head?` covers another token and the end of all
tokens at once.
-/
theorem Accepts.accept_other {t : Token} {vs : List Token} {K : Bool → List Token → Prop}
    (hne : vs.head? ≠ some t) (h : K false vs) : Accepts (accept t) vs K := by
  intro c hc
  refine ⟨false, c, ?_, by rw [hc]; exact h⟩
  cases vs with
  | nil => simp [Parser.accept, Cursor.tokens_of_values_nil hc]
  | cons v vs =>
      obtain ⟨u, us, htok, rfl, -⟩ := Cursor.tokens_of_values_cons hc
      have hu : u.value ≠ t := by simpa using hne
      simp [Parser.accept, htok, hu]

/-- A required token was there if reading it succeeded, and what is left is what stood behind it. -/
theorem Ensures.expect {t : Token} {vs : List Token} {K : Unit → List Token → Prop}
    (h : ∀ us, vs = t :: us → K () us) : Ensures (expect t) vs K := by
  unfold Parser.expect
  refine .bind ?_
  cases vs with
  | nil => exact .next_nil
  | cons v vs =>
      refine .next ?_
      -- any other token is a failure, which ensures whatever is asked for
      by_cases hv : v = t
      · subst hv
        rw [if_pos rfl]
        exact .pure (h vs rfl)
      · rw [if_neg hv]
        exact .fail

theorem Accepts.expect {t : Token} {ts : List Token} {K : Unit → List Token → Prop}
    (h : K () ts) : Accepts (expect t) (t :: ts) K := by
  unfold Parser.expect
  refine .bind (.next ?_)
  rw [if_pos rfl]
  exact .pure h

/-- Where a name was read, the tokens began with an identifier, and the name is its text. -/
theorem Ensures.identifier {vs : List Token} {K : String → List Token → Prop}
    (h : ∀ name us, vs = .id name :: us → K name us) : Ensures identifier vs K := by
  unfold Parser.identifier
  refine .bind ?_
  cases vs with
  | nil => exact .next_nil
  | cons v vs =>
      refine .next ?_
      split
      · next name => exact .pure (h name vs rfl)
      · exact .fail

theorem Accepts.identifier {name : String} {ts : List Token} {K : String → List Token → Prop}
    (h : K name ts) : Accepts identifier (.id name :: ts) K :=
  .bind (.next (.pure h))

/-- Where a number was read, the tokens began with a literal of that value. -/
theorem Ensures.literal {vs : List Token} {K : Word → List Token → Prop}
    (h : ∀ n us, vs = .number n :: us → K n us) : Ensures literal vs K := by
  unfold Parser.literal
  refine .bind ?_
  cases vs with
  | nil => exact .next_nil
  | cons v vs =>
      refine .next ?_
      split
      · next n => exact .pure (h n vs rfl)
      · exact .fail

theorem Accepts.literal {n : Word} {ts : List Token} {K : Word → List Token → Prop}
    (h : K n ts) : Accepts literal (.number n :: ts) K :=
  .bind (.next (.pure h))

/-! ## Looking ahead, positions and line breaks -/

/--
Trying a parser: either it succeeded, and its outcome is that of the attempt; or it does not accept
these tokens, and nothing is read. The second hypothesis is about every cursor with these tokens,
not only the one at hand, since positions never decide between success and failure.
-/
theorem Ensures.attempt {p : Parser α} {vs : List Token} {K : Option α → List Token → Prop}
    (hsome : Ensures p vs fun a us => K (some a) us)
    (hnone : (¬ Accepts p vs fun _ _ => True) → K none vs) : Ensures (attempt p) vs K := by
  intro c r c' hc hr
  unfold Parser.attempt at hr
  cases hp : p c with
  | ok ac =>
      obtain ⟨a, c₁⟩ := ac
      rw [hp] at hr
      cases hr
      exact hsome c a _ hc hp
  | error e =>
      rw [hp] at hr
      cases hr
      rw [hc]
      -- accepting these tokens would mean to succeed from this very cursor
      refine hnone fun hacc => ?_
      obtain ⟨a, c₁, hok, -⟩ := hacc c hc
      rw [hp] at hok
      cases hok

theorem Accepts.attempt_some {p : Parser α} {vs : List Token} {K : Option α → List Token → Prop}
    (h : Accepts p vs fun a us => K (some a) us) : Accepts (attempt p) vs K := by
  intro c hc
  obtain ⟨a, c', hp, hK⟩ := h c hc
  exact ⟨some a, c', by simp [Parser.attempt, hp], hK⟩

/-- An attempt at something that is rejected succeeds too, having read nothing. -/
theorem Accepts.attempt_none {p : Parser α} {vs : List Token} {K : Option α → List Token → Prop}
    (hrej : Rejects p vs) (h : K none vs) : Accepts (attempt p) vs K := by
  intro c hc
  refine ⟨none, c, ?_, by rw [hc]; exact h⟩
  unfold Parser.attempt
  -- a success would contradict the rejection; an error is turned into no result
  cases hp : p c with
  | ok ac => exact (hrej c ac.1 ac.2 hc hp).elim
  | error e => rfl

/--
The number of remaining tokens is the number of their values; it bounds the loops of the parsers.
-/
theorem Ensures.remaining {vs : List Token} {K : Nat → List Token → Prop}
    (h : K vs.length vs) : Ensures remaining vs K := by
  intro c n c' hc hn
  cases hn
  rw [hc, show c.tokens.length = vs.length from by rw [← hc, Cursor.values, List.length_map]]
  exact h

theorem Accepts.remaining {vs : List Token} {K : Nat → List Token → Prop}
    (h : K vs.length vs) : Accepts remaining vs K := by
  intro c hc
  refine ⟨c.tokens.length, c, rfl, ?_⟩
  rw [hc, show c.tokens.length = vs.length from by rw [← hc, Cursor.values, List.length_map]]
  exact h

/-- The span ahead is that of the next token, and without one that of the last token read. -/
theorem peekSpan_eq (c : Cursor) : peekSpan c = .ok (c.ahead, c) := by
  unfold Parser.peekSpan Cursor.ahead
  cases c.tokens <;> rfl

/--
Nothing is known of a span here: an outcome that is to be ensured has to hold for all of them.
-/
theorem Ensures.peekSpan {vs : List Token} {K : Span → List Token → Prop}
    (h : ∀ span, K span vs) : Ensures peekSpan vs K := by
  intro c span c' hc hp
  rw [peekSpan_eq] at hp
  cases hp
  rw [hc]
  exact h c.ahead

theorem Accepts.peekSpan {vs : List Token} {K : Span → List Token → Prop}
    (h : ∀ span, K span vs) : Accepts peekSpan vs K := by
  intro c hc
  exact ⟨c.ahead, c, peekSpan_eq c, by rw [hc]; exact h c.ahead⟩

/-- Adding a span to a result changes neither the result nor what is read. -/
theorem Ensures.spanned {p : Parser α} {vs : List Token} {K : Located α → List Token → Prop}
    (h : Ensures p vs fun a us => ∀ span, K ⟨a, span⟩ us) : Ensures (spanned p) vs K := by
  unfold Parser.spanned
  refine .bind (.peekSpan fun start => .bind (h.mono fun a us hK => ?_))
  -- the last step only looks up where reading has come to
  intro c b c' hc hb
  cases hb
  rw [hc]
  exact hK _

theorem Accepts.spanned {p : Parser α} {vs : List Token} {K : Located α → List Token → Prop}
    (h : Accepts p vs fun a us => ∀ span, K ⟨a, span⟩ us) : Accepts (spanned p) vs K := by
  unfold Parser.spanned
  refine .bind (.peekSpan fun start => .bind (h.mono fun a us hK => ?_))
  intro c hc
  exact ⟨_, c, rfl, by rw [hc]; exact hK _⟩

/-- The tokens after the line breaks at their front. -/
def dropNewlines (vs : List Token) : List Token := vs.dropWhile (· = .newline)

/-- Skipping line breaks, seen on values: all newlines at the front go, and only those. -/
theorem values_afterNewlines (last : Span) (ts : List (Located Token)) :
    (afterNewlines last ts).values = dropNewlines (ts.map Located.value) := by
  induction ts generalizing last with
  | nil => rfl
  | cons t ts ih =>
      unfold afterNewlines
      -- newlines are dropped one by one; the first other token ends that
      by_cases ht : t.value = .newline
      · rw [if_pos ht, ih]
        simp [dropNewlines, ht]
      · rw [if_neg ht]
        simp [dropNewlines, ht, Cursor.values]

theorem Ensures.skipNewlines {vs : List Token} {K : Unit → List Token → Prop}
    (h : K () (dropNewlines vs)) : Ensures skipNewlines vs K := by
  intro c u c' hc hp
  cases hp
  rw [values_afterNewlines, show c.tokens.map Located.value = vs from hc]
  exact h

theorem Accepts.skipNewlines {vs : List Token} {K : Unit → List Token → Prop}
    (h : K () (dropNewlines vs)) : Accepts skipNewlines vs K := by
  intro c hc
  refine ⟨(), afterNewlines c.last c.tokens, rfl, ?_⟩
  rw [values_afterNewlines, show c.tokens.map Located.value = vs from hc]
  exact h

end Parser

end Quadword
