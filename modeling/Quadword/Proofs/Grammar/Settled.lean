import Quadword.Proofs.Grammar.Program

/-!
# What the tokens read so far settle

A parser looks at its tokens from left to right and one token ahead, so what it has done by some
token does not depend on what comes later. Of a run that succeeds this is said for all tokens with
the same front and the same next token; of a run that fails at a token, for all tokens with the same
front up to and including that one (`Settles`).

Both are statements about another run, on tokens of another length. The bounds on nesting and
repetition come from that length, so the other run is one of a whole family of parsers, which differ
in nothing but their bounds.

There is one exception, the parenthesis after `place =`. What it opens is decided by tokens far
behind it, and if it turns out not to be a choice then it is read again as a value, so that a run
may fail at a token which other tokens behind it would have made part of a choice. The judgement has
a parameter for such excuses (`Excuse`), and only `chosen_settles` uses it.

There is one rule for each way to build a parser, as there is for `Ensures` and `Accepts`.
-/

namespace Quadword

open Grammar

namespace Parser

/--
Circumstances under which a failure need not be final: what was asked for, the tokens before the one
that was found, and that one.
-/
abbrev Excuse := Expectation → List Token → Token → Prop

/-- The excuse for what is read after the tokens `us`. -/
def Excuse.after (X : Excuse) (us : List (Located Token)) : Excuse :=
  fun e vs found => X e (us.map Located.value ++ vs) found

/--
The run of `p` from `c` settles what the parsers `q` do on other tokens. If it succeeds, then each
of them, on tokens with the same front up to the token after those that `p` has read, reads the same
or fails. If it fails because of a token, then all of them fail on tokens with the same front up to
that token, unless there is an excuse.
-/
structure Settles {ι α β : Type} (p : Parser α) (q : ι → Parser β) (S : α → β → Prop) (X : Excuse)
    (c : Cursor) : Prop where
  agrees : ∀ a c', p c = .ok (a, c') → ∃ us, c.tokens = us ++ c'.tokens ∧
    ∀ i tail, tail.head? = c'.values.head? →
      Ensures (q i) (us.map Located.value ++ tail) fun b ws => S a b ∧ ws = tail
  blames : ∀ e found l, p c = .error ⟨.expected e found, l⟩ →
    ∃ us more, c.tokens = us ++ ⟨found, l⟩ :: more ∧
      ((∀ i rest, Rejects (q i) (us.map Located.value ++ found :: rest)) ∨
        X e (us.map Located.value) found)

/-- The parser settles what it does itself. -/
abbrev SettlesSelf {α : Type} (p : Parser α) (X : Excuse) (c : Cursor) : Prop :=
  Settles p (fun _ : Unit => p) Eq X c

/-- The two values are the same, wherever they stand. -/
def SameValue {α : Type} (a b : Located α) : Prop := a.value = b.value

section Rules

variable {ι κ α β γ δ : Type} {X : Excuse} {c : Cursor}

/-! ## Consequence -/

/-- The parsers of another family are settled too if each is among those, or never succeeds. -/
theorem Settles.cover {p : Parser α} {q : ι → Parser β} {r : κ → Parser β} {S : α → β → Prop}
    (h : Settles p q S X c) (hr : ∀ j, (∃ i, r j = q i) ∨ ∀ vs, Rejects (r j) vs) :
    Settles p r S X c where
  agrees := by
    intro a c' hp
    obtain ⟨us, hus, hq⟩ := h.agrees a c' hp
    refine ⟨us, hus, fun j tail htail => ?_⟩
    -- a parser of the new family is one of the old, or it never succeeds
    rcases hr j with ⟨i, hi⟩ | hrej
    · rw [hi]
      exact hq i tail htail
    · exact (hrej _).mono fun _ _ hfalse => hfalse.elim
  blames := by
    intro e found l hp
    obtain ⟨us, more, hus, hq⟩ := h.blames e found l hp
    refine ⟨us, more, hus, hq.imp_left fun hall j rest => ?_⟩
    rcases hr j with ⟨i, hi⟩ | hrej
    · rw [hi]
      exact hall i rest
    · exact hrej _

/-- A family may be indexed anew, so that it has the shape that the next rule asks for. -/
theorem Settles.reindex {p : Parser α} {q : ι → Parser β} {S : α → β → Prop}
    (h : Settles p q S X c) (r : κ → ι) : Settles p (fun j => q (r j)) S X c :=
  h.cover fun j => .inl ⟨r j, rfl⟩

/-! ## Sequencing -/

theorem bind_ok {p : Parser α} {f : α → Parser γ} {a : α} {c' : Cursor} (h : p c = .ok (a, c')) :
    (p >>= f) c = f a c' := by
  rw [bind_apply, h]

theorem bind_error {p : Parser α} {f : α → Parser γ} {e : Located ParseError}
    (h : p c = .error e) : (p >>= f) c = .error e := by
  rw [bind_apply, h]

/--
Other tokens that go on after `us` with the same token as `c` start with the same token as `c`.
-/
theorem head?_eq_of_tokens {us more : List (Located Token)} {ws : List Token}
    (hus : c.tokens = us ++ more) (hws : ws.head? = (more.map Located.value).head?) :
    (us.map Located.value ++ ws).head? = c.values.head? := by
  rw [Cursor.values, hus, List.map_append, List.head?_append, List.head?_append, hws]

/--
What is read next is settled if it is for all the values that the parsers of the family can have
returned.
-/
theorem Settles.bind {p : Parser α} {q : ι → Parser β} {f : α → Parser γ} {g : ι → β → Parser δ}
    {S : α → β → Prop} {T : γ → δ → Prop} (hp : Settles p q S X c)
    (hf : ∀ a c' us, p c = .ok (a, c') → c.tokens = us ++ c'.tokens →
      Settles (f a) (fun x : ι × { b // S a b } => g x.1 x.2.1) T (X.after us) c') :
    Settles (p >>= f) (fun i => q i >>= g i) T X c where
  agrees := by
    intro r c'' hr
    -- the first part has to succeed, since the whole does
    cases hpc : p c with
    | error e => rw [bind_error hpc] at hr; cases hr
    | ok ac =>
        obtain ⟨a, c'⟩ := ac
        rw [bind_ok hpc] at hr
        obtain ⟨us, hus, hq⟩ := hp.agrees a c' hpc
        obtain ⟨us', hus', hg⟩ := (hf a c' us hpc hus).agrees r c'' hr
        refine ⟨us ++ us', by rw [hus, hus', List.append_assoc], fun i tail htail => .bind ?_⟩
        rw [List.map_append, List.append_assoc]
        -- the first parser sees the front of what the second one reads
        have hhead : (us'.map Located.value ++ tail).head? = c'.values.head? :=
          head?_eq_of_tokens hus' htail
        refine (hq i _ hhead).mono fun b ws hb => ?_
        obtain ⟨hS, rfl⟩ := hb
        exact hg (i, ⟨b, hS⟩) tail htail
  blames := by
    intro e found l hr
    cases hpc : p c with
    -- the first part blames the token, and the second is never run
    | error err =>
        rw [bind_error hpc] at hr
        cases hr
        obtain ⟨us, more, hus, hq⟩ := hp.blames e found l hpc
        exact ⟨us, more, hus, hq.imp_left fun hall i rest => .bind ((hall i rest).mono
          fun _ _ hfalse => hfalse.elim)⟩
    | ok ac =>
        obtain ⟨a, c'⟩ := ac
        rw [bind_ok hpc] at hr
        obtain ⟨us, hus, hq⟩ := hp.agrees a c' hpc
        obtain ⟨us', more, hus', hg⟩ := (hf a c' us hpc hus).blames e found l hr
        refine ⟨us ++ us', more, by rw [hus, hus', List.append_assoc], ?_⟩
        rw [List.map_append]
        refine hg.imp_left fun hall i rest => .bind ?_
        rw [List.append_assoc]
        have hhead : (us'.map Located.value ++ found :: rest).head? = c'.values.head? :=
          head?_eq_of_tokens hus' rfl
        refine (hq i _ hhead).mono fun b ws hb => ?_
        obtain ⟨hS, rfl⟩ := hb
        exact hall (i, ⟨b, hS⟩) rest

/-- Sequencing where the values are the same. -/
theorem Settles.andThen {p : Parser α} {q : ι → Parser α} {f : α → Parser γ}
    {g : ι → α → Parser δ} {T : γ → δ → Prop} (hp : Settles p q Eq X c)
    (hf : ∀ a c' us, p c = .ok (a, c') → c.tokens = us ++ c'.tokens →
      Settles (f a) (fun i => g i a) T (X.after us) c') :
    Settles (p >>= f) (fun i => q i >>= g i) T X c :=
  hp.bind fun a c' us hpc hus => (hf a c' us hpc hus).cover fun x =>
    .inl ⟨x.1, by rw [← x.2.2]⟩

/--
Returning a value settles it: every parser of the family returns a related one and reads nothing.
-/
theorem Settles.pure {a : α} {b : ι → β} {S : α → β → Prop} (h : ∀ i, S a (b i)) :
    Settles (Pure.pure a) (fun i => Pure.pure (b i)) S X c where
  agrees := by
    intro a' c' hp
    cases hp
    exact ⟨[], rfl, fun i tail _ => .pure ⟨h i, rfl⟩⟩
  blames := by
    intro e found l hp
    cases hp

/-- A failure that blames no token settles everything. -/
theorem Settles.of_error {p : Parser α} {q : ι → Parser β} {S : α → β → Prop}
    {err : Located ParseError} (hp : p c = .error err)
    (herr : ∀ e found, err.value ≠ .expected e found) : Settles p q S X c where
  agrees := by
    intro a c' hok
    rw [hp] at hok
    cases hok
  blames := by
    intro e found l hfail
    rw [hp] at hfail
    cases hfail
    exact absurd rfl (herr e found)

/-- A failure that is not about a token, such as an offset out of bounds, blames none. -/
theorem Settles.fail {q : ι → Parser β} {S : α → β → Prop} {err : ParseError}
    (herr : ∀ e found, err ≠ .expected e found) : Settles (fail err) q S X c :=
  .of_error rfl herr

theorem Settles.throw {q : ι → Parser β} {S : α → β → Prop} {err : Located ParseError}
    (herr : ∀ e found, err.value ≠ .expected e found) :
    Settles (MonadExcept.throw err) q S X c :=
  .of_error rfl herr

/-- Sequencing after a step that is known to succeed, and to do the same in all the other runs. -/
theorem Settles.step {p : Parser α} {q : ι → Parser α} {f : α → Parser γ} {g : ι → α → Parser δ}
    {T : γ → δ → Prop} {a : α} {c' : Cursor} (us : List (Located Token))
    (hp : p c = .ok (a, c')) (hus : c.tokens = us ++ c'.tokens)
    (hq : ∀ i tail, tail.head? = c'.values.head? →
      Accepts (q i) (us.map Located.value ++ tail) fun b ws => a = b ∧ ws = tail)
    (hf : Settles (f a) (fun i => g i a) T (X.after us) c') :
    Settles (p >>= f) (fun i => q i >>= g i) T X c := by
  -- the first parser has succeeded here, so there is only one way for it to go
  have hself : Settles p q Eq X c := by
    refine ⟨fun b c₁ hb => ?_, fun e found l hb => ?_⟩
    · rw [hp] at hb
      cases hb
      exact ⟨us, hus, fun i tail htail => (hq i tail htail).ensures⟩
    · rw [hp] at hb
      cases hb
  refine hself.andThen fun b c₁ us' hb hus' => ?_
  rw [hp] at hb
  cases hb
  obtain rfl : us' = us := List.append_cancel_right (hus'.symm.trans hus)
  exact hf

/-! ## Single tokens -/

theorem peek_nil (htok : c.tokens = []) : peek c = .error ⟨.abruptEnd, c.last⟩ := by
  rw [Parser.peek, htok]

theorem peek_cons {t : Located Token} {ts : List (Located Token)} (htok : c.tokens = t :: ts) :
    peek c = .ok (t.value, c) := by
  rw [Parser.peek, htok]

theorem next_nil (htok : c.tokens = []) : next c = .error ⟨.abruptEnd, c.last⟩ := by
  rw [Parser.next, htok]

theorem next_cons {t : Located Token} {ts : List (Located Token)} (htok : c.tokens = t :: ts) :
    next c = .ok (t.value, ⟨ts, t.span⟩) := by
  rw [Parser.next, htok]

/-- Looking at the next token reads nothing, and other runs see the same token. -/
theorem Settles.peek {f : Token → Parser α} {g : ι → Token → Parser β} {S : α → β → Prop}
    (h : ∀ t ts, c.tokens = t :: ts → Settles (f t.value) (fun i => g i t.value) S X c) :
    Settles (peek >>= f) (fun i => peek >>= g i) S X c := by
  cases htok : c.tokens with
  | nil => exact .of_error (bind_error (peek_nil htok)) (by simp)
  | cons t ts =>
      refine .step [] (peek_cons htok) rfl (fun _ tail htail => ?_) (h t ts htok)
      rw [Cursor.values, htok] at htail
      obtain ⟨rest, rfl⟩ := List.head?_eq_some_iff.mp htail
      exact .peek ⟨rfl, rfl⟩

/-- The next token is either blamed, and no other run accepts it there, or it is read. -/
theorem Settles.next {f : Token → Parser α} {g : ι → Token → Parser β} {S : α → β → Prop}
    (h : ∀ t ts, c.tokens = t :: ts →
      (∃ e, f t.value = Parser.fail (.expected e t.value)) ∧
          (∀ i vs, Rejects (g i t.value) vs) ∨
        Settles (f t.value) (fun i => g i t.value) S (X.after [t]) ⟨ts, t.span⟩) :
    Settles (next >>= f) (fun i => next >>= g i) S X c := by
  cases htok : c.tokens with
  | nil => exact .of_error (bind_error (next_nil htok)) (by simp)
  | cons t ts =>
      have hnext := next_cons htok
      -- the token is blamed in every run, or read in every run
      rcases h t ts htok with ⟨⟨e, hfail⟩, hrej⟩ | hread
      · refine ⟨fun a c' hp => ?_, fun e' found l hp => ?_⟩
        · rw [bind_ok hnext, hfail] at hp
          cases hp
        · rw [bind_ok hnext, hfail] at hp
          cases hp
          exact ⟨[], ts, htok, .inl fun i rest => .bind (.next (hrej i rest))⟩
      · exact .step [t] hnext htok (fun _ _ _ => .next ⟨rfl, rfl⟩) hread

/-- A token that was looked at already is read and blamed. -/
theorem Settles.blame {e : Expectation} {v : Token} {t : Located Token} {ts : List (Located Token)}
    {S : α → β → Prop} (htok : c.tokens = t :: ts) (hv : t.value = v) :
    Settles (Parser.next >>= fun _ => Parser.fail (.expected e v))
      (fun _ : ι => Parser.next >>= fun _ => Parser.fail (.expected e v)) S X c := by
  refine .next fun u us hus => .inl ⟨⟨e, ?_⟩, fun _ _ => .fail⟩
  rw [htok, List.cons.injEq] at hus
  rw [← hus.1, hv]

/-- An optional token that is not next leaves the cursor alone. -/
theorem accept_other {t : Token} (h : c.values.head? ≠ some t) : accept t c = .ok (false, c) := by
  unfold Parser.accept
  cases htok : c.tokens with
  | nil => rfl
  | cons u us =>
      rw [Cursor.values, htok] at h
      exact if_neg (by simpa using h)

/-- A token that may be left out is read if it is the next one. -/
theorem Settles.accept {t : Token} {f : Bool → Parser α} {g : ι → Bool → Parser β}
    {S : α → β → Prop}
    (hyes : ∀ l ts, c.tokens = ⟨t, l⟩ :: ts →
      Settles (f true) (fun i => g i true) S (X.after [⟨t, l⟩]) ⟨ts, l⟩)
    (hno : Settles (f false) (fun i => g i false) S X c) :
    Settles (accept t >>= f) (fun i => accept t >>= g i) S X c := by
  -- whether the token is there is the same in all runs, as they share the next token
  by_cases hhead : c.values.head? = some t
  · obtain ⟨ts, hts⟩ := List.head?_eq_some_iff.mp hhead
    obtain ⟨u, us, htok, rfl, -⟩ := Cursor.tokens_of_values_cons hts
    have hacc : Parser.accept u.value c = .ok (true, ⟨us, u.span⟩) := by
      simp [Parser.accept, htok]
    exact .step [u] hacc htok (fun _ _ _ => .accept_self ⟨rfl, rfl⟩) (hyes u.span us htok)
  · refine .step [] (accept_other hhead) rfl (fun _ tail htail => ?_) hno
    rw [← htail] at hhead
    exact .accept_other hhead ⟨rfl, rfl⟩

/--
A required token: if it is there every other run reads it too, and if another one is there every
other run blames that one.
-/
theorem expect_settles (t : Token) :
    Settles (expect t) (fun _ : ι => expect t) Eq X c := by
  unfold Parser.expect
  refine .next fun u us _ => ?_
  -- the token itself, or one that is blamed in its place
  by_cases hu : u.value = t
  · right
    rw [if_pos hu]
    exact .pure fun _ => rfl
  · left
    rw [if_neg hu]
    exact ⟨⟨_, rfl⟩, fun _ _ => .fail⟩

/-- A name is settled by the token that it is, or that stands in its place. -/
theorem identifier_settles : Settles identifier (fun _ : ι => identifier) Eq X c := by
  unfold Parser.identifier
  refine .next fun t ts _ => ?_
  cases t.value with
  | id name => exact .inr (.pure fun _ => rfl)
  | _ => exact .inl ⟨⟨_, rfl⟩, fun _ _ => .fail⟩

theorem literal_settles : Settles literal (fun _ : ι => literal) Eq X c := by
  unfold Parser.literal
  refine .next fun t ts _ => ?_
  cases t.value with
  | number n => exact .inr (.pure fun _ => rfl)
  | _ => exact .inl ⟨⟨_, rfl⟩, fun _ _ => .fail⟩

/-! ## Lengths and positions -/

/-- The number of tokens that are left is different in every run. -/
theorem Settles.remaining {f : Nat → Parser α} {g : ι → Nat → Parser β} {S : α → β → Prop}
    (h : Settles (f c.tokens.length) (fun x : ι × Nat => g x.1 x.2) S X c) :
    Settles (remaining >>= f) (fun i => remaining >>= g i) S X c := by
  refine ⟨fun a c' hp => ?_, fun e found l hp => ?_⟩
  · obtain ⟨us, hus, hq⟩ := h.agrees a c' hp
    exact ⟨us, hus, fun i tail htail => .bind (.remaining (hq (i, _) tail htail))⟩
  · obtain ⟨us, more, hus, hq⟩ := h.blames e found l hp
    exact ⟨us, more, hus, hq.imp_left fun hall i rest => .bind (.remaining (hall (i, _) rest))⟩

/-- The span of what is read goes from the next token to the token that is read last. -/
theorem spanned_eq (p : Parser α) (c : Cursor) :
    spanned p c = match p c with
      | .ok (a, c') => .ok (⟨a, c.ahead.join c'.last⟩, c')
      | .error e => .error e := by
  rw [Parser.spanned, bind_ok (peekSpan_eq c), bind_apply]
  cases p c with
  | error e => rfl
  | ok ac => rfl

/--
Spans are left out of the comparison, because other runs have other positions; the values are
settled as before.
-/
theorem Settles.spanned {p : Parser α} {q : ι → Parser α} (h : Settles p q Eq X c) :
    Settles (spanned p) (fun i => spanned (q i)) SameValue X c := by
  have hspan := spanned_eq p c
  refine ⟨fun a c' hp => ?_, fun e found l hp => ?_⟩
  · rw [hspan] at hp
    cases hpc : p c with
    | error e => rw [hpc] at hp; cases hp
    | ok ac =>
        rw [hpc] at hp
        cases hp
        -- spans are not compared, so the values are those of the parser itself
        obtain ⟨us, hus, hq⟩ := h.agrees _ _ hpc
        refine ⟨us, hus, fun i tail htail => .spanned ((hq i tail htail).mono fun b ws hb _ => ?_)⟩
        exact hb
  · rw [hspan] at hp
    cases hpc : p c with
    | ok ac => rw [hpc] at hp; cases hp
    | error err =>
        rw [hpc] at hp
        cases hp
        obtain ⟨us, more, hus, hq⟩ := h.blames e found l hpc
        exact ⟨us, more, hus, hq.imp_left fun hall i rest => .spanned ((hall i rest).mono
          fun _ _ hfalse => hfalse.elim)⟩

/-- Where the parser succeeds, what it leaves is the end of what it was given. -/
def Drops (p : Parser α) : Prop :=
  ∀ c a c', p c = .ok (a, c') → ∃ us, c.tokens = us ++ c'.tokens

/--
A parser that settles anything at all leaves an end of what it was given, whatever excuse is
granted.
-/
theorem Settles.drops {p : Parser α} {q : ι → Parser β} {S : α → β → Prop}
    (h : ∀ c, Settles p q S (fun _ _ _ => False) c) : Drops p := by
  intro c a c' hp
  obtain ⟨us, hus, -⟩ := (h c).agrees a c' hp
  exact ⟨us, hus⟩

end Rules

/-! ## References -/

section Expressions

variable {ι κ : Type} {X : Excuse} {c : Cursor}

/--
An offset is a literal, which is settled; and whether it is within bounds depends on its value
alone.
-/
theorem offset_settles : Settles offset (fun _ : ι => offset) Eq X c := by
  unfold Parser.offset
  refine literal_settles.andThen fun n c' us _ _ => ?_
  by_cases hn : n.toNat ≤ Slot.maxOffset
  · rw [if_pos hn]
    exact .pure fun _ => rfl
  · rw [if_neg hn]
    exact .fail (by simp)

/-- A base is one token, and the three words are read in every run. -/
theorem space_settles : Settles space (fun _ : ι => space) Eq X c := by
  unfold Parser.space
  refine .next fun t ts _ => ?_
  cases t.value with
  | keyword k =>
      cases k with
      | sp => exact .inr (.pure fun _ => rfl)
      | data => exact .inr (.pure fun _ => rfl)
      | const => exact .inr (.pure fun _ => rfl)
      | _ => exact .inl ⟨⟨_, rfl⟩, fun _ _ => .fail⟩
  | _ => exact .inl ⟨⟨_, rfl⟩, fun _ _ => .fail⟩

/-- Whether an offset is left out is decided by the next token, which all runs share. -/
theorem optionalOffset_settles : Settles optionalOffset (fun _ : ι => optionalOffset) Eq X c :=
  .accept (fun _ _ _ => offset_settles) (.pure fun _ => rfl)

/-- A slot is read token by token, so it is settled as soon as its closing bracket is. -/
theorem slot_settles : Settles slot (fun _ : ι => slot) Eq X c := by
  unfold Parser.slot
  refine .next fun t ts _ => ?_
  cases t.value with
  -- the form that spells everything out, and then the short one with a letter
  | openSquare =>
      right
      refine space_settles.andThen fun space c₁ us₁ _ _ => ?_
      refine optionalOffset_settles.andThen fun offset c₂ us₂ _ _ => ?_
      exact (expect_settles _).andThen fun _ c₃ us₃ _ _ => .pure fun _ => rfl
  | id name =>
      dsimp only
      cases Space.ofLetter? name with
      | none => exact .inl ⟨⟨_, rfl⟩, fun _ _ => .fail⟩
      | some space =>
          right
          refine (expect_settles _).andThen fun _ c₁ us₁ _ _ => ?_
          refine offset_settles.andThen fun offset c₂ us₂ _ _ => ?_
          exact (expect_settles _).andThen fun _ c₃ us₃ _ _ => .pure fun _ => rfl
  | _ => exact .inl ⟨⟨_, rfl⟩, fun _ _ => .fail⟩

/-! ## Expressions -/

/--
The check of a role looks at the value only, and values are the same in all runs. It reports a span
and no token, so a failure of it settles everything.
-/
theorem Settles.constrain {role : Role} {p : Parser (Located Expr)} {q : ι → Parser (Located Expr)}
    (h : Settles p q SameValue X c) :
    Settles (constrain role p) (fun i => constrain role (q i)) Eq X c := by
  unfold Parser.constrain
  refine h.bind fun a c' us _ _ => ?_
  -- the check and what it lets pass depend on the value alone
  have hvalue : ∀ x : ι × { b // SameValue a b }, x.2.1.value = a.value := fun x => x.2.2.symm
  simp only [hvalue]
  -- what the role admits is the same everywhere, since it is about the value
  by_cases hrole : role.admits a.value
  · simp only [if_pos hrole]
    exact .pure fun _ => rfl
  · simp only [if_neg hrole]
    exact .throw (by simp)

/-- The parser settles what the family does, from wherever it starts and with any excuse. -/
abbrev SettlesExpr (nested : Parser (Located Expr)) (N : κ → Parser (Located Expr)) : Prop :=
  ∀ X c, Settles nested N SameValue X c

/-- An access through an address, if what reads the address settles it in a family of parsers. -/
theorem indirect_settles {nested : Parser (Located Expr)} {N : κ → Parser (Located Expr)}
    (hn : SettlesExpr nested N) : Settles (indirect nested) (fun k => indirect (N k)) Eq X c := by
  unfold Parser.indirect
  refine .next fun t ts _ => .inr ?_
  refine (expect_settles _).andThen fun _ c₁ us₁ _ _ => ?_
  refine (hn _ _).constrain.andThen fun address c₂ us₂ _ _ => ?_
  exact (expect_settles _).andThen fun _ c₃ us₃ _ _ => .pure fun _ => rfl

/--
An operand without unary operators. The token that it starts with is the same in every run, and so
all of them take the same case.
-/
theorem primary_settles {nested : Parser (Located Expr)} {N : κ → Parser (Located Expr)}
    (hn : SettlesExpr nested N) : Settles (primary nested) (fun k => primary (N k)) Eq X c := by
  unfold Parser.primary
  refine .peek fun t ts htok => ?_
  have hslot : ∀ X, Settles (slot >>= fun s => Pure.pure (Expr.slot s))
      (fun _ : κ => slot >>= fun s => Pure.pure (Expr.slot s)) Eq X c := fun X =>
    slot_settles.andThen fun s c' us _ _ => .pure fun _ => rfl
  cases hv : t.value with
  | number n =>
      refine .next fun t ts _ => .inr ?_
      exact .accept (fun _ _ _ => .pure fun _ => rfl) (.pure fun _ => rfl)
  | keyword k =>
      cases k with
      | sp => exact .next fun t ts _ => .inr (.pure fun _ => rfl)
      | data => exact .next fun t ts _ => .inr (.pure fun _ => rfl)
      | const => exact .next fun t ts _ => .inr (.pure fun _ => rfl)
      | _ => exact .blame htok hv
  | openParen =>
      refine .next fun t ts _ => .inr ((hn _ _).bind fun e c₁ us₁ _ _ => ?_)
      refine (expect_settles _).andThen fun _ c₂ us₂ _ _ => ?_
      exact .pure fun x => x.2.2
  | openSquare => exact hslot X
  -- a name is that of a width, in front of an address, or the letter of a slot
  | id name =>
      dsimp only
      cases Width.ofName? name with
      | none => exact hslot X
      | some width =>
          exact (indirect_settles hn).andThen fun address c₁ us₁ _ _ => .pure fun _ => rfl
  | _ => exact .blame htok hv

/-- The loop over operators, with its bounds and those of the operands in every run. -/
theorem operations_settles {operand : Parser Expr} {O : κ → Parser Expr}
    (ho : ∀ X c, Settles operand O Eq X c) (bound : Nat) :
    ∀ (left : Expr) (X : Excuse) (c : Cursor),
      Settles (operations operand bound left) (fun x : κ × Nat => operations (O x.1) x.2 left)
        Eq X c := by
  induction bound with
  | zero => intro left X c; exact .fail (by simp)
  | succ bound ih =>
      intro left X c
      -- a run with no round left does not succeed
      suffices h : Settles (operations operand (bound + 1) left)
          (fun x : κ × Nat => operations (O x.1) (x.2 + 1) left) Eq X c by
        refine h.cover fun x => ?_
        obtain ⟨k, m⟩ := x
        cases m with
        | zero => exact .inr fun _ => .fail
        | succ m => exact .inl ⟨(k, m), rfl⟩
      simp only [operations.eq_2]
      refine .peek fun t ts _ => ?_
      -- an operator goes on in every run, and anything else ends the loop in every run
      cases t.value with
      | binary op =>
          refine .next fun t ts _ => .inr ?_
          exact ((ho _ _).reindex Prod.fst).andThen fun right c₁ us₁ _ _ => ih _ _ _
      | _ => exact .pure fun _ => rfl

/--
A run of operands, for any bound in the one run and any bounds in the others. A family of families:
the operands have bounds of their own.
-/
theorem chain_settles {operand : Parser Expr} {O : κ → Parser Expr}
    (ho : ∀ X c, Settles operand O Eq X c) (bound : Nat) :
    SettlesExpr (chain operand bound) (fun x : κ × Nat => chain (O x.1) x.2) := by
  intro X c
  unfold Parser.chain
  refine .spanned (((ho _ _).reindex Prod.fst).andThen fun first c₁ us₁ _ _ => ?_)
  exact operations_settles ho bound first _ _

/--
**The bound on the nesting is settled too**: the run with one bound settles what the runs with all
other bounds do. Those that give up earlier fail without blaming a token, which `Settles` allows of
the other runs but never of success.
-/
theorem unary_settles (depth : Nat) : ∀ X c, Settles (unary depth) unary Eq X c := by
  induction depth with
  | zero => intro X c; exact .fail (by simp)
  | succ depth ih =>
      intro X c
      -- a run with no level left fails, so only the others have to be looked at
      suffices h : Settles (unary (depth + 1)) (fun k => unary (k + 1)) Eq X c by
        refine h.cover fun k => ?_
        cases k with
        | zero => exact .inr fun _ => .fail
        | succ k => exact .inl ⟨k, rfl⟩
      -- both the nesting and the number of operands go with the level
      have hprimary : Settles (primary (chain (unary depth) depth))
          (fun k => primary (chain (unary k) k)) Eq X c :=
        primary_settles fun X c => (chain_settles ih depth X c).reindex fun k => (k, k)
      simp only [unary.eq_2]
      refine .peek fun t ts _ => ?_
      cases t.value with
      | binary op =>
          cases op with
          | sub =>
              refine .next fun t ts _ => .inr ((ih _ _).andThen fun e c₁ us₁ _ _ => ?_)
              exact .pure fun _ => rfl
          | _ => exact hprimary
      | tilde =>
          refine .next fun t ts _ => .inr ((ih _ _).andThen fun e c₁ us₁ _ _ => ?_)
          exact .pure fun _ => rfl
      | _ => exact hprimary

/-- A whole expression, where every run has the bound that its own number of tokens gives. -/
theorem expression_settles : SettlesExpr expression (fun _ : ι => expression) := by
  intro X c
  unfold Parser.expression
  exact .remaining ((chain_settles (unary_settles _) _ X c).reindex fun x : ι × Nat => (x.2, x.2))

theorem operand_settles (role : Role) :
    Settles (operand role) (fun _ : ι => operand role) Eq X c :=
  (expression_settles X c).constrain

end Expressions

end Parser

end Quadword
