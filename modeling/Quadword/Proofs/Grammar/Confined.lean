import Quadword.Proofs.Grammar.Settled

/-!
# Reading stops at the end of the text

A parser never reads the token that ends the text: where it meets that token it stops, either
because it is done or because it asks for another one. So what comes behind makes no difference to
what it returns or reports, and it never runs out of tokens (`Confined`). Most parsers read a part
of one line and stop at its end in the same way, which is why the judgement says how far a parser
may read (`Reach`).

The bounds on nesting and repetition come from the number of tokens, and more tokens give larger
ones. So the judgement is about two parsers, one for the tokens up to the end of the text and one
for those with others behind, which differ in nothing but their bounds. A bound is large enough if
it is at least the number of tokens up to the end of the text.

What is read decides two more things: the span of the token that was read last, where the next
failure is reported, and where the span of a failure starts.
-/

namespace Quadword

open Grammar

/-- The cursor with more tokens behind those it has. -/
def Cursor.extend (c : Cursor) (rest : List (Located Token)) : Cursor := ⟨c.tokens ++ rest, c.last⟩

/-- What reading relies on: one end of the text, and spans that start where `S` allows. -/
structure Cursor.Ready (S : Position → Prop) (c : Cursor) : Prop where
  ends : EndsOnce c.values
  last : S c.last.start
  starts : ∀ t ∈ c.tokens, S t.span.start

namespace Parser

/-- How far a parser may read. -/
inductive Reach where
  /-- Up to the end of the line. -/
  | line
  /-- Up to the end of the text. -/
  | text

/-- The tokens within reach. -/
def Reach.Covers : Reach → Token → Prop
  | line, t => t ≠ .newline ∧ t ≠ .eof
  | text, t => t ≠ .eof

/-- However far a parser may read, the token that ends the text is out of reach. -/
theorem Reach.Covers.ne_eof {reach : Reach} {t : Token} (h : reach.Covers t) : t ≠ .eof := by
  cases reach with
  | line => exact h.2
  | text => exact h

theorem Reach.Covers.text {reach : Reach} {t : Token} (h : reach.Covers t) :
    Reach.text.Covers t := h.ne_eof

/-- The span of the token that was read last, once the tokens `us` have been read. -/
def lastSpan (last : Span) (us : List (Located Token)) : Span := us.foldl (fun _ t => t.span) last

/--
The tokens between two cursors are within reach, and the last of them is where reading came to.
-/
def ReadsTo (reach : Reach) (c c' : Cursor) : Prop :=
  ∃ us : List (Located Token), (∀ t ∈ us, reach.Covers t.value) ∧ c.tokens = us ++ c'.tokens ∧
    c'.last = lastSpan c.last us

/--
The run of `p` from `c` stays within reach, never runs out of tokens, and blames a place where spans
may start. With any tokens behind those of `c`, the parser `q` does the same.
-/
structure Confined {α : Type} (reach : Reach) (S : Position → Prop) (p q : Parser α) (c : Cursor) :
    Prop where
  reads : ∀ a c', p c = .ok (a, c') →
    ReadsTo reach c c' ∧ ∀ rest, q (c.extend rest) = .ok (a, c'.extend rest)
  fails : ∀ e, p c = .error e →
    e.value ≠ .abruptEnd ∧ S e.span.start ∧ ∀ rest, q (c.extend rest) = .error e

section Rules

variable {α β : Type} {reach : Reach} {S : Position → Prop} {c c' c'' : Cursor}

/-! ## What has been read -/

theorem ReadsTo.refl (c : Cursor) : ReadsTo reach c c := ⟨[], nofun, rfl, rfl⟩

/--
What two parsers read one after the other is what they read together, and the last token of the
whole is the last one of the second, or of the first if the second reads none.
-/
theorem ReadsTo.trans (h : ReadsTo reach c c') (h' : ReadsTo reach c' c'') :
    ReadsTo reach c c'' := by
  obtain ⟨us, hus, htok, hlast⟩ := h
  obtain ⟨vs, hvs, htok', hlast'⟩ := h'
  refine ⟨us ++ vs, List.forall_mem_append.mpr ⟨hus, hvs⟩, ?_, ?_⟩
  · rw [htok, htok', List.append_assoc]
  · rw [hlast', hlast, lastSpan, lastSpan, lastSpan, List.foldl_append]

theorem ReadsTo.next {t : Located Token} {ts : List (Located Token)} (htok : c.tokens = t :: ts)
    (ht : reach.Covers t.value) : ReadsTo reach c ⟨ts, t.span⟩ :=
  ⟨[t], by simpa using ht, htok, rfl⟩

/--
What is within the line is within the text, so the judgement about a line may be used in one about
the text.
-/
theorem ReadsTo.text (h : ReadsTo reach c c') : ReadsTo .text c c' := by
  obtain ⟨us, hus, htok, hlast⟩ := h
  exact ⟨us, fun t ht => (hus t ht).text, htok, hlast⟩

/-- Reading does not add tokens. All bounds on nesting and repetition go back to this. -/
theorem ReadsTo.length_le (h : ReadsTo reach c c') : c'.tokens.length ≤ c.tokens.length := by
  obtain ⟨us, -, htok, -⟩ := h
  rw [htok, List.length_append]
  omega

/--
The token that ends the text stays unread. What follows it can therefore not be seen at the new
cursor either, and the argument goes on there.
-/
theorem ReadsTo.ends (h : ReadsTo reach c c') (hc : EndsOnce c.values) : EndsOnce c'.values := by
  obtain ⟨us, hus, htok, -⟩ := h
  obtain ⟨body, hbody, heof⟩ := hc
  have hmem : Token.eof ∉ us.map Located.value := by
    intro hmem
    obtain ⟨t, ht, hvalue⟩ := List.mem_map.mp hmem
    exact (hus t ht).ne_eof hvalue
  rw [Cursor.values, htok, List.map_append] at hbody
  -- either the end of the text is still ahead, or it is among the tokens that were read
  rcases List.append_eq_append_iff.mp hbody with ⟨more, hmore, htail⟩ | ⟨more, hmore, htail⟩
  · refine ⟨more, htail, fun hin => heof ?_⟩
    rw [hmore]
    exact List.mem_append_right _ hin
  · cases more with
    | nil => exact ⟨[], htail.symm, List.not_mem_nil⟩
    | cons t more =>
        -- the end of the text would have been read
        obtain ⟨rfl, -⟩ := List.cons.inj htail
        rw [hmore] at hmem
        exact absurd (List.mem_append_right body List.mem_cons_self) hmem

/--
The span of the last token read starts where spans may start, since every token's does and so did
the span from before.
-/
theorem lastSpan_start {last : Span} {us : List (Located Token)} (hlast : S last.start)
    (hus : ∀ t ∈ us, S t.span.start) : S (lastSpan last us).start := by
  induction us generalizing last with
  | nil => exact hlast
  | cons t us ih =>
      obtain ⟨ht, hus⟩ := List.forall_mem_cons.mp hus
      exact ih ht hus

/--
What reading relies on is still there afterwards: one end of the text ahead, and spans that start
where they may.
-/
theorem ReadsTo.ready (h : ReadsTo reach c c') (hc : c.Ready S) : c'.Ready S := by
  have hends := h.ends hc.ends
  obtain ⟨us, -, htok, hlast⟩ := h
  have hstarts := hc.starts
  rw [htok, List.forall_mem_append] at hstarts
  refine ⟨hends, ?_, hstarts.2⟩
  rw [hlast]
  exact lastSpan_start hc.last hstarts.1

/-- There is always a next token. -/
theorem exists_tokens (hc : c.Ready S) : ∃ t ts, c.tokens = t :: ts := by
  cases htok : c.tokens with
  | cons t ts => exact ⟨t, ts, rfl⟩
  | nil =>
      obtain ⟨body, hbody, -⟩ := hc.ends
      rw [Cursor.values, htok] at hbody
      simp at hbody

/-- So there is a token to count, and a bound that the number of tokens respects is not zero. -/
theorem length_pos (hc : c.Ready S) : 0 < c.tokens.length := by
  obtain ⟨t, ts, htok⟩ := exists_tokens hc
  rw [htok]
  exact Nat.succ_pos _

/--
The span ahead is that of the next token, which starts where spans may. Every span that is added to
a result begins there.
-/
theorem ahead_start (hc : c.Ready S) : S c.ahead.start := by
  obtain ⟨t, ts, htok⟩ := exists_tokens hc
  rw [Cursor.ahead, htok]
  exact hc.starts t (htok ▸ List.mem_cons_self)

theorem extend_tokens {t : Located Token} {ts : List (Located Token)} (htok : c.tokens = t :: ts)
    (rest : List (Located Token)) : (c.extend rest).tokens = t :: (ts ++ rest) := by
  rw [Cursor.extend, htok]
  rfl

/-! ## Sequencing -/

theorem Confined.text {p q : Parser α} (h : Confined reach S p q c) : Confined .text S p q c where
  reads a c' hp := ⟨(h.reads a c' hp).1.text, (h.reads a c' hp).2⟩
  fails := h.fails

/--
The rest of a computation, after a first part that succeeds. The two parsers may differ in their
bounds, and then the second one is asked for the same first result.
-/
theorem Confined.step {p q : Parser α} {f g : α → Parser β} {a : α} (hp : p c = .ok (a, c'))
    (hread : ReadsTo reach c c') (hq : ∀ rest, q (c.extend rest) = .ok (a, c'.extend rest))
    (h : Confined reach S (f a) (g a) c') : Confined reach S (p >>= f) (q >>= g) c where
  reads b c'' hb := by
    -- both computations go on from the end of the first part, with `hq` for the longer list
    rw [bind_ok hp] at hb
    obtain ⟨hread', hg⟩ := h.reads b c'' hb
    refine ⟨hread.trans hread', fun rest => ?_⟩
    rw [bind_ok (hq rest)]
    exact hg rest
  fails e he := by
    rw [bind_ok hp] at he
    obtain ⟨habrupt, hstart, hg⟩ := h.fails e he
    refine ⟨habrupt, hstart, fun rest => ?_⟩
    rw [bind_ok (hq rest)]
    exact hg rest

/--
Sequencing. If the first parser fails, its failure is that of both, with the same place to blame.
Otherwise the second one goes on from a cursor that reading relies on just as well.
-/
theorem Confined.bind {p q : Parser α} {f g : α → Parser β} (hc : c.Ready S)
    (h : Confined reach S p q c)
    (hf : ∀ a c', p c = .ok (a, c') → ReadsTo reach c c' → c'.Ready S →
      Confined reach S (f a) (g a) c') : Confined reach S (p >>= f) (q >>= g) c := by
  -- a failure of the first parser is that of both; a success hands over to the second
  cases hp : p c with
  | error e =>
      obtain ⟨habrupt, hstart, hq⟩ := h.fails e hp
      refine ⟨fun b c'' hb => ?_, fun e' he => ?_⟩
      · rw [bind_error hp] at hb
        cases hb
      · rw [bind_error hp] at he
        cases he
        exact ⟨habrupt, hstart, fun rest => bind_error (hq rest)⟩
  | ok ac =>
      obtain ⟨a, c'⟩ := ac
      obtain ⟨hread, hq⟩ := h.reads a c' hp
      exact .step hp hread hq (hf a c' hp hread (hread.ready hc))

theorem Confined.pure {a : α} : Confined reach S (Pure.pure a) (Pure.pure a) c where
  reads b c' hb := by
    cases hb
    exact ⟨.refl c, fun rest => rfl⟩
  fails e he := by cases he

/--
A failure at a span of one's own is confined if it does not claim that the tokens ran out, and if
its span starts where spans may.
-/
theorem Confined.throw {e : Located ParseError} (he : e.value ≠ .abruptEnd) (hS : S e.span.start) :
    Confined (α := α) reach S (MonadExcept.throw e) (MonadExcept.throw e) c where
  reads b c' hb := by cases hb
  fails e' he' := by
    cases he'
    exact ⟨he, hS, fun rest => rfl⟩

/-- A failure at the token read last has such a span. -/
theorem Confined.fail {e : ParseError} (hc : c.Ready S) (he : e ≠ .abruptEnd) :
    Confined (α := α) reach S (fail e) (fail e) c where
  reads b c' hb := by cases hb
  fails e' he' := by
    cases he'
    exact ⟨he, hc.last, fun rest => rfl⟩

/-! ## Single tokens -/

/--
Looking ahead finds a token, and the same one with others behind the end of the text. What follows
may depend on it and has read nothing yet.
-/
theorem Confined.peek {f g : Token → Parser α} (hc : c.Ready S)
    (h : ∀ t ts, c.tokens = t :: ts → Confined reach S (f t.value) (g t.value) c) :
    Confined reach S (peek >>= f) (peek >>= g) c := by
  obtain ⟨t, ts, htok⟩ := exists_tokens hc
  apply Confined.step (peek_cons htok) (.refl c) _ (h t ts htok)
  intro rest
  exact peek_cons (extend_tokens htok rest)

/-- A token within reach is read. -/
theorem Confined.skip {f g : Token → Parser α} {t : Located Token} {ts : List (Located Token)}
    (hc : c.Ready S) (htok : c.tokens = t :: ts) (ht : reach.Covers t.value)
    (h : Cursor.Ready S ⟨ts, t.span⟩ → Confined reach S (f t.value) (g t.value) ⟨ts, t.span⟩) :
    Confined reach S (next >>= f) (next >>= g) c := by
  have hread : ReadsTo reach c ⟨ts, t.span⟩ := .next htok ht
  apply Confined.step (next_cons htok) hread _ (h (hread.ready hc))
  intro rest
  exact next_cons (extend_tokens htok rest)

/-- The next token is either refused, be it within reach or not, or it is within reach and read. -/
theorem Confined.next {f g : Token → Parser α} (hc : c.Ready S)
    (h : ∀ t ts, c.tokens = t :: ts →
      (∃ e, f t.value = Parser.fail e ∧ g t.value = Parser.fail e ∧ e ≠ .abruptEnd) ∨
        reach.Covers t.value ∧ (Cursor.Ready S ⟨ts, t.span⟩ →
          Confined reach S (f t.value) (g t.value) ⟨ts, t.span⟩)) :
    Confined reach S (next >>= f) (next >>= g) c := by
  obtain ⟨t, ts, htok⟩ := exists_tokens hc
  -- refused, the token is blamed, which is where it starts; within reach, it is read
  rcases h t ts htok with ⟨e, hf, hg, habrupt⟩ | ⟨ht, hread⟩
  · refine ⟨fun b c' hb => ?_, fun e' he => ?_⟩
    · rw [bind_ok (next_cons htok), hf] at hb
      cases hb
    · rw [bind_ok (next_cons htok), hf] at he
      cases he
      refine ⟨habrupt, hc.starts t (htok ▸ List.mem_cons_self), fun rest => ?_⟩
      rw [bind_ok (next_cons (extend_tokens htok rest)), hg]
      rfl
  · exact .skip hc htok ht hread

theorem accept_yes {t : Located Token} {ts : List (Located Token)} (htok : c.tokens = t :: ts) :
    accept t.value c = .ok (true, ⟨ts, t.span⟩) := by
  simp [Parser.accept, htok]

/-- A token that may be left out is read if it is the next one. -/
theorem Confined.accept {t : Token} {f g : Bool → Parser α} (hc : c.Ready S) (ht : reach.Covers t)
    (hyes : ∀ l ts, c.tokens = ⟨t, l⟩ :: ts → Cursor.Ready S ⟨ts, l⟩ →
      Confined reach S (f true) (g true) ⟨ts, l⟩)
    (hno : Confined reach S (f false) (g false) c) :
    Confined reach S (accept t >>= f) (accept t >>= g) c := by
  obtain ⟨⟨u, l⟩, ts, htok⟩ := exists_tokens hc
  -- the token is next, or the one that is next stays next with more tokens behind
  by_cases hu : u = t
  · subst hu
    have hread : ReadsTo reach c ⟨ts, l⟩ := .next htok ht
    apply Confined.step (accept_yes htok) hread _ (hyes l ts htok (hread.ready hc))
    intro rest
    exact accept_yes (extend_tokens htok rest)
  · have hother : ∀ {c : Cursor} {us : List (Located Token)}, c.tokens = ⟨u, l⟩ :: us →
        c.values.head? ≠ some t := by
      intro c us htok
      rw [Cursor.values, htok]
      simpa using hu
    apply Confined.step (accept_other (hother htok)) (.refl c) _ hno
    intro rest
    exact accept_other (hother (extend_tokens htok rest))

/--
A required token within reach: another one in its place is a failure that names it, not one for lack
of tokens.
-/
theorem expect_confined {t : Token} (hc : c.Ready S) (ht : reach.Covers t) :
    Confined reach S (expect t) (expect t) c := by
  unfold Parser.expect
  apply Confined.next hc
  intro u us _
  by_cases hu : u.value = t
  · right
    rw [if_pos hu, hu]
    exact ⟨ht, fun _ => .pure⟩
  · left
    rw [if_neg hu]
    exact ⟨_, rfl, rfl, by simp⟩

/-- A name is within the line, and anything else is refused with an error that says so. -/
theorem identifier_confined (hc : c.Ready S) : Confined .line S identifier identifier c := by
  unfold Parser.identifier
  apply Confined.next hc
  intro t ts _
  cases t.value with
  | id name => exact .inr ⟨by simp [Reach.Covers], fun _ => .pure⟩
  | _ => exact .inl ⟨_, rfl, rfl, by simp⟩

theorem literal_confined (hc : c.Ready S) : Confined .line S literal literal c := by
  unfold Parser.literal
  apply Confined.next hc
  intro t ts _
  cases t.value with
  | number n => exact .inr ⟨by simp [Reach.Covers], fun _ => .pure⟩
  | _ => exact .inl ⟨_, rfl, rfl, by simp⟩

/-! ## Lengths and positions -/

/--
The one place where more tokens behind make a difference: the number that is returned is larger. So
what follows has to be confined for every bound that is large enough for the tokens up to the end of
the text.
-/
theorem Confined.remaining {f g : Nat → Parser α}
    (h : ∀ n, c.tokens.length ≤ n → Confined reach S (f c.tokens.length) (g n) c) :
    Confined reach S (remaining >>= f) (remaining >>= g) c := by
  -- more tokens, so a larger bound
  have hlength : ∀ rest, c.tokens.length ≤ (c.extend rest).tokens.length := by
    intro rest
    rw [Cursor.extend, List.length_append]
    omega
  have hbind : ∀ (c : Cursor) (k : Nat → Parser α),
      (Parser.remaining >>= k) c = k c.tokens.length c := fun _ _ => rfl
  refine ⟨fun a c' ha => ?_, fun e he => ?_⟩
  · rw [hbind] at ha
    refine ⟨((h _ (Nat.le_refl _)).reads a c' ha).1, fun rest => ?_⟩
    rw [hbind]
    exact ((h _ (hlength rest)).reads a c' ha).2 rest
  · rw [hbind] at he
    obtain ⟨habrupt, hstart, -⟩ := (h _ (Nat.le_refl _)).fails e he
    refine ⟨habrupt, hstart, fun rest => ?_⟩
    rw [hbind]
    exact ((h _ (hlength rest)).fails e he).2.2 rest

/-- A result with a span: the span goes from the next token to the one read last. -/
theorem spanned_eq_ok {p : Parser α} {a : Located α} (h : spanned p c = .ok (a, c')) :
    p c = .ok (a.value, c') ∧ a.span = c.ahead.join c'.last := by
  rw [spanned_eq] at h
  cases hp : p c with
  | error e =>
      rw [hp] at h
      cases h
  | ok ac =>
      rw [hp] at h
      cases h
      exact ⟨rfl, rfl⟩

/--
The span ahead is that of the next token also if more tokens stand behind the end of the text.
-/
theorem ahead_extend (hc : c.Ready S) (rest : List (Located Token)) :
    (c.extend rest).ahead = c.ahead := by
  obtain ⟨t, ts, htok⟩ := exists_tokens hc
  rw [Cursor.ahead, Cursor.ahead, extend_tokens htok, htok]
  rfl

/--
Adding a span keeps the confinement, since neither end of the span depends on tokens behind the end
of the text.
-/
theorem Confined.spanned {p q : Parser α} (hc : c.Ready S) (h : Confined reach S p q c) :
    Confined reach S (spanned p) (spanned q) c where
  reads a c' ha := by
    obtain ⟨hp, hspan⟩ := spanned_eq_ok ha
    obtain ⟨hread, hq⟩ := h.reads _ _ hp
    refine ⟨hread, fun rest => ?_⟩
    -- the span comes from the cursors before and after, which more tokens do not change
    rw [spanned_eq, hq rest, ahead_extend hc]
    show Except.ok ((⟨a.value, c.ahead.join c'.last⟩ : Located α), c'.extend rest) = _
    rw [← hspan]
  fails e he := by
    rw [spanned_eq] at he
    cases hp : p c with
    | ok ac =>
        rw [hp] at he
        cases he
    | error e' =>
        rw [hp] at he
        cases he
        obtain ⟨habrupt, hstart, hq⟩ := h.fails e hp
        refine ⟨habrupt, hstart, fun rest => ?_⟩
        rw [spanned_eq, hq rest]

/--
What is given up is given up with other tokens behind it too. This is where failures must be
confined and not only successes, since the other way is taken after them.
-/
theorem Confined.attempt {p q : Parser α} (h : Confined reach S p q c) :
    Confined reach S (attempt p) (attempt q) c where
  reads r c' hr := by
    unfold Parser.attempt at hr ⊢
    -- a failure inside leaves the cursor alone, and it is a failure with more tokens as well
    cases hp : p c with
    | error e =>
        rw [hp] at hr
        cases hr
        refine ⟨.refl c, fun rest => ?_⟩
        rw [(h.fails e hp).2.2 rest]
    | ok ac =>
        rw [hp] at hr
        cases hr
        obtain ⟨hread, hq⟩ := h.reads _ _ hp
        refine ⟨hread, fun rest => ?_⟩
        rw [hq rest]
  fails e he := by
    unfold Parser.attempt at he
    split at he <;> cases he

end Rules

/-! ## References -/

section Expressions

variable {S : Position → Prop} {c : Cursor}

/-- An offset that is out of bounds is refused after it is read; this stays on the line. -/
theorem offset_confined (hc : c.Ready S) : Confined .line S offset offset c := by
  unfold Parser.offset
  apply (literal_confined hc).bind hc
  intro n c' _ _ hc'
  split
  · exact .pure
  · exact .fail hc' (by simp)

/-- A base is one word on the line. -/
theorem space_confined (hc : c.Ready S) : Confined .line S space space c := by
  unfold Parser.space
  apply Confined.next hc
  intro t ts _
  cases t.value with
  | keyword k =>
      cases k with
      | sp | data | const => exact .inr ⟨by simp [Reach.Covers], fun _ => .pure⟩
      | _ => exact .inl ⟨_, rfl, rfl, by simp⟩
  | _ => exact .inl ⟨_, rfl, rfl, by simp⟩

theorem optionalOffset_confined (hc : c.Ready S) :
    Confined .line S optionalOffset optionalOffset c :=
  .accept hc (by simp [Reach.Covers]) (fun _ _ _ => offset_confined) .pure

/-- A slot is read token by token, and each of its tokens is on the line. -/
theorem slot_confined (hc : c.Ready S) : Confined .line S slot slot c := by
  have hclose : Reach.line.Covers .closeSquare := by simp [Reach.Covers]
  unfold Parser.slot
  apply Confined.next hc
  intro t ts _
  cases t.value with
  -- the form that spells everything out, and then the short one with a letter
  | openSquare =>
      refine .inr ⟨by simp [Reach.Covers], fun hc₁ => ?_⟩
      apply (space_confined hc₁).bind hc₁
      intro space c₂ _ _ hc₂
      apply (optionalOffset_confined hc₂).bind hc₂
      intro offset c₃ _ _ hc₃
      exact (expect_confined hc₃ hclose).bind hc₃ fun _ _ _ _ _ => .pure
  | id name =>
      dsimp only
      cases Space.ofLetter? name with
      | none => exact .inl ⟨_, rfl, rfl, by simp⟩
      | some space =>
          refine .inr ⟨by simp [Reach.Covers], fun hc₁ => ?_⟩
          apply (expect_confined hc₁ (by simp [Reach.Covers])).bind hc₁
          intro _ c₂ _ _ hc₂
          apply (offset_confined hc₂).bind hc₂
          intro offset c₃ _ _ hc₃
          exact (expect_confined hc₃ hclose).bind hc₃ fun _ _ _ _ _ => .pure
  | _ => exact .inl ⟨_, rfl, rfl, by simp⟩

/-! ## Expressions -/

/-- The two parsers of expressions agree wherever at most `bound` tokens are left. -/
def ConfinedExpr (S : Position → Prop) (bound : Nat) (nested nested' : Parser (Located Expr)) :
    Prop :=
  ∀ c : Cursor, c.Ready S → c.tokens.length ≤ bound → Confined .line S nested nested' c ∧
    ∀ e c', nested c = .ok (e, c') → S e.span.start

/--
Reading in a role: a shape that the role does not allow is reported at the span of the expression,
so that span has to start where spans may.
-/
theorem Confined.constrain {role : Role} {p q : Parser (Located Expr)} (hc : c.Ready S)
    (h : Confined .line S p q c) (hstart : ∀ e c', p c = .ok (e, c') → S e.span.start) :
    Confined .line S (constrain role p) (constrain role q) c := by
  unfold Parser.constrain
  apply h.bind hc
  intro e c' he _ _
  split
  · exact .pure
  · exact .throw (by simp) (hstart e c' he)

/--
An access through an address takes a name and a bracket before its address, so the address may be
read with one level less.
-/
theorem indirect_confined {bound : Nat} {nested nested' : Parser (Located Expr)}
    {t : Located Token} {ts : List (Located Token)} (hn : ConfinedExpr S bound nested nested')
    (hc : c.Ready S) (hbound : c.tokens.length ≤ bound + 1) (htok : c.tokens = t :: ts)
    (ht : Reach.line.Covers t.value) :
    Confined .line S (indirect nested) (indirect nested') c := by
  unfold Parser.indirect
  apply Confined.skip hc htok ht
  intro hc₁
  have hlen₁ : ts.length ≤ bound := by
    rw [htok, List.length_cons] at hbound
    omega
  apply (expect_confined hc₁ (by simp [Reach.Covers])).bind hc₁
  intro _ c₂ _ hread₂ hc₂
  have hlen₂ := hread₂.length_le
  -- the address is parsed with a smaller bound, of which enough is left
  obtain ⟨hnested, hstart⟩ := hn c₂ hc₂ (Nat.le_trans hlen₂ hlen₁)
  apply (hnested.constrain hc₂ hstart).bind hc₂
  intro address c₃ _ _ hc₃
  exact (expect_confined hc₃ (by simp [Reach.Covers])).bind hc₃ fun _ _ _ _ _ => .pure

/--
An operand without unary operators. Whatever is nested in it stands behind at least one token of its
own, which is why a bound of one more is enough.
-/
theorem primary_confined {bound : Nat} {nested nested' : Parser (Located Expr)}
    (hn : ConfinedExpr S bound nested nested') (hc : c.Ready S)
    (hbound : c.tokens.length ≤ bound + 1) :
    Confined .line S (primary nested) (primary nested') c := by
  have hslot : Confined .line S (slot >>= fun s => Pure.pure (Expr.slot s))
      (slot >>= fun s => Pure.pure (Expr.slot s)) c :=
    (slot_confined hc).bind hc fun _ _ _ _ _ => .pure
  unfold Parser.primary
  apply Confined.peek hc
  intro t ts htok
  -- every token that cannot start an operand is blamed
  have hrefused : Confined .line S
      (Parser.next >>= fun _ => Parser.fail (α := Expr) (.expected .expression t.value))
      (Parser.next >>= fun _ => Parser.fail (.expected .expression t.value)) c :=
    .next hc fun _ _ _ => .inl ⟨_, rfl, rfl, by simp⟩
  cases hv : t.value with
  | number n =>
      apply Confined.skip hc htok (by simp [hv, Reach.Covers])
      intro hc₁
      exact .accept hc₁ (by simp [Reach.Covers]) (fun _ _ _ _ => .pure) .pure
  | keyword k =>
      cases k with
      | sp | data | const =>
          exact .skip hc htok (by simp [hv, Reach.Covers]) fun _ => .pure
      | _ =>
          rw [hv] at hrefused
          exact hrefused
  | openParen =>
      apply Confined.skip hc htok (by simp [hv, Reach.Covers])
      intro hc₁
      -- the parenthesis itself pays for the level
      have hlen₁ : ts.length ≤ bound := by
        rw [htok, List.length_cons] at hbound
        omega
      apply (hn _ hc₁ hlen₁).1.bind hc₁
      intro e c₂ _ _ hc₂
      exact (expect_confined hc₂ (by simp [Reach.Covers])).bind hc₂ fun _ _ _ _ _ => .pure
  | openSquare => exact hslot
  | id name =>
      dsimp only
      cases Width.ofName? name with
      | none => exact hslot
      | some width =>
          apply (indirect_confined hn hc hbound htok (by simp [hv, Reach.Covers])).bind hc
          exact fun _ _ _ _ _ => .pure
  | _ =>
      rw [hv] at hrefused
      exact hrefused

/--
The loop over operators, with any two bounds that the tokens respect. By induction on the first of
them: each round reads an operator, so fewer tokens are left and both bounds may go down.
-/
theorem operations_confined {limit : Nat} {operand operand' : Parser Expr}
    (ho : ∀ c : Cursor, c.Ready S → c.tokens.length ≤ limit →
      Confined .line S operand operand' c) (bound : Nat) :
    ∀ (bound' : Nat) (left : Expr) (c : Cursor), c.Ready S → c.tokens.length ≤ limit →
      c.tokens.length ≤ bound → c.tokens.length ≤ bound' →
      Confined .line S (operations operand bound left) (operations operand' bound' left) c := by
  induction bound with
  -- a bound of zero is excluded, as there is a token
  | zero =>
      intro bound' left c hc _ hbound _
      have hpos := length_pos hc
      omega
  | succ bound ih =>
      intro bound' left c hc hlimit hbound hbound'
      have hpos := length_pos hc
      cases bound' with
      | zero => omega
      | succ bound' =>
          unfold operations
          apply Confined.peek hc
          intro t ts htok
          cases hv : t.value with
          | binary op =>
              apply Confined.skip hc htok (by simp [hv, Reach.Covers])
              intro hc₁
              rw [htok, List.length_cons] at hlimit hbound hbound'
              -- the operator is one token, so one round is paid for
              have hlen₁ : ts.length ≤ limit := by omega
              apply (ho _ hc₁ hlen₁).bind hc₁
              intro right c₂ _ hread₂ hc₂
              have hlen₂ : c₂.tokens.length ≤ ts.length := hread₂.length_le
              exact ih bound' _ c₂ hc₂ (by omega) (by omega) (by omega)
          | _ => exact .pure

/--
A run of operands, with a span that begins at its first token. Each operand reads at least one
token, so any bound not below the number of tokens will do.
-/
theorem chain_confined {bound bound' limit : Nat} {operand operand' : Parser Expr}
    (ho : ∀ c : Cursor, c.Ready S → c.tokens.length ≤ limit →
      Confined .line S operand operand' c) (hbound : limit ≤ bound) (hbound' : limit ≤ bound') :
    ConfinedExpr S limit (chain operand bound) (chain operand' bound') := by
  intro c hc hlimit
  constructor
  · unfold Parser.chain
    apply Confined.spanned hc
    apply (ho c hc hlimit).bind hc
    intro first c₁ _ hread hc₁
    -- the first operand has taken a token, so the bounds are enough for the others
    have hlen := hread.length_le
    exact operations_confined ho bound bound' first c₁ hc₁ (by omega) (by omega) (by omega)
  · intro e c' he
    rw [(spanned_eq_ok he).2]
    exact ahead_start hc

/--
**Two bounds on the nesting make no difference** if both are at least the number of tokens. By
induction on the first one; every level reads a sign, a parenthesis or the name of an access before
it goes on to the next.
-/
theorem unary_confined (depth : Nat) :
    ∀ (depth' : Nat) (c : Cursor), c.Ready S → c.tokens.length ≤ depth →
      c.tokens.length ≤ depth' → Confined .line S (unary depth) (unary depth') c := by
  induction depth with
  | zero =>
      intro depth' c hc hdepth _
      have hpos := length_pos hc
      omega
  | succ depth ih =>
      intro depth' c hc hdepth hdepth'
      have hpos := length_pos hc
      cases depth' with
      | zero => omega
      | succ depth' =>
          -- what is nested has fewer tokens than both bounds allow
          have hprimary : Confined .line S (primary (chain (unary depth) depth))
              (primary (chain (unary depth') depth')) c := by
            have hnested : ConfinedExpr S (min depth depth') (chain (unary depth) depth)
                (chain (unary depth') depth') :=
              chain_confined (fun c hc hlen => ih depth' c hc (by omega) (by omega)) (by omega)
                (by omega)
            exact primary_confined hnested hc (by omega)
          -- an operand after a unary operator
          have hunary : ∀ {op : UnOp} {t : Located Token} {ts : List (Located Token)},
              c.tokens = t :: ts → Reach.line.Covers t.value → Confined .line S
                (Parser.next >>= fun _ => unary depth >>= fun e => Pure.pure (Expr.unary op e))
                (Parser.next >>= fun _ => unary depth' >>= fun e => Pure.pure (Expr.unary op e))
                c := by
            intro op t ts htok ht
            apply Confined.skip hc htok ht
            intro hc₁
            rw [htok, List.length_cons] at hdepth hdepth'
            have hlen : ts.length ≤ depth ∧ ts.length ≤ depth' := by omega
            exact (ih depth' _ hc₁ hlen.1 hlen.2).bind hc₁ fun _ _ _ _ _ => .pure
          unfold unary
          apply Confined.peek hc
          intro t ts htok
          cases hv : t.value with
          | binary op =>
              cases op with
              | sub => exact hunary htok (by simp [hv, Reach.Covers])
              | _ => exact hprimary
          | tilde => exact hunary htok (by simp [hv, Reach.Covers])
          | _ => exact hprimary

/--
A whole expression is bounded by the number of tokens, with those behind the end of the text or
without.
-/
theorem expression_confined (hc : c.Ready S) : Confined .line S expression expression c := by
  unfold Parser.expression
  apply Confined.remaining
  intro n hn
  -- one bound counts the tokens up to the end of the text, the other one all of them
  have hchain : ConfinedExpr S c.tokens.length
      (chain (unary c.tokens.length) c.tokens.length) (chain (unary n) n) :=
    chain_confined (fun c' hc' hlen => unary_confined _ n c' hc' hlen (by omega)) (by omega) hn
  exact (hchain c hc (Nat.le_refl _)).1

theorem expression_start (hc : c.Ready S) {e : Located Expr} {c' : Cursor}
    (h : expression c = .ok (e, c')) : S e.span.start := by
  have hspan : spanned _ c = .ok (e, c') := h
  rw [(spanned_eq_ok hspan).2]
  exact ahead_start hc

theorem operand_confined (role : Role) (hc : c.Ready S) :
    Confined .line S (operand role) (operand role) c :=
  (expression_confined hc).constrain hc fun _ _ => expression_start hc

end Expressions

end Parser

end Quadword
