import Quadword.Proofs.Grammar.Blame
import Quadword.Proofs.Grammar.ConfinedLine
import Quadword.Proofs.Grammar.Source
import Quadword.Proofs.Token.Progress
import Quadword.Proofs.Token.Spans

/-!
# The end of the text

A program is read up to the first end of the text among its tokens. What comes behind that end makes
no difference, to an error as little as to a program, and tokens without one are never accepted.

* **`statements_eq_ok`**: what one round of the loop over statements does.
* **`program_confined`**: a program is read up to the end of the text, whatever comes behind it.
* **`Program.ofTokens_throughEnd`**: the statement about lists of tokens, and about sources.
-/

namespace Quadword

open Grammar

namespace Parser

variable {S : Position → Prop} {c c' : Cursor}

/-! ## Runs that succeed -/

section Inversion

variable {α β : Type} {p : Parser α}

/--
A sequence that succeeds, taken apart: the first parser succeeds, and the second one does from where
that stopped. With this a run can be followed from the front without unfolding anything.
-/
theorem bind_eq_ok {f : α → Parser β} {b : β × Cursor} (h : (p >>= f) c = .ok b) :
    ∃ a c₁, p c = .ok (a, c₁) ∧ f a c₁ = .ok b := by
  cases hp : p c with
  | error e =>
      rw [bind_error hp] at h
      cases h
  | ok r =>
      rw [bind_ok hp] at h
      exact ⟨r.1, r.2, rfl, h⟩

theorem peek_eq_ok {t : Token} (h : peek c = .ok (t, c')) : c = c' := by
  unfold Parser.peek at h
  split at h
  · cases h
  · cases h
    rfl

/-- An attempt that returns something is a success of what was attempted. -/
theorem attempt_eq_some {a : α} (h : attempt p c = .ok (some a, c')) : p c = .ok (a, c') := by
  unfold Parser.attempt at h
  cases hp : p c with
  | error e =>
      rw [hp] at h
      cases h
  | ok r =>
      rw [hp] at h
      cases h
      rfl

end Inversion

/-! ## Line breaks -/

/-- The line breaks that are skipped are within the text, though not within a line. -/
theorem readsTo_afterNewlines (last : Span) (ts : List (Located Token)) :
    ReadsTo .text ⟨ts, last⟩ (afterNewlines last ts) := by
  induction ts generalizing last with
  | nil => exact .refl _
  | cons t ts ih =>
      unfold afterNewlines
      by_cases ht : t.value = .newline
      · rw [if_pos ht]
        exact ReadsTo.trans (.next rfl (by simp [ht, Reach.Covers])) (ih t.span)
      · rw [if_neg ht]
        exact .refl _

/-- The line breaks at the front are the same with other tokens behind the end of the text. -/
theorem afterNewlines_append {ts : List (Located Token)} (h : .eof ∈ ts.map Located.value)
    (last : Span) (rest : List (Located Token)) :
    afterNewlines last (ts ++ rest) = (afterNewlines last ts).extend rest := by
  induction ts generalizing last with
  | nil => cases h
  | cons t ts ih =>
      rw [List.cons_append, afterNewlines, afterNewlines]
      by_cases ht : t.value = .newline
      · rw [if_pos ht, if_pos ht]
        have hmore : .eof ∈ ts.map Located.value := by simpa [ht] using h
        exact ih hmore t.span
      · rw [if_neg ht, if_neg ht]
        rfl

/-- Skipping line breaks stays in front of the end of the text, which is no line break. -/
theorem skipNewlines_confined (hc : c.Ready S) :
    Confined .text S skipNewlines skipNewlines c where
  reads a c' h := by
    cases h
    refine ⟨readsTo_afterNewlines c.last c.tokens, fun rest => ?_⟩
    -- there is an end of the text ahead, so the line breaks end before it
    have heof : .eof ∈ c.tokens.map Located.value := by
      obtain ⟨body, hbody, -⟩ := hc.ends
      rw [show c.tokens.map Located.value = _ from hbody]
      exact List.mem_append_right _ List.mem_cons_self
    rw [skipNewlines_apply]
    exact congrArg (fun c => Except.ok ((), c)) (afterNewlines_append heof c.last rest)
  fails e h := by cases h

/--
The end of a line reads a line break or leaves the end of the text; whatever else stands there is
blamed.
-/
theorem terminator_confined (hc : c.Ready S) : Confined .text S terminator terminator c := by
  unfold Parser.terminator
  apply Confined.peek hc
  intro t ts htok
  cases hv : t.value with
  | eof => exact .pure
  | newline =>
      apply Confined.skip hc htok (by simp [hv, Reach.Covers])
      exact fun _ => .pure
  | _ => exact .next hc fun _ _ _ => .inl ⟨_, rfl, rfl, by simp⟩

/-! ## Initial values -/

/-- The span of an initial value is that of its tokens, without the end of the line. -/
theorem initializer_eq_ok {i : Located Initializer} (h : initializer c = .ok (i, c')) :
    spanned initialValue c = .ok (i, c') := by
  obtain ⟨j, c₁, hj, hend⟩ := bind_eq_ok h
  obtain ⟨t, c₂, ht, hresult⟩ := bind_eq_ok hend
  obtain rfl := peek_eq_ok ht
  cases t with
  | newline | eof =>
      cases hresult
      exact hj
  | _ => cases hresult

theorem initializer_length_lt {i : Located Initializer} (h : initializer c = .ok (i, c')) :
    c'.tokens.length < c.tokens.length := by
  obtain ⟨ts, hts, hline, -⟩ := initializer_ensures c.values c i c' rfl h
  have hlength := congrArg List.length hts
  have hpos := initializerOf_length_pos hline
  rw [Cursor.values, Cursor.values, List.length_append, List.length_map, List.length_map] at hlength
  omega

/-- Each round of the loop over initial values takes a token, so its bound makes no difference. -/
theorem initializers_confined (bound : Nat) :
    ∀ (bound' : Nat) (seen : List (Located Initializer)) (c : Cursor), c.Ready S →
      c.tokens.length ≤ bound → c.tokens.length ≤ bound' →
      Confined .text S (initializers seen bound) (initializers seen bound') c := by
  induction bound with
  | zero =>
      intro bound' seen c hc hbound _
      have hpos := length_pos hc
      omega
  | succ bound ih =>
      intro bound' seen c hc hbound hbound'
      have hpos := length_pos hc
      cases bound' with
      | zero => omega
      | succ bound' =>
          unfold initializers
          apply (initializer_confined hc).attempt.text.bind hc
          intro r c₁ hr _ hc₁
          cases r with
          | none => exact .pure
          | some i =>
              have hi := attempt_eq_some hr
              have hlen := initializer_length_lt hi
              dsimp only
              -- an overlap is reported at the value, which starts where its first token does
              split
              · apply Confined.throw (by simp)
                rw [(spanned_eq_ok (initializer_eq_ok hi)).2]
                exact ahead_start hc
              · apply (skipNewlines_confined hc₁).bind hc₁
                intro _ c₂ _ hread₂ hc₂
                have hlen₂ := hread₂.length_le
                exact ih bound' _ c₂ hc₂ (by omega) (by omega)

/-! ## Statements -/

/-- A statement takes a token at least, the one that tells its kind. -/
theorem statement_length_lt {s : Statement} (h : statement c = .ok (s, c')) :
    c'.tokens.length < c.tokens.length := by
  obtain ⟨ts, hts, hline⟩ := statement_reads c.values c s c' rfl h
  have hlength := congrArg List.length hts
  obtain ⟨t, us, rfl, -, -⟩ := statementOf_head hline
  rw [Cursor.values, Cursor.values, List.length_append, List.length_map, List.length_map,
    List.length_cons] at hlength
  omega

/--
**The loop over statements stops at the end of the text.** By induction on its bound, with any other
bound that the tokens respect: a line takes a token, so both bounds may go down with every round.
-/
theorem statements_confined (bound : Nat) :
    ∀ (bound' : Nat) (c : Cursor), c.Ready S → c.tokens.length ≤ bound → c.tokens.length ≤ bound' →
      Confined .text S (statements bound) (statements bound') c := by
  induction bound with
  | zero =>
      intro bound' c hc hbound _
      have hpos := length_pos hc
      omega
  | succ bound ih =>
      intro bound' c hc hbound hbound'
      have hpos := length_pos hc
      cases bound' with
      | zero => omega
      | succ bound' =>
          unfold statements
          apply (skipNewlines_confined hc).bind hc
          intro _ c₁ _ hread₁ hc₁
          have hlen₁ := hread₁.length_le
          -- a line, and the lines behind it
          have hline : Confined .text S
              (spanned statement >>= fun s => terminator >>= fun _ => statements bound >>=
                fun r => Pure.pure (s :: r.1, r.2))
              (spanned statement >>= fun s => terminator >>= fun _ => statements bound' >>=
                fun r => Pure.pure (s :: r.1, r.2)) c₁ := by
            apply ((statement_confined hc₁).spanned hc₁).text.bind hc₁
            intro s c₂ hs _ hc₂
            have hlen₂ := statement_length_lt (spanned_eq_ok hs).1
            apply (terminator_confined hc₂).bind hc₂
            intro _ c₃ _ hread₃ hc₃
            have hlen₃ := hread₃.length_le
            apply (ih bound' c₃ hc₃ (by omega) (by omega)).bind hc₃
            exact fun _ _ _ _ _ => .pure
          apply Confined.peek hc₁
          intro t ts htok
          cases t.value with
          | eof =>
              have hspan : ∀ rest, peekSpan (c₁.extend rest) = .ok (c₁.ahead, c₁.extend rest) := by
                intro rest
                rw [peekSpan_eq, ahead_extend hc₁]
              exact .step (peekSpan_eq c₁) (.refl c₁) hspan .pure
          | _ => exact hline

/-- One round of the loop over statements: the text is at its end, or a line is read. -/
theorem statements_eq_ok {bound : Nat} {ss : List (Located Statement)} {finish : Span}
    (h : statements (bound + 1) c = .ok ((ss, finish), c')) :
    (peek (afterNewlines c.last c.tokens) = .ok (.eof, afterNewlines c.last c.tokens) ∧ ss = [] ∧
      finish = (afterNewlines c.last c.tokens).ahead) ∨
    ∃ s c₂ c₃ ss', spanned statement (afterNewlines c.last c.tokens) = .ok (s, c₂) ∧
      terminator c₂ = .ok ((), c₃) ∧ statements bound c₃ = .ok ((ss', finish), c') ∧
      ss = s :: ss' := by
  rw [statements, bind_ok (skipNewlines_apply c)] at h
  generalize afterNewlines c.last c.tokens = c₁ at h ⊢
  -- a statement, the end of its line, and the statements behind it
  have hline : ∀ {r : (List (Located Statement) × Span) × Cursor},
      (spanned statement >>= fun s => terminator >>= fun _ => statements bound >>=
        fun r => Pure.pure (s :: r.1, r.2)) c₁ = .ok r →
      ∃ s c₂ c₃ ss', spanned statement c₁ = .ok (s, c₂) ∧ terminator c₂ = .ok ((), c₃) ∧
        statements bound c₃ = .ok ((ss', r.1.2), r.2) ∧ r.1.1 = s :: ss' := by
    intro r hr
    obtain ⟨s, c₂, hs, hr⟩ := bind_eq_ok hr
    obtain ⟨_, c₃, hend, hr⟩ := bind_eq_ok hr
    obtain ⟨⟨ss', finish'⟩, c₄, hmore, hr⟩ := bind_eq_ok hr
    cases hr
    exact ⟨s, c₂, c₃, ss', hs, hend, hmore, rfl⟩
  obtain ⟨t, c₂, ht, hresult⟩ := bind_eq_ok h
  obtain rfl := peek_eq_ok ht
  cases t with
  | eof =>
      obtain ⟨span, c₃, hspan, hresult⟩ := bind_eq_ok hresult
      rw [peekSpan_eq] at hspan
      cases hspan
      cases hresult
      exact .inl ⟨ht, rfl, rfl⟩
  | _ => exact .inr (hline hresult)

/--
Every statement begins where a token does, so its span starts where spans may. The check of the
labels, which comes later, reports such spans.
-/
theorem statements_starts (bound : Nat) :
    ∀ (c : Cursor) (ss : List (Located Statement)) (finish : Span) (c' : Cursor), c.Ready S →
      statements bound c = .ok ((ss, finish), c') → ∀ s ∈ ss, S s.span.start := by
  induction bound with
  | zero => intro c ss finish c' _ h; cases h
  | succ bound ih =>
      intro c ss finish c' hc h
      have hc₁ := (readsTo_afterNewlines c.last c.tokens).ready hc
      -- the loop ends, or it reads a statement and goes on behind the end of its line
      rcases statements_eq_ok h with ⟨-, rfl, -⟩ | ⟨s, c₂, c₃, ss', hs, hend, hmore, rfl⟩
      · intro s hs
        cases hs
      · have hc₂ := (((statement_confined hc₁).spanned hc₁).reads s c₂ hs).1.ready hc₁
        have hc₃ := ((terminator_confined hc₂).reads () c₃ hend).1.ready hc₂
        refine List.forall_mem_cons.mpr ⟨?_, ih c₃ ss' finish c' hc₃ hmore⟩
        rw [(spanned_eq_ok hs).2]
        exact ahead_start hc₁

/-! ## Labels -/

/-- A label that is defined again is reported at the statement that does it. -/
theorem repeatedLabel?_mem {seen : List String} {ss : List (Located Statement)}
    {name : Located String} (h : repeatedLabel? seen ss = some name) :
    ∃ s ∈ ss, s.span = name.span := by
  -- along the search, which stops at a label that has been seen
  fun_induction repeatedLabel? seen ss with
  | case1 => cases h
  | case2 seen s ss _ ih =>
      obtain ⟨s', hs', hspan⟩ := ih h
      exact ⟨s', List.mem_cons_of_mem _ hs', hspan⟩
  | case3 seen s ss name' _ _ =>
      cases h
      exact ⟨s, List.mem_cons_self, rfl⟩
  | case4 seen s ss name' _ _ ih =>
      obtain ⟨s', hs', hspan⟩ := ih h
      exact ⟨s', List.mem_cons_of_mem _ hs', hspan⟩

/-- A label that is not defined is reported at a jump to it. -/
theorem unknownLabel?_mem {defined : List String} {ss : List (Located Statement)}
    {name : Located String} (h : unknownLabel? defined ss = some name) :
    ∃ s ∈ ss, s.span = name.span := by
  obtain ⟨s, hs, hname⟩ := List.exists_of_findSome?_eq_some h
  refine ⟨s, hs, ?_⟩
  split at hname
  · cases hname
  · split at hname
    · cases hname
    · cases hname
      rfl

/-- An error about a label is reported at a statement. -/
theorem checkLabels_blames {ss : List (Located Statement)} {e : Located ParseError}
    (h : checkLabels ss = .error e) : e.value ≠ .abruptEnd ∧ ∃ s ∈ ss, s.span = e.span := by
  unfold checkLabels at h
  split at h
  · next name hname =>
      cases h
      exact ⟨by simp, repeatedLabel?_mem hname⟩
  · split at h
    · next name hname =>
        cases h
        exact ⟨by simp, unknownLabel?_mem hname⟩
    · cases h

/--
So the check of the labels never says that the tokens ran out, and it blames places where statements
start.
-/
theorem checkLabels_confined {ss : List (Located Statement)} (hss : ∀ s ∈ ss, S s.span.start)
    (c : Cursor) : Confined .text S (liftM (checkLabels ss)) (liftM (checkLabels ss)) c := by
  -- nothing is read here, and a failure is reported at a statement
  cases hcheck : checkLabels ss with
  | ok u => exact .pure
  | error e =>
      obtain ⟨habrupt, s, hs, hspan⟩ := checkLabels_blames hcheck
      exact .throw habrupt (hspan ▸ hss s hs)

/-! ## Programs -/

/--
**A program is read up to the end of its text and no further.** The two bounds are numbers of
tokens, and both loops have been shown not to depend on them.
-/
theorem program_confined (hc : c.Ready S) : Confined .text S program program c := by
  unfold program
  apply (skipNewlines_confined hc).bind hc
  intro _ c₁ _ _ hc₁
  apply Confined.remaining
  intro n hn
  apply (initializers_confined _ n [] c₁ hc₁ (Nat.le_refl _) hn).bind hc₁
  intro data c₂ _ _ hc₂
  apply Confined.remaining
  intro m hm
  apply (statements_confined _ m c₂ hc₂ (Nat.le_refl _) hm).bind hc₂
  intro r c₃ hr _ hc₃
  obtain ⟨ss, finish⟩ := r
  -- the statements are placed where tokens are, and labels are reported at statements
  have hss := statements_starts _ c₂ ss finish c₃ hc₂ hr
  apply (checkLabels_confined hss c₃).bind hc₃
  exact fun _ _ _ _ _ => .pure

end Parser

/-! ## Lists of tokens -/

/-- The tokens up to and including the first end of the text, or all if there is no end. -/
def throughEnd : List (Located Token) → List (Located Token)
  | [] => []
  | t :: ts => if t.value = .eof then [t] else t :: throughEnd ts

/-- A list with an end of the text in it, cut behind the first one. -/
theorem exists_end {tokens : List (Located Token)} (h : .eof ∈ tokens.map Located.value) :
    ∃ front e rest, tokens = front ++ e :: rest ∧ throughEnd tokens = front ++ [e] ∧
      e.value = .eof ∧ .eof ∉ front.map Located.value := by
  induction tokens with
  | nil => cases h
  | cons t ts ih =>
      unfold throughEnd
      -- the first token is the end, or the end is further behind
      by_cases ht : t.value = .eof
      · rw [if_pos ht]
        exact ⟨[], t, ts, rfl, rfl, ht, List.not_mem_nil⟩
      · rw [if_neg ht]
        have hmore : .eof ∈ ts.map Located.value :=
          (List.mem_cons.mp h).resolve_left fun heq => ht heq.symm
        obtain ⟨front, e, rest, hts, hthrough, he, hfront⟩ := ih hmore
        refine ⟨t :: front, e, rest, by rw [hts]; rfl, by rw [hthrough]; rfl, he, ?_⟩
        rw [List.map_cons, List.mem_cons]
        exact fun hmem => hmem.elim (fun heq => ht heq.symm) hfront

/-- Cutting behind the first end keeps an end if there is one, and makes none up. -/
theorem eof_mem_throughEnd {tokens : List (Located Token)} :
    .eof ∈ (throughEnd tokens).map Located.value ↔ .eof ∈ tokens.map Located.value := by
  induction tokens with
  | nil => exact Iff.rfl
  | cons t ts ih =>
      unfold throughEnd
      by_cases ht : t.value = .eof
      · rw [if_pos ht]
        simp [ht]
      · rw [if_neg ht, List.map_cons, List.map_cons, List.mem_cons, List.mem_cons, ih]

/-- In front of that end a parser has all that it relies on. -/
theorem ready_of_end {S : Position → Prop} {front : List (Located Token)} {e : Located Token}
    {start : Span} (he : e.value = .eof) (hfront : .eof ∉ front.map Located.value)
    (hstart : S start.start) (hstarts : ∀ t ∈ front ++ [e], S t.span.start) :
    Cursor.Ready S ⟨front ++ [e], start⟩ where
  ends := ⟨front.map Located.value, by rw [Cursor.values, List.map_append, List.map_singleton, he],
    hfront⟩
  last := hstart
  starts := hstarts

/--
Tokens of a source that were read without a failure have an end of the text. They come from a lexer
that has read all its characters, from a stream that could be read to its end.
-/
theorem Source.eof_mem_of_scan {src : Source} {tokens : List (Located Token)}
    (h : src.scan.result = .ok tokens) :
    .eof ∈ tokens.map Located.value ∧ (Scanner.ofSource src).scan.final.rest = [] ∧
      src.readable.2 = .complete := by
  obtain ⟨hfailure, rfl⟩ := Scan.result_eq_ok h
  obtain ⟨htokens, hfailure', -⟩ := src.scan_eq_scanner
  rw [htokens]
  exact Scanner.ends_of_scan rfl (hfailure' ▸ hfailure)

/-- An error about the grammar is one that the parser reported of the tokens of the source. -/
theorem Source.parse_eq_grammatical {src : Source} {err : Located ParseError}
    (h : src.parse = .error (.grammatical err)) :
    ∃ tokens, src.scan.result = .ok tokens ∧ Program.ofTokens tokens .first = .error err := by
  unfold parse at h
  cases hscan : src.scan.result with
  | error e =>
      rw [hscan] at h
      cases h
  | ok tokens =>
      rw [hscan] at h
      dsimp only at h
      cases hp : Program.ofTokens tokens .first with
      | ok p =>
          rw [hp] at h
          cases h
      | error err' =>
          rw [hp] at h
          cases h
          exact ⟨tokens, rfl, hp⟩

namespace Program

/-- Behind the first end of the text, no token is looked at, and none is missed in front of it. -/
theorem ofTokens_confined {S : Position → Prop} {front : List (Located Token)} {e : Located Token}
    (start : Span) (he : e.value = .eof) (hfront : .eof ∉ front.map Located.value)
    (hstart : S start.start) (hstarts : ∀ t ∈ front ++ [e], S t.span.start)
    (rest : List (Located Token)) :
    ofTokens (front ++ e :: rest) start = ofTokens (front ++ [e]) start ∧
      ∀ err, ofTokens (front ++ [e]) start = .error err →
        err.value ≠ .abruptEnd ∧ S err.span.start := by
  have hconfined := Parser.program_confined (ready_of_end he hfront hstart hstarts)
  have hextend : (⟨front ++ e :: rest, start⟩ : Cursor) =
      Cursor.extend ⟨front ++ [e], start⟩ rest := by
    rw [Cursor.extend, List.append_assoc]
    rfl
  unfold ofTokens
  -- the parser does the same on both lists, whether it succeeds or fails
  rw [hextend]
  cases hp : Parser.program ⟨front ++ [e], start⟩ with
  | ok r =>
      obtain ⟨p, c⟩ := r
      rw [(hconfined.reads p c hp).2 rest]
      refine ⟨rfl, fun err herr => ?_⟩
      cases herr
  | error err =>
      obtain ⟨habrupt, herr, hrest⟩ := hconfined.fails err hp
      rw [hrest rest]
      refine ⟨rfl, fun err' herr' => ?_⟩
      cases herr'
      exact ⟨habrupt, herr⟩

/-- So the tokens behind the first end make no difference, and no abrupt end is reported. -/
theorem ofTokens_eq_throughEnd {tokens : List (Located Token)} (start : Span)
    (h : .eof ∈ tokens.map Located.value) :
    ofTokens tokens start = ofTokens (throughEnd tokens) start ∧
      ∀ l, ofTokens tokens start ≠ .error ⟨.abruptEnd, l⟩ := by
  obtain ⟨front, e, rest, htokens, hthrough, he, hfront⟩ := exists_end h
  obtain ⟨hrest, herror⟩ :=
    ofTokens_confined (S := fun _ => True) start he hfront trivial (fun _ _ => trivial) rest
  rw [hthrough, htokens, hrest]
  exact ⟨rfl, fun l hl => (herror _ hl).1 rfl⟩

/-- What is accepted has an end of the text. -/
theorem eof_mem_of_ofTokens {tokens : List (Located Token)} {start : Span} {p : Program}
    (h : ofTokens tokens start = .ok p) : .eof ∈ tokens.map Located.value := by
  obtain ⟨⟨rest, us, hrun, ⟨ts, more, hrest, -, hts⟩, -⟩, -⟩ := ofTokens_sound h
  obtain ⟨front, hfront⟩ := initialRun_suffix hrun
  obtain ⟨body, hbody⟩ := statementsOf_ends hts
  rw [hfront, hrest, hbody]
  simp

/--
**The first end of the text is where reading stops.** Of tokens with an end of the text among them,
only those up to the first one decide what the parser returns, and it never reports that there are
none left. Without an end it always fails. And as every text that is broken into tokens ends with
one, no source is ever answered with an abrupt end.
-/
theorem ofTokens_throughEnd (start : Span) :
    (∀ tokens, .eof ∈ tokens.map Located.value →
      (∀ tokens', throughEnd tokens' = throughEnd tokens →
        ofTokens tokens' start = ofTokens tokens start) ∧
      ∀ l, ofTokens tokens start ≠ .error ⟨.abruptEnd, l⟩) ∧
    (∀ tokens, .eof ∉ tokens.map Located.value → ∃ err, ofTokens tokens start = .error err) ∧
    ∀ (src : Source) (l : Span), src.parse ≠ .error (.grammatical ⟨.abruptEnd, l⟩) := by
  refine ⟨fun tokens heof => ⟨fun tokens' hsame => ?_, ?_⟩, fun tokens heof => ?_,
    fun src l hparse => ?_⟩
  -- the same tokens up to the first end, so an end in both or in neither
  · have heof' : .eof ∈ tokens'.map Located.value := by
      rwa [← eof_mem_throughEnd, hsame, eof_mem_throughEnd]
    rw [(ofTokens_eq_throughEnd start heof').1, hsame, ← (ofTokens_eq_throughEnd start heof).1]
  · exact (ofTokens_eq_throughEnd start heof).2
  · cases hp : ofTokens tokens start with
    | error err => exact ⟨err, rfl⟩
    | ok p => exact absurd (eof_mem_of_ofTokens hp) heof
  · obtain ⟨tokens, hscan, htokens⟩ := Source.parse_eq_grammatical hparse
    exact (ofTokens_eq_throughEnd .first (Source.eof_mem_of_scan hscan).1).2 l htokens

/--
`goto END` with a second end, and with nonsense behind the first one: both are the program that the
text is without them. Cut inside a condition, the tokens are refused at their end.
-/
theorem ofTokens_throughEnd_spliced :
    let line := [onLine (.keyword .goto) 1 4, onLine (.keyword .finish) 6 3]
    let cut := [onLine (.keyword .goto) 1 4, onLine (.id "a") 6, onLine (.keyword .cond) 8 2]
    let eof := onLine .eof 11
    ofTokens (line ++ [eof, onLine .closeSquare 20, eof]) .first =
      ofTokens (line ++ [eof]) .first ∧
    (∀ l, ofTokens (cut ++ eof :: line) .first ≠ .error ⟨.abruptEnd, l⟩) ∧
    ofTokens (cut ++ eof :: line) .first =
      .error ⟨.expected .expression .eof, Position.columns ⟨1, 11⟩ 1⟩ ∧
    ∃ err, ofTokens cut .first = .error err := by
  intro line cut eof
  obtain ⟨hthrough, hwithout, -⟩ := ofTokens_throughEnd .first
  -- a token that ends the text early hides what follows it, and without one the tokens run out
  refine ⟨?_, ?_, rfl, hwithout cut (by decide)⟩
  · exact (hthrough (line ++ [eof]) (by decide)).1 _ rfl
  · exact (hthrough (cut ++ eof :: line) (by decide)).2

end Program

end Quadword
