import Quadword.Proofs.Grammar.EndOfText

/-!
# Where the items of a program stand

The line breaks of a program part its tokens into runs (`itemRuns`), and each initial value and each
statement is one of them: it is derived from the tokens of its run, and its span reaches from the
first of them to the last (`Sited`). Line breaks belong to no item, and neither does a token that
was looked at, or that was read by an attempt which is given up.

* **`sited_of_spanned`**: what is read from one line is sited.
* **`statements_sited`** and **`initializers_sited`**: what the loops over lines read.
* **`Program.ofTokens_items`**: all items of a program, and its end.
-/

namespace Quadword

open Grammar

/-- The tokens between line breaks, where there are any. -/
def itemRuns (ts : List (Located Token)) : List (List (Located Token)) :=
  (ts.splitOnP fun t => t.value = .newline).filter fun run => run ≠ []

/-- The item is what the run derives, from the start of its first token to the end of its last. -/
structure Sited {α : Type} (G : List Token → α → Prop) (run : List (Located Token))
    (item : Located α) : Prop where
  derives : G (run.map Located.value) item.value
  span : ∃ first last, run.head? = some first ∧ run.getLast? = some last ∧
    item.span = ⟨first.span.start, last.span.stop⟩

/-! ## Runs -/

theorem itemRuns_nil : itemRuns [] = [] := rfl

/--
A line break in front ends a run that is empty, and empty runs are left out. So blank lines are no
items.
-/
theorem itemRuns_newline {t : Located Token} (ht : t.value = .newline)
    (ts : List (Located Token)) : itemRuns (t :: ts) = itemRuns ts := by
  have hsplit : (t :: ts).splitOnP (fun t => t.value = .newline) =
      [] :: ts.splitOnP fun t => t.value = .newline := by
    rw [List.splitOnP_cons_eq_if_modifyHead, if_pos (by simpa using ht)]
  rw [itemRuns, hsplit]
  rfl

/--
A run ends where a line break follows, or nothing does. So what a line of the grammar takes is one
of the runs, the first of those that are left.
-/
theorem itemRuns_append {run ts : List (Located Token)} (hne : run ≠ [])
    (hrun : ∀ t ∈ run, t.value ≠ .newline)
    (hts : ∀ t, ts.head? = some t → t.value = .newline) :
    itemRuns (run ++ ts) = run :: itemRuns ts := by
  have hno : ∀ t ∈ run, (fun t : Located Token => decide (t.value = .newline)) t = false :=
    fun t ht => decide_eq_false (hrun t ht)
  -- the run is the last one, or a line break parts it from the next
  cases ts with
  | nil =>
      rw [List.append_nil, itemRuns, List.splitOnP_eq_singleton hno, itemRuns_nil]
      simp [hne]
  | cons t ts =>
      have ht : t.value = .newline := hts t rfl
      rw [itemRuns_newline ht, itemRuns,
        List.splitOnP_append_cons_of_forall_mem hno t (by simpa using ht)]
      simp [hne, itemRuns]

/--
The runs hold all tokens that are no line breaks, in their order. None is left out and none is in
two runs, which makes them a partition.
-/
theorem flatten_itemRuns (ts : List (Located Token)) :
    (itemRuns ts).flatten = ts.filter fun t => t.value ≠ .newline := by
  -- the runs that are left out are empty, so they hold no tokens
  have hflatten : ∀ runs : List (List (Located Token)),
      (runs.filter fun run => run ≠ []).flatten = runs.flatten := by
    intro runs
    induction runs with
    | nil => rfl
    | cons run runs ih => cases run <;> simp_all
  rw [itemRuns, hflatten]
  induction ts with
  | nil => rfl
  | cons t ts ih =>
      rw [List.splitOnP_cons_eq_if_modifyHead]
      by_cases ht : t.value = .newline
      · simpa [ht] using ih
      · rw [List.filter_cons_of_pos (by simpa using ht), ← ih]
        cases hsplit : ts.splitOnP fun t => t.value = .newline with
        | nil => exact absurd hsplit (List.splitOnP_ne_nil _ _)
        | cons run runs => simp [ht]

/-! ## Cursors on a text with an end -/

/-- The cursor stands before `body`, with the end of the text behind it. -/
structure Cursor.EndsAt (c : Cursor) (body : List (Located Token)) (e : Located Token) : Prop where
  tokens : c.tokens = body ++ [e]
  eof : e.value = .eof
  body : .eof ∉ body.map Located.value

namespace Parser

variable {c c' : Cursor} {body : List (Located Token)} {e : Located Token}

/--
A text with an end behind it is all that confinement asks for; here nothing is asked about where
spans start.
-/
theorem ready_of_endsAt (h : c.EndsAt body e) : c.Ready fun _ => True where
  ends := by
    refine ⟨body.map Located.value, ?_, h.body⟩
    rw [Cursor.values, h.tokens, List.map_append, List.map_singleton, h.eof]
  last := trivial
  starts _ _ := trivial

/--
Reading takes tokens from the front of the body. The token at the end is never taken, so what is
left is a shorter body with the same end.
-/
theorem ReadsTo.endsAt {reach : Reach} (h : ReadsTo reach c c') (hc : c.EndsAt body e) :
    ∃ us body', body = us ++ body' ∧ c'.EndsAt body' e ∧ (∀ t ∈ us, reach.Covers t.value) ∧
      c'.last = lastSpan c.last us := by
  obtain ⟨us, hus, htok, hlast⟩ := h
  rw [hc.tokens] at htok
  -- what was read is part of the body, or it goes beyond
  rcases List.append_eq_append_iff.mp htok with ⟨more, rfl, hmore⟩ | ⟨body', rfl, hmore⟩
  · cases more with
    | nil =>
        rw [List.append_nil] at hus hlast
        refine ⟨body, [], (List.append_nil _).symm, ⟨?_, hc.eof, List.not_mem_nil⟩, hus, ?_⟩
        · simpa using hmore.symm
        · exact hlast
    | cons t more =>
        -- the end of the text would have been read
        obtain ⟨rfl, -⟩ := List.cons.inj hmore
        exact absurd hc.eof (hus e (List.mem_append_right body List.mem_cons_self)).ne_eof
  · refine ⟨us, body', rfl, ⟨hmore, hc.eof, fun hmem => hc.body ?_⟩, hus, hlast⟩
    rw [List.map_append]
    exact List.mem_append_right _ hmem

/--
Line breaks in front of the items belong to none of them, so passing them leaves the runs as they
were.
-/
theorem endsAt_afterNewlines (hc : c.EndsAt body e) :
    ∃ body', (afterNewlines c.last c.tokens).EndsAt body' e ∧ itemRuns body' = itemRuns body := by
  obtain ⟨tokens, last⟩ := c
  induction body generalizing tokens last with
  | nil =>
      obtain rfl : tokens = [e] := hc.tokens
      refine ⟨[], ?_, rfl⟩
      rw [afterNewlines, if_neg (by simp [hc.eof])]
      exact hc
  | cons t body ih =>
      obtain rfl : tokens = t :: (body ++ [e]) := hc.tokens
      -- a line break is passed and belongs to no run, and any other token stops it
      by_cases ht : t.value = .newline
      · rw [afterNewlines, if_pos ht, itemRuns_newline ht]
        exact ih _ _ ⟨rfl, hc.eof, fun hmem => hc.body (List.mem_cons_of_mem _ hmem)⟩
      · refine ⟨t :: body, ?_, rfl⟩
        rw [afterNewlines, if_neg ht]
        exact hc

/-- A line ends at a line break or with the body, and what follows has the same items. -/
theorem endsAt_terminator (hc : c.EndsAt body e) (h : terminator c = .ok ((), c')) :
    (∃ body', c'.EndsAt body' e ∧ itemRuns body' = itemRuns body) ∧
      ∀ t, body.head? = some t → t.value = .newline := by
  rcases terminator_cases c with ⟨heof, hend⟩ | ⟨t, ts, htok, ht, hend⟩ |
    ⟨t, ts, -, -, -, hend⟩ | hend <;> rw [h] at hend <;> cases hend
  · refine ⟨⟨body, hc, rfl⟩, fun t ht => absurd ?_ hc.body⟩
    obtain ⟨more, rfl⟩ := List.head?_eq_some_iff.mp ht
    rw [Cursor.values, hc.tokens] at heof
    have hvalue : t.value = .eof := by simpa using heof
    rw [List.map_cons, hvalue]
    exact List.mem_cons_self
  -- the line break was the next token: it is not the end of the text, so it is in the body
  · cases body with
    | nil =>
        have hte : [e] = t :: ts := hc.tokens.symm.trans htok
        obtain ⟨rfl, -⟩ := List.cons.inj hte
        exact absurd (ht.symm.trans hc.eof) (by simp)
    | cons u body =>
        have hcons : u :: (body ++ [e]) = t :: ts := hc.tokens.symm.trans htok
        obtain ⟨rfl, rfl⟩ := List.cons.inj hcons
        refine ⟨⟨body, ⟨rfl, hc.eof, ?_⟩, (itemRuns_newline ht body).symm⟩, fun v hv => ?_⟩
        · exact fun hmem => hc.body (List.mem_cons_of_mem _ hmem)
        · obtain rfl : u = v := Option.some.inj hv
          exact ht

/-! ## Items -/

/-- If tokens were read, the span of the last one is what is kept. -/
theorem lastSpan_eq {us : List (Located Token)} {t : Located Token} (h : us.getLast? = some t)
    (last : Span) : lastSpan last us = t.span := by
  obtain ⟨front, rfl⟩ := List.getLast?_eq_some_iff.mp h
  rw [lastSpan, List.foldl_append]
  rfl

/-- What is read from one line is derived from the tokens that were read, and has their span. -/
theorem sited_of_spanned {α : Type} {p : Parser α} {G : List Token → α → Prop} {item : Located α}
    (hp : Confined .line (fun _ => True) p p c) (hG : Reads p G) (hc : c.EndsAt body e)
    (h : spanned p c = .ok (item, c')) (hlt : c'.tokens.length < c.tokens.length) :
    ∃ run body', body = run ++ body' ∧ c'.EndsAt body' e ∧ Sited G run item ∧ run ≠ [] ∧
      ∀ t ∈ run, t.value ≠ .newline := by
  obtain ⟨hrun, hspan⟩ := spanned_eq_ok h
  obtain ⟨run, body', rfl, hc', hcovers, hlast⟩ := (hp.reads _ _ hrun).1.endsAt hc
  have htokens : c.tokens = run ++ c'.tokens := by
    rw [hc.tokens, hc'.tokens, List.append_assoc]
  -- something was read, so there is a first and a last token
  have hne : run ≠ [] := by
    rintro rfl
    rw [htokens] at hlt
    exact absurd hlt (Nat.lt_irrefl _)
  refine ⟨run, body', rfl, hc', ⟨hG.of_tokens hrun htokens, ?_⟩, hne, fun t ht => (hcovers t ht).1⟩
  obtain ⟨first, us, rfl⟩ := List.exists_cons_of_ne_nil hne
  have hlast? := List.getLast?_eq_some_getLast hne
  refine ⟨first, _, rfl, hlast?, ?_⟩
  -- the span goes from the next token to the last one that was read
  rw [hspan, hlast, lastSpan_eq hlast?, Cursor.ahead, htokens]
  rfl

/--
One round of the loop over initial values: the attempt is given up and nothing is read, or a value
is read and the loop goes on behind its line.
-/
theorem initializers_eq_ok {seen all : List (Located Initializer)} {bound : Nat}
    (h : initializers seen (bound + 1) c = .ok (all, c')) :
    all = seen ∧ c' = c ∨ ∃ i c₁, initializer c = .ok (i, c₁) ∧
      initializers (seen ++ [i]) bound (afterNewlines c₁.last c₁.tokens) = .ok (all, c') := by
  obtain ⟨r, c₁, hr, h⟩ := bind_eq_ok h
  cases r with
  | none =>
      -- a failed attempt leaves the cursor alone
      have hsame : c₁ = c := by
        unfold Parser.attempt at hr
        split at hr <;> cases hr
        rfl
      cases h
      exact .inl ⟨rfl, hsame⟩
  | some i =>
      dsimp only at h
      split at h
      · cases h
      · rw [bind_ok (skipNewlines_apply c₁)] at h
        exact .inr ⟨i, c₁, attempt_eq_some hr, h⟩

/-- Each initial value is a run of tokens, and the next one is the next run. -/
theorem initializers_sited (bound : Nat) :
    ∀ (seen all : List (Located Initializer)) (c c' : Cursor) (body : List (Located Token)),
      c.EndsAt body e → initializers seen bound c = .ok (all, c') →
      ∃ new runs body', all = seen ++ new ∧ c'.EndsAt body' e ∧
        itemRuns body = runs ++ itemRuns body' ∧ List.Forall₂ (Sited InitializerOf) runs new := by
  induction bound with
  | zero =>
      intro seen all c c' body hc h
      cases h
      exact ⟨[], [], body, (List.append_nil _).symm, hc, rfl, .nil⟩
  | succ bound ih =>
      intro seen all c c' body hc h
      rcases initializers_eq_ok h with ⟨rfl, rfl⟩ | ⟨i, c₁, hi, hmore⟩
      · exact ⟨[], [], body, (List.append_nil _).symm, hc, rfl, .nil⟩
      · obtain ⟨run, body₁, rfl, hc₁, hsited, hne, hrun⟩ := sited_of_spanned
          (initialValue_confined (ready_of_endsAt hc)) initialValue_reads hc (initializer_eq_ok hi)
          (initializer_length_lt hi)
        -- the line ends where the value does
        have hhead : ∀ t, body₁.head? = some t → t.value = .newline := by
          intro t ht
          obtain ⟨more, rfl⟩ := List.head?_eq_some_iff.mp ht
          obtain ⟨-, -, -, hend⟩ := initializer_ensures c.values c i c₁ rfl hi
          have hvalue : t.value = .newline ∨ t.value = .eof := by
            rw [LineEnds, Cursor.values, hc₁.tokens] at hend
            simpa using hend
          refine hvalue.resolve_right fun heof => hc₁.body ?_
          rw [List.map_cons, heof]
          exact List.mem_cons_self
        obtain ⟨body₂, hc₂, hsame⟩ := endsAt_afterNewlines hc₁
        obtain ⟨new, runs, body', rfl, hc', hruns, hall⟩ := ih _ _ _ _ _ hc₂ hmore
        refine ⟨i :: new, run :: runs, body', by simp, hc', ?_, .cons hsited hall⟩
        rw [itemRuns_append hne hrun hhead, ← hsame, hruns]
        rfl

/-- Each statement is a run of tokens up to the end of the text, whose span is returned. -/
theorem statements_sited (bound : Nat) :
    ∀ (ss : List (Located Statement)) (finish : Span) (c c' : Cursor) (body : List (Located Token)),
      c.EndsAt body e → statements bound c = .ok ((ss, finish), c') →
      finish = e.span ∧ List.Forall₂ (Sited StatementOf) (itemRuns body) ss := by
  induction bound with
  | zero => intro ss finish c c' body _ h; cases h
  | succ bound ih =>
      intro ss finish c c' body hc h
      obtain ⟨body₁, hc₁, hsame⟩ := endsAt_afterNewlines hc
      rw [← hsame]
      -- the text is at its end, or another line is read
      rcases statements_eq_ok h with ⟨hpeek, rfl, rfl⟩ | ⟨s, c₂, c₃, ss', hs, hend, hmore, rfl⟩
      · cases body₁ with
        | nil =>
            refine ⟨?_, .nil⟩
            rw [Cursor.ahead, hc₁.tokens]
            rfl
        | cons t body₁ =>
            rw [peek_cons hc₁.tokens] at hpeek
            refine absurd ?_ hc₁.body
            rw [List.map_cons, (Prod.mk.inj (Except.ok.inj hpeek)).1]
            exact List.mem_cons_self
      · obtain ⟨run, body₂, rfl, hc₂, hsited, hne, hrun⟩ := sited_of_spanned
          (statement_confined (ready_of_endsAt hc₁)) statement_reads hc₁ hs
          (statement_length_lt (spanned_eq_ok hs).1)
        obtain ⟨⟨body₃, hc₃, hsame₃⟩, hhead⟩ := endsAt_terminator hc₂ hend
        obtain ⟨rfl, hall⟩ := ih ss' finish c₃ c' body₃ hc₃ hmore
        rw [itemRuns_append hne hrun hhead, ← hsame₃]
        exact ⟨rfl, .cons hsited hall⟩

/--
**All items of a program, and its end.** The runs of the initial values come first, those of the
statements are the rest, and where the statements end the text does.
-/
theorem program_sited {p : Program} (hc : c.EndsAt body e) (h : program c = .ok (p, c')) :
    p.finish = e.span ∧ ∃ dataRuns statementRuns, itemRuns body = dataRuns ++ statementRuns ∧
      List.Forall₂ (Sited InitializerOf) dataRuns p.data ∧
      List.Forall₂ (Sited StatementOf) statementRuns p.statements := by
  obtain ⟨body₁, hc₁, hsame⟩ := endsAt_afterNewlines hc
  rw [program, bind_ok (skipNewlines_apply c)] at h
  -- the two loops, each after its bound, and the check of the labels
  obtain ⟨n, c₂, hn, h⟩ := bind_eq_ok h
  cases hn
  obtain ⟨data, c₃, hdata, h⟩ := bind_eq_ok h
  obtain ⟨m, c₄, hm, h⟩ := bind_eq_ok h
  cases hm
  obtain ⟨⟨ss, finish⟩, c₅, hss, h⟩ := bind_eq_ok h
  obtain ⟨u, c₆, -, h⟩ := bind_eq_ok h
  cases h
  obtain ⟨new, dataRuns, body₂, rfl, hc₂, hruns, hall⟩ := initializers_sited _ _ _ _ _ _ hc₁ hdata
  obtain ⟨hfinish, hsited⟩ := statements_sited _ _ _ _ _ _ hc₂ hss
  exact ⟨hfinish, dataRuns, itemRuns body₂, hsame ▸ hruns, hall, hsited⟩

end Parser

/-! ## Programs -/

namespace Program

/-- The items of a program are the runs of tokens in front of the end of the text. -/
theorem sited_of_ofTokens {tokens : List (Located Token)} {start : Span} {p : Program}
    (h : ofTokens tokens start = .ok p) :
    ∃ front e rest dataRuns statementRuns, tokens = front ++ e :: rest ∧ e.value = .eof ∧
      .eof ∉ front.map Located.value ∧ p.finish = e.span ∧
      itemRuns front = dataRuns ++ statementRuns ∧
      List.Forall₂ (Sited InitializerOf) dataRuns p.data ∧
      List.Forall₂ (Sited StatementOf) statementRuns p.statements := by
  obtain ⟨front, e, rest, htokens, hthrough, he, hfront⟩ := exists_end (eof_mem_of_ofTokens h)
  -- what follows the first end of the text plays no part, so it is cut off first
  rw [(ofTokens_eq_throughEnd start (eof_mem_of_ofTokens h)).1, hthrough] at h
  obtain ⟨c, hp⟩ := ofTokens_eq_ok h
  have hc : Cursor.EndsAt ⟨front ++ [e], start⟩ front e := ⟨rfl, he, hfront⟩
  obtain ⟨hfinish, dataRuns, statementRuns, hruns, hdata, hss⟩ := Parser.program_sited hc hp
  exact ⟨front, e, rest, dataRuns, statementRuns, htokens, he, hfront, hfinish, hruns, hdata, hss⟩

/--
**Items are located by their own tokens.** The tokens of a program in front of the first end of the
text, without line breaks, are in order the runs of its initial values and those of its statements.
Line breaks stand between any two runs. Each item is derived from its run and has the span from the
start of the first token of the run to the end of the last one, and the program ends where that end
of the text stands.
-/
theorem ofTokens_items {tokens : List (Located Token)} {start : Span} {p : Program}
    (h : ofTokens tokens start = .ok p) :
    ∃ front e rest dataRuns statementRuns,
      (tokens = front ++ e :: rest ∧ e.value = .eof ∧ .eof ∉ front.map Located.value) ∧
      p.finish = e.span ∧ itemRuns front = dataRuns ++ statementRuns ∧
      (dataRuns ++ statementRuns).flatten = front.filter (fun t => t.value ≠ .newline) ∧
      List.Forall₂ (Sited InitializerOf) dataRuns p.data ∧
      List.Forall₂ (Sited StatementOf) statementRuns p.statements := by
  obtain ⟨front, e, rest, dataRuns, statementRuns, htokens, he, hfront, hfinish, hruns, hdata,
    hss⟩ := sited_of_ofTokens h
  refine ⟨front, e, rest, dataRuns, statementRuns, ⟨htokens, he, hfront⟩, hfinish, hruns, ?_,
    hdata, hss⟩
  rw [← hruns]
  exact flatten_itemRuns front

/--
An initial value, a blank line, a statement whose first token opens no choice, and tokens behind the
end: the line breaks and the end stay outside of the spans.
-/
theorem ofTokens_items_parenthesis :
    let data := [onLine (.id "d") 1, onLine .openSquare 2, onLine (.number 8) 3,
      onLine .closeSquare 4, onLine .assign 6, onLine (.number 1) 8]
    let statement := [onLine (.keyword .sp) 11 2, onLine .assign 14, onLine .openParen 16,
      onLine (.number 4) 17, onLine .closeParen 18]
    let front := data ++ [onLine .newline 9, onLine .newline 10] ++ statement
    ∃ p, ofTokens (front ++ onLine .eof 19 :: statement) .first = .ok p ∧
      p.data.map Located.span = [Position.columns ⟨1, 1⟩ 8] ∧
      p.statements.map Located.span = [Position.columns ⟨1, 11⟩ 8] ∧
      ∃ front' e rest dataRuns statementRuns,
        (front ++ onLine .eof 19 :: statement = front' ++ e :: rest ∧ e.value = .eof ∧
          .eof ∉ front'.map Located.value) ∧
        p.finish = e.span ∧ itemRuns front' = dataRuns ++ statementRuns ∧
        (dataRuns ++ statementRuns).flatten = front'.filter (fun t => t.value ≠ .newline) ∧
        List.Forall₂ (Sited InitializerOf) dataRuns p.data ∧
        List.Forall₂ (Sited StatementOf) statementRuns p.statements := by
  intro data statement front
  exact ⟨_, rfl, rfl, rfl, @ofTokens_items _ .first _ rfl⟩

end Program

end Quadword
