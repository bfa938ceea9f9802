import Quadword.Proofs.Grammar.Completeness
import Quadword.Proofs.Grammar.Soundness

/-!
# Programs are read exactly

The parser of programs accepts a list of tokens exactly if the grammar derives it, and returns the
program that the grammar pairs with it. Both directions meet here because of the initial values: the
parser stops reading them where its attempt at another one fails, the grammar where no further line
has their form, and each direction needs the attempt to fail or succeed on exactly those lines.

* **`ofTokens_sound`**: whatever is accepted is an initial run, statements up to the end of the
  text, and possibly tokens after that end that are never looked at.
* **`ofTokens_iff`**: whatever has that form is accepted.
* **`ofTokens_complete`**: whatever is derived is accepted.

The first and the last together say what is accepted of a text that ends where its tokens do.
-/

namespace Quadword

open Grammar

namespace Parser

/-! ## Initial values -/

/--
What is read as an initial value derives one. A sign and a mark may each be there or not, which
makes the four literals of the grammar.
-/
theorem initialValue_reads : Reads initialValue InitializerOf := by
  intro vs
  unfold Parser.initialValue
  refine .bind ((slot_reads vs).mono fun s us hs => ?_)
  obtain ⟨ts, hvs, hslot⟩ := hs
  obtain ⟨space, offset⟩ := s
  -- initial values are in the two regions; the stack has none
  cases space with
  | stack => exact .fail
  | region r =>
      refine .bind (.expect fun us₁ hus => .bind (.accept (fun us₂ hus₁ => ?_) fun _ => ?_))
      · -- with a sign
        refine .bind (.literal fun n us₃ hus₂ => .bind (.accept (fun us₄ hus₃ => ?_) fun _ => ?_))
        · exact .pure ⟨_, by rw [hvs, hus, hus₁, hus₂, hus₃]; simp, .assign hslot (.negativeWide n)⟩
        · exact .pure ⟨_, by rw [hvs, hus, hus₁, hus₂]; simp, .assign hslot (.negative n)⟩
      · refine .bind (.literal fun n us₃ hus₂ => .bind (.accept (fun us₄ hus₃ => ?_) fun _ => ?_))
        · exact .pure ⟨_, by rw [hvs, hus, hus₂, hus₃]; simp, .assign hslot (.wide n)⟩
        · exact .pure ⟨_, by rw [hvs, hus, hus₂]; simp, .assign hslot (.plain n)⟩

/--
A line that is read as an initial value derives one, and the line ends behind it, though its end
stays unread.
-/
theorem initializer_ensures (vs : List Token) :
    Ensures initializer vs fun i us =>
      ∃ ts, vs = ts ++ us ∧ InitializerOf ts i.value ∧ LineEnds us := by
  unfold Parser.initializer
  refine .bind (.spanned ((initialValue_reads vs).mono fun i us hi span => .bind ?_))
  -- the token behind the value decides, and is not taken
  obtain ⟨ts, hvs, hts⟩ := hi
  cases us with
  | nil => exact .peek_nil
  | cons t us =>
      refine .peek ?_
      cases t with
      | newline => exact .pure ⟨ts, hvs, hts, .inl rfl⟩
      | eof => exact .pure ⟨ts, hvs, hts, .inr rfl⟩
      | _ => exact .fail

/--
Each of the four literals is read, up to the end of the line; without a mark the parser looks at
that end and finds it to be none.
-/
theorem Accepts.initialValue {ts rest : List Token} {i : Initializer}
    {K : Initializer → List Token → Prop} (hi : InitializerOf ts i) (hend : LineEnds rest)
    (h : K i rest) : Accepts initialValue (ts ++ rest) K := by
  have hwide : rest.head? ≠ some .wide := lineEnds_head?_ne hend (by simp) (by simp)
  cases hi with
  | assign hslot hvalue =>
      unfold Parser.initialValue
      simp only [List.append_assoc, List.cons_append]
      refine .bind (.slot hslot (.bind (.expect (.bind ?_))))
      -- with or without a minus in front, and with or without the mark behind
      cases hvalue with
      | plain n =>
          refine .accept_other (by simp) (.bind (.literal (.bind ?_)))
          exact .accept_other hwide (.pure h)
      | wide n =>
          refine .accept_other (by simp) (.bind (.literal (.bind ?_)))
          exact .accept_self (.pure h)
      | negative n =>
          refine .accept_self (.bind (.literal (.bind ?_)))
          exact .accept_other hwide (.pure h)
      | negativeWide n =>
          refine .accept_self (.bind (.literal (.bind ?_)))
          exact .accept_self (.pure h)

/--
An initial value is read if its line ends where it does. With anything else behind the value the
attempt is given up, and the line is left to the statements.
-/
theorem Accepts.initializer {ts rest : List Token} {i : Initializer}
    {K : Located Initializer → List Token → Prop} (hi : InitializerOf ts i) (hend : LineEnds rest)
    (h : ∀ span, K ⟨i, span⟩ rest) : Accepts initializer (ts ++ rest) K := by
  unfold Parser.initializer
  refine .bind (.spanned (.initialValue hi hend fun span => .bind ?_))
  cases rest with
  | nil => simp [LineEnds] at hend
  | cons t rest =>
      have ht : t = .newline ∨ t = .eof := by simpa [LineEnds] using hend
      refine .peek ?_
      rcases ht with rfl | rfl
      · exact .pure (h span)
      · exact .pure (h span)

/--
An initial value takes a token, the sign of its assignment if nothing else. This is what bounds the
number of rounds.
-/
theorem initializerOf_length_pos {ts : List Token} {i : Initializer} (h : InitializerOf ts i) :
    0 < ts.length := by
  cases h with
  | assign _ _ => rw [List.length_append, List.length_cons]; omega

/--
The productions for slots carry the bound on the offset, and a slot without one has offset zero.
-/
theorem slotOf_offset_le {ts : List Token} {s : Slot} (h : SlotOf ts s) :
    s.offset.toNat ≤ Slot.maxOffset := by
  cases h with
  | bare _ => exact Nat.zero_le _
  | offset _ hn => exact hn
  | letter _ hn => exact hn

theorem initializerOf_offset_le {ts : List Token} {i : Initializer} (h : InitializerOf ts i) :
    i.offset.toNat ≤ Slot.maxOffset := by
  cases h with
  | assign hslot _ => exact slotOf_offset_le hslot

/-- For offsets that can be written, values overlap exactly if they are not apart. -/
theorem overlaps_eq_false_iff {i j : Initializer} (hi : i.offset.toNat ≤ Slot.maxOffset)
    (hj : j.offset.toNat ≤ Slot.maxOffset) : i.overlaps j = false ↔ Apart i j := by
  -- the end of a value saturates at the last offset, but not for offsets that can be written
  have hstop : ∀ k : Initializer, k.offset.toNat ≤ Slot.maxOffset →
      k.stop = k.offset.toNat + 8 := by
    intro k hk
    unfold Slot.maxOffset at hk
    unfold Initializer.stop Initializer.size Initializer.lastOffset
    omega
  unfold Initializer.overlaps Apart
  rw [hstop i hi, hstop j hj]
  by_cases hr : i.region = j.region
  · simp only [hr, decide_true, Bool.true_and, Bool.and_eq_false_iff, decide_eq_false_iff_not,
      forall_const]
    omega
  · simp [hr]

/-! ### Line breaks -/

/-- Without a line break in front nothing is skipped. -/
theorem dropNewlines_eq_self {ts : List Token} (h : ts.head? ≠ some .newline) :
    dropNewlines ts = ts := by
  cases ts with
  | nil => rfl
  | cons t ts =>
      have ht : t ≠ .newline := by simpa using h
      simp [dropNewlines, ht]

theorem head?_dropNewlines (ts : List Token) : (dropNewlines ts).head? ≠ some .newline := by
  intro h
  have := List.head?_dropWhile_not (fun t => decide (t = Token.newline)) ts
  unfold dropNewlines at h
  rw [h] at this
  simp at this

theorem length_dropNewlines_le (ts : List Token) : (dropNewlines ts).length ≤ ts.length :=
  (List.dropWhile_sublist _).length_le

/-- Line breaks in front of a run of initial values are part of it. -/
theorem initialRun_of_dropNewlines {ts rest : List Token} {is : List Initializer}
    (h : InitialRun (dropNewlines ts) is rest) : InitialRun ts is rest := by
  induction ts with
  | nil => exact h
  | cons t ts ih =>
      by_cases ht : t = .newline
      · subst ht
        exact .blank (ih h)
      · rwa [dropNewlines_eq_self (by simpa using ht)] at h

/--
A line with an initial value does not start with a line break: it starts with a bracket or a letter.
-/
theorem initializerOf_head {ts rest : List Token} {i : Initializer} (h : InitializerOf ts i) :
    (ts ++ rest).head? ≠ some .newline := by
  cases h with
  | assign hslot _ => cases hslot <;> simp

/-- An initial value on the first line that is not blank is read there. -/
theorem initialRun_single_accepts {ts rest : List Token} {i : Initializer}
    {is : List Initializer} (h : InitialRun ts is rest) (his : is = [i]) :
    Accepts initializer (dropNewlines ts) fun _ _ => True := by
  induction h with
  | nil ts => cases his
  | blank _ ih => exact ih his
  | line hi hend _ _ =>
      rw [dropNewlines_eq_self (initializerOf_head hi)]
      exact .initializer hi hend fun _ => trivial

/-- Where no run of initial values starts, the attempt to read one fails. -/
theorem initializer_rejects {ts : List Token} (h : ∀ i rest, ¬ InitialRun ts [i] rest) :
    Rejects initializer (dropNewlines ts) := by
  refine (initializer_ensures _).mono fun i us hi => ?_
  obtain ⟨ls, hts, hline, hend⟩ := hi
  refine h i.value us (initialRun_of_dropNewlines ?_)
  -- what was read would be a run of one value
  rw [hts]
  exact .line hline hend (.nil us)

/-- A run with a value in it has a token. -/
theorem initialRun_length_pos {ts rest : List Token} {is : List Initializer}
    (h : InitialRun ts is rest) (his : is ≠ []) : 0 < ts.length := by
  cases h with
  | nil => exact absurd rfl his
  | blank _ => simp
  | line hi _ _ =>
      have hpos := initializerOf_length_pos hi
      rw [List.length_append]
      omega

/--
The loop over initial values reads a run of them that cannot be made longer, and keeps them apart.
Its bound is never reached, as every round takes a token.
-/
theorem initializers_ensures (bound : Nat) :
    ∀ (seen : List (Located Initializer)) (vs : List Token), vs.length ≤ bound →
      vs.head? ≠ some .newline → (∀ i ∈ seen, i.value.offset.toNat ≤ Slot.maxOffset) →
      (seen.map Located.value).Pairwise Apart →
      Ensures (initializers seen bound) vs fun is us =>
        ∃ new, is.map Located.value = seen.map Located.value ++ new ∧ InitialRun vs new us ∧
          (is.map Located.value).Pairwise Apart ∧ ∀ i rest, ¬ InitialRun us [i] rest := by
  induction bound with
  | zero =>
      intro seen vs hlen _ _ hapart
      refine .pure ⟨[], by simp, .nil vs, hapart, fun i rest hrun => ?_⟩
      -- without tokens there is no run
      exact absurd (initialRun_length_pos hrun (by simp)) (by omega)
  | succ bound ih =>
      intro seen vs hlen hhead hoffset hapart
      unfold Parser.initializers
      refine .bind (.attempt ((initializer_ensures vs).mono fun i us hi => ?_) fun hno => ?_)
      · obtain ⟨ts, hvs, hline, hend⟩ := hi
        have hi_offset := initializerOf_offset_le hline
        show Ensures (if _ then _ else _) us _
        split
        · exact .throw
        · next hoverlap =>
            -- the new value is apart from all that were seen
            have happ : ((seen ++ [i]).map Located.value).Pairwise Apart := by
              rw [List.map_append, List.pairwise_append]
              refine ⟨hapart, by simp, fun j hj k hk => ?_⟩
              obtain ⟨j', hj', rfl⟩ := List.mem_map.mp hj
              obtain rfl : k = i.value := by simpa using hk
              rw [← overlaps_eq_false_iff (hoffset j' hj') hi_offset]
              simp only [List.any_eq_true, not_exists, not_and, Bool.not_eq_true] at hoverlap
              exact hoverlap j' hj'
            have hlen' : (dropNewlines us).length ≤ bound := by
              have hdrop := length_dropNewlines_le us
              have hpos := initializerOf_length_pos hline
              rw [hvs, List.length_append] at hlen
              omega
            refine .bind (.skipNewlines ((ih (seen ++ [i]) _ hlen' (head?_dropNewlines us) ?_
              happ).mono fun is us' his => ?_))
            · intro j hj
              rcases List.mem_append.mp hj with hj | hj
              · exact hoffset j hj
              · obtain rfl : j = i := by simpa using hj
                exact hi_offset
            · obtain ⟨new, his, hrun, hpair, hlongest⟩ := his
              refine ⟨i.value :: new, by rw [his]; simp, ?_, hpair, hlongest⟩
              rw [hvs]
              exact .line hline hend (initialRun_of_dropNewlines hrun)
      · -- the attempt has failed, and it would not have on the first line of a run
        refine .pure ⟨[], by simp, .nil vs, hapart, fun i rest hrun => hno ?_⟩
        have hacc := initialRun_single_accepts hrun rfl
        rwa [dropNewlines_eq_self hhead] at hacc

/--
A run of initial values that cannot be made longer is read to its end. Its values have to be apart
from each other and from those seen before; the loop checks each new one against all earlier ones,
and the pairs behind it come later.
-/
theorem Accepts.initializers {ts rest : List Token} {is : List Initializer}
    (hrun : InitialRun ts is rest) (hlongest : ∀ i rest', ¬ InitialRun rest [i] rest') :
    ∀ {bound : Nat} {seen : List (Located Initializer)}
      {K : List (Located Initializer) → List Token → Prop}, (dropNewlines ts).length ≤ bound →
      (∀ i ∈ seen, i.value.offset.toNat ≤ Slot.maxOffset) →
      (seen.map Located.value ++ is).Pairwise Apart →
      (∀ all, all.map Located.value = seen.map Located.value ++ is → K all (dropNewlines rest)) →
      Accepts (initializers seen bound) (dropNewlines ts) K := by
  induction hrun with
  -- the run is over: the attempt fails on what follows, since the run is the longest
  | nil ts =>
      intro bound seen K _ _ _ hK
      cases bound with
      | zero => exact .pure (hK seen (by simp))
      | succ bound =>
          refine .bind (.attempt_none (initializer_rejects hlongest) ?_)
          exact .pure (hK seen (by simp))
  | blank _ ih => exact ih hlongest
  | @line ls ts rest i is hi hend _ ih =>
      intro bound seen K hlen hoffset hapart hK
      have hpos := initializerOf_length_pos hi
      have hdrop := length_dropNewlines_le ts
      rw [dropNewlines_eq_self (initializerOf_head hi)] at hlen ⊢
      rw [List.length_append] at hlen
      obtain ⟨b, rfl⟩ : ∃ b, bound = b + 1 := ⟨bound - 1, by omega⟩
      refine .bind (.attempt_some (.initializer hi hend fun span => ?_))
      -- the value is apart from those before it, so the check lets it pass
      have hno : ¬ (seen.any fun j => j.value.overlaps i) = true := by
        simp only [List.any_eq_true, not_exists, not_and, Bool.not_eq_true]
        intro j hj
        rw [overlaps_eq_false_iff (hoffset j hj) (initializerOf_offset_le hi)]
        exact (List.pairwise_append.mp hapart).2.2 j.value (List.mem_map.mpr ⟨j, hj, rfl⟩) i
          (by simp)
      show Accepts (if _ then _ else _) ts K
      rw [if_neg hno]
      refine .bind (.skipNewlines (ih hlongest (by omega) ?_ ?_ fun all hall => ?_))
      -- the offsets seen so far, with the new one added
      · intro j hj
        rcases List.mem_append.mp hj with hj | hj
        · exact hoffset j hj
        · obtain rfl : j = ⟨i, span⟩ := by simpa using hj
          exact initializerOf_offset_le hi
      · simpa using hapart
      · exact hK all (by rw [hall]; simp)

/-! ## Statements -/

/-- Statements have at least the end of the text, so there is always a token to look at. -/
theorem statementsOf_length_pos {ts : List Token} {ss : List Statement} (h : StatementsOf ts ss) :
    0 < ts.length := by
  induction h with
  | done => simp
  | blank _ _ => simp
  | line _ _ _ ih => rw [List.length_append]; omega

/-- The tokens `vs` start with statements up to an end of the text, where `us` starts. -/
def StatementsAhead (vs : List Token) (ss : List Statement) (us : List Token) : Prop :=
  ∃ ts more, vs = ts ++ more ∧ us = .eof :: more ∧ StatementsOf ts ss

/-- Line breaks in front of statements are part of them. -/
theorem StatementsAhead.of_dropNewlines {vs us : List Token} {ss : List Statement}
    (h : StatementsAhead (dropNewlines vs) ss us) : StatementsAhead vs ss us := by
  induction vs with
  | nil => exact h
  | cons v vs ih =>
      by_cases hv : v = .newline
      · subst hv
        obtain ⟨ts, more, rfl, hus, hts⟩ := ih h
        exact ⟨.newline :: ts, more, rfl, hus, .blank hts⟩
      · rwa [dropNewlines_eq_self (by simpa using hv)] at h

/-- The end of a line is a line break, which is read, or the end of the text, which is not. -/
theorem Ensures.terminator {vs : List Token} {K : Unit → List Token → Prop}
    (heof : vs.head? = some .eof → K () vs) (hnewline : ∀ us, vs = .newline :: us → K () us) :
    Ensures terminator vs K := by
  unfold Parser.terminator
  refine .bind ?_
  cases vs with
  | nil => exact .peek_nil
  | cons v vs =>
      refine .peek ?_
      cases v with
      | eof => exact .pure (heof rfl)
      | newline => exact .bind (.next (.pure (hnewline vs rfl)))
      | _ => exact .bind (.next .fail)

/--
The end of a line is accepted. What it leaves is known up to line breaks only, as the newline is
read and the end of the text is not; and the loop over statements skips line breaks anyway.
-/
theorem Accepts.terminator {vs : List Token} {K : Unit → List Token → Prop} (hend : LineEnds vs)
    (h : ∀ us, dropNewlines us = dropNewlines vs → K () us) : Accepts terminator vs K := by
  unfold Parser.terminator
  cases vs with
  | nil => simp [LineEnds] at hend
  | cons v vs =>
      have hv : v = .newline ∨ v = .eof := by simpa [LineEnds] using hend
      refine .bind (.peek ?_)
      rcases hv with rfl | rfl
      · exact .bind (.next (.pure (h vs rfl)))
      · exact .pure (h _ rfl)

theorem lineEnds_append {ts : List Token} (h : LineEnds ts) (more : List Token) :
    LineEnds (ts ++ more) := by
  cases ts with
  | nil => simp [LineEnds] at h
  | cons t ts => exact h

/-- The parser reads statements up to the first end of the text, which it leaves unread. -/
def ReadsStatements (p : Parser (List (Located Statement) × Span)) : Prop :=
  ∀ vs, Ensures p vs fun r us => StatementsAhead vs (r.1.map Located.value) us

/--
A line with a statement, and the statements that `p` reads after it. This is one round of the loop
over statements, so induction on its bound goes through it.
-/
theorem readsStatements_line {p : Parser (List (Located Statement) × Span)}
    (hp : ReadsStatements p) :
    ReadsStatements (do
      let s ← spanned statement
      terminator
      let (ss, finish) ← p
      pure (s :: ss, finish)) := by
  intro vs
  refine .bind (.spanned ((statement_reads vs).mono fun s us hs span => ?_))
  obtain ⟨ls, hvs, hline⟩ := hs
  refine .bind (.terminator (fun heof => ?_) fun us₁ hus => ?_)
  · -- on the last line the end of the text is left to `p`
    refine .bind ((hp us).mono fun r us₁ hr => .pure ?_)
    obtain ⟨ts, more, hus, rfl, hts⟩ := hr
    have hend : LineEnds ts := by
      cases ts with
      | nil => exact absurd (statementsOf_length_pos hts) (by simp)
      | cons t ts => right; rw [hus] at heof; simpa using heof
    exact ⟨ls ++ ts, more, by rw [hvs, hus]; simp, rfl, .line hline hend hts⟩
  · refine .bind ((hp us₁).mono fun r us₂ hr => .pure ?_)
    obtain ⟨ts, more, hus₁, rfl, hts⟩ := hr
    exact ⟨ls ++ .newline :: ts, more, by rw [hvs, hus, hus₁]; simp, rfl,
      .line hline (.inl rfl) (.blank hts)⟩

/--
The loop over statements reads statements up to an end of the text, by induction on its bound. Line
breaks are skipped in front of each round, and the grammar counts them as part of what follows.
-/
theorem statements_readsStatements (bound : Nat) : ReadsStatements (statements bound) := by
  induction bound with
  | zero => intro vs; exact .fail
  | succ bound ih =>
      intro vs
      unfold Parser.statements
      refine .bind (.skipNewlines (.bind ?_))
      cases hdrop : dropNewlines vs with
      | nil => exact .peek_nil
      | cons v us =>
          refine .peek ?_
          have hline := (readsStatements_line ih (dropNewlines vs)).mono
            fun r us' hr => hr.of_dropNewlines
          rw [hdrop] at hline
          -- the end of the text ends the loop, and on every other token a statement is read
          cases v with
          | eof =>
              refine .bind (.peekSpan fun span => .pure (.of_dropNewlines ?_))
              exact ⟨[.eof], us, hdrop, rfl, .done⟩
          | _ => exact hline

/--
A statement starts neither like the end of the text nor with a line break, so the loop does not stop
in front of one and skips nothing of it.
-/
theorem statementOf_head {ts : List Token} {s : Statement} (h : StatementOf ts s) :
    ∃ t us, ts = t :: us ∧ t ≠ .eof ∧ t ≠ .newline := by
  have hplace : ∀ {ps vs : List Token} {target : Place}, PlaceOf ps target →
      ∃ t us, ps ++ vs = t :: us ∧ t ≠ .eof ∧ t ≠ .newline := by
    intro ps vs target hp
    obtain ⟨t, us, rfl, rfl | ⟨name, rfl⟩⟩ := place_head hp
    · exact ⟨_, _, rfl, by simp, by simp⟩
    · exact ⟨_, _, rfl, by simp, by simp⟩
  -- the forms that store start with a place, all others with a word of their own or a `#`
  cases h with
  | syscallTo _ hp _ => exact hplace hp
  | select hp _ _ _ => exact hplace hp
  | assignIf hp _ _ => exact hplace hp
  | assign hp _ => exact hplace hp
  | update _ hp _ => exact hplace hp
  | _ => exact ⟨_, _, rfl, by simp, by simp⟩

/--
All statements of a list are read, from any tokens that differ from theirs by line breaks in front.
Tokens behind the end of the text are allowed and left alone.
-/
theorem Accepts.statements {ts more : List Token} {ss : List Statement} (h : StatementsOf ts ss) :
    ∀ {bound : Nat} {vs : List Token} {K : List (Located Statement) × Span → List Token → Prop},
      dropNewlines vs = dropNewlines (ts ++ more) → (dropNewlines (ts ++ more)).length ≤ bound →
      (∀ r us, r.1.map Located.value = ss → K r us) → Accepts (statements bound) vs K := by
  induction h with
  | done =>
      intro bound vs K hvs hlen hK
      -- the end of the text is no line break, so it is found where it stands
      have hself : dropNewlines ([.eof] ++ more) = .eof :: more := rfl
      rw [hself, List.length_cons] at hlen
      obtain ⟨b, rfl⟩ : ∃ b, bound = b + 1 := ⟨bound - 1, by omega⟩
      refine .bind (.skipNewlines (.bind ?_))
      rw [hvs, hself]
      exact .peek (.bind (.peekSpan fun span => .pure (hK _ _ rfl)))
  | blank _ ih => exact ih
  | @line ls ts s ss hs hend hmore ih =>
      intro bound vs K hvs hlen hK
      obtain ⟨t, us, rfl, heof, hnewline⟩ := statementOf_head hs
      have hends : LineEnds (ts ++ more) := lineEnds_append hend more
      rw [List.append_assoc] at hvs hlen
      have hself : dropNewlines (t :: us ++ (ts ++ more)) = t :: us ++ (ts ++ more) :=
        dropNewlines_eq_self (by simpa using hnewline)
      have hdrop := length_dropNewlines_le (ts ++ more)
      rw [hself, List.length_append, List.length_cons] at hlen
      obtain ⟨b, rfl⟩ : ∃ b, bound = b + 1 := ⟨bound - 1, by omega⟩
      unfold Parser.statements
      refine .bind (.skipNewlines (.bind ?_))
      rw [hvs, hself]
      refine .peek ?_
      -- a statement does not start with the end of the text
      split
      · exact absurd rfl heof
      · refine .bind (.spanned (.statement hs hends fun span => .bind (.terminator hends ?_)))
        intro us' hus'
        refine .bind (ih hus' (by omega) fun r us'' hr => .pure (hK _ _ ?_))
        rw [List.map_cons, hr]

/-! ## Labels -/

theorem definedLabels_eq (ss : List (Located Statement)) :
    definedLabels ss = (ss.map Located.value).filterMap Statement.label? := by
  rw [List.filterMap_map]
  rfl

/-- A name is among the defined labels exactly if there is a label statement with that name. -/
theorem mem_labels_iff {ss : List Statement} {name : String} :
    name ∈ ss.filterMap Statement.label? ↔ .label name ∈ ss := by
  rw [List.mem_filterMap]
  constructor
  · intro h
    obtain ⟨s, hs, hname⟩ := h
    cases s with
    | label name' => cases hname; exact hs
    | _ => cases hname
  · intro h
    exact ⟨.label name, h, rfl⟩

/-- No label is repeated exactly if all are different, and different from the ones seen before. -/
theorem repeatedLabel?_eq_none_iff (ss : List (Located Statement)) :
    ∀ seen, repeatedLabel? seen ss = none ↔
      (∀ name ∈ definedLabels ss, name ∉ seen) ∧ (definedLabels ss).Nodup := by
  induction ss with
  | nil => intro seen; simp [repeatedLabel?, definedLabels]
  | cons s ss ih =>
      intro seen
      unfold repeatedLabel?
      cases hlabel : s.value.label? with
      | none =>
          have hcons : definedLabels (s :: ss) = definedLabels ss :=
            List.filterMap_cons_none hlabel
          simp only [hcons]
          exact ih seen
      | some name =>
          have hcons : definedLabels (s :: ss) = name :: definedLabels ss :=
            List.filterMap_cons_some hlabel
          simp only [hcons, List.mem_cons, forall_eq_or_imp, List.nodup_cons]
          by_cases hseen : name ∈ seen
          · simp [hseen]
          · -- the label joins those that were seen
            rw [if_neg hseen, ih]
            constructor
            · intro h
              refine ⟨⟨hseen, fun n hn hmem => h.1 n hn (List.mem_cons_of_mem _ hmem)⟩, ?_, h.2⟩
              exact fun hn => h.1 name hn List.mem_cons_self
            · intro h
              refine ⟨fun n hn hmem => ?_, h.2.2⟩
              rcases List.mem_cons.mp hmem with rfl | hmem
              · exact h.2.1 hn
              · exact h.1.2 n hn hmem

/--
No jump goes to an unknown label exactly if every jump to a label goes to a known one; a jump to the
end has nothing to look up.
-/
theorem unknownLabel?_eq_none_iff (ss : List (Located Statement)) (defined : List String) :
    unknownLabel? defined ss = none ↔
      ∀ s ∈ ss, ∀ name, s.value.jump? = some (.label name) → name ∈ defined := by
  unfold unknownLabel?
  rw [List.findSome?_eq_none_iff]
  refine forall_congr' fun s => imp_congr_right fun _ => ?_
  unfold Statement.jumpLabel?
  cases hjump : s.value.jump? with
  | none => simp
  | some d =>
      cases d with
      | finish => simp
      | label name =>
          by_cases hname : name ∈ defined
          · simp [hname]
          · simp [hname]

/--
**The check of the labels decides the rule about labels**: no label is defined twice, and every jump
to a label finds its definition.
-/
theorem checkLabels_eq_ok_iff (ss : List (Located Statement)) :
    checkLabels ss = .ok () ↔ LabelsResolve (ss.map Located.value) := by
  -- the two checks together are the two halves of the rule
  have hresolve : LabelsResolve (ss.map Located.value) ↔
      repeatedLabel? [] ss = none ∧ unknownLabel? (definedLabels ss) ss = none := by
    rw [repeatedLabel?_eq_none_iff, unknownLabel?_eq_none_iff, definedLabels_eq]
    constructor
    · intro h
      refine ⟨⟨by simp, h.unique⟩, fun s hs name hjump => ?_⟩
      exact mem_labels_iff.mpr (h.defined s.value (List.mem_map.mpr ⟨s, hs, rfl⟩) name hjump)
    · intro h
      refine ⟨h.1.2, fun s hs name hjump => ?_⟩
      obtain ⟨s', hs', rfl⟩ := List.mem_map.mp hs
      exact mem_labels_iff.mp (h.2 s' hs' name hjump)
  rw [hresolve]
  unfold checkLabels
  cases repeatedLabel? [] ss with
  | some name => simp
  | none =>
      cases unknownLabel? (definedLabels ss) ss with
      | some name => simp
      | none => simp

/--
A check without tokens, used inside of a parser: it leaves the tokens alone and ensures what it
says.
-/
theorem Ensures.lift {α : Type} {x : Except (Located ParseError) α} {vs : List Token}
    {K : α → List Token → Prop} (h : ∀ a, x = .ok a → K a vs) :
    Ensures (liftM x : Parser α) vs K := by
  intro c a c' hc hx
  cases x with
  | error e => cases hx
  | ok b =>
      cases hx
      rw [hc]
      exact h a rfl

/-- If the check passes, the parser goes on with what was checked. -/
theorem Accepts.lift {α : Type} {x : Except (Located ParseError) α} {a : α} {vs : List Token}
    {K : α → List Token → Prop} (hx : x = .ok a) (h : K a vs) :
    Accepts (liftM x : Parser α) vs K := by
  intro c hc
  subst hx
  exact ⟨a, c, rfl, by rw [hc]; exact h⟩

/-! ## Programs -/

/--
What is read as a program has the form of one: a longest run of initial values, statements up to an
end of the text, and the two rules about the program as a whole.
-/
theorem program_ensures (vs : List Token) :
    Ensures program vs fun p _ =>
      (∃ rest us, InitialRun vs (p.data.map Located.value) rest ∧
        StatementsAhead rest (p.statements.map Located.value) us ∧
        ∀ i rest', ¬ InitialRun rest [i] rest') ∧
      (p.data.map Located.value).Pairwise Apart ∧
      LabelsResolve (p.statements.map Located.value) := by
  unfold Parser.program
  refine .bind (.skipNewlines (.bind (.remaining (.bind ?_))))
  -- nothing is seen yet when the initial values start
  refine (initializers_ensures _ [] _ (Nat.le_refl _) (head?_dropNewlines vs) (by simp)
    (by simp)).mono fun data rest hdata => ?_
  obtain ⟨new, hnew, hrun, hapart, hlongest⟩ := hdata
  refine .bind (.remaining (.bind ?_))
  refine (statements_readsStatements _ rest).mono fun r us hr => .bind ?_
  refine .lift fun _ hlabels => .pure ⟨⟨rest, us, ?_, hr, hlongest⟩, hapart, ?_⟩
  · rw [show data.map Located.value = new from by simpa using hnew]
    exact initialRun_of_dropNewlines hrun
  · exact (checkLabels_eq_ok_iff r.1).mp hlabels

/-- Whatever has that form is read as a program with these values and statements. -/
theorem Accepts.program {vs rest us : List Token} {data : List Initializer} {ss : List Statement}
    (hrun : InitialRun vs data rest) (hstatements : StatementsAhead rest ss us)
    (hlongest : ∀ i rest', ¬ InitialRun rest [i] rest') (hapart : data.Pairwise Apart)
    (hlabels : LabelsResolve ss) :
    Accepts program vs fun p _ =>
      p.data.map Located.value = data ∧ p.statements.map Located.value = ss := by
  obtain ⟨ts, more, rfl, -, hts⟩ := hstatements
  unfold Parser.program
  refine .bind (.skipNewlines (.bind (.remaining (.bind ?_))))
  -- first the data, as many lines of it as there are, and then the statements
  refine .initializers hrun hlongest (Nat.le_refl _) (by simp) (by simpa using hapart)
    fun all hall => .bind (.remaining (.bind ?_))
  refine .statements hts ?_ (Nat.le_refl _) fun r us hr => .bind ?_
  · exact dropNewlines_eq_self (head?_dropNewlines _)
  · refine .lift ((checkLabels_eq_ok_iff r.1).mpr (by rw [hr]; exact hlabels)) (.pure ⟨?_, hr⟩)
    simpa using hall

end Parser

/-! ## The end of the text -/

namespace Grammar

/-- The text ends where its tokens do, and nowhere before. -/
def EndsOnce (ts : List Token) : Prop := ∃ body, ts = body ++ [.eof] ∧ .eof ∉ body

/-- Statements go up to an end of the text, which is their last token. -/
theorem statementsOf_ends {ts : List Token} {ss : List Statement} (h : StatementsOf ts ss) :
    ∃ body, ts = body ++ [.eof] := by
  induction h with
  | done => exact ⟨[], rfl⟩
  | blank _ ih =>
      obtain ⟨body, rfl⟩ := ih
      exact ⟨.newline :: body, rfl⟩
  | @line ls _ _ _ _ _ _ ih =>
      obtain ⟨body, rfl⟩ := ih
      exact ⟨ls ++ body, by simp⟩

/-- The tokens that a run leaves are a suffix of those it started with. -/
theorem initialRun_suffix {ts rest : List Token} {is : List Initializer}
    (h : InitialRun ts is rest) : ∃ front, ts = front ++ rest := by
  induction h with
  | nil ts => exact ⟨[], rfl⟩
  | blank _ ih =>
      obtain ⟨front, rfl⟩ := ih
      exact ⟨.newline :: front, rfl⟩
  | @line ls _ _ _ _ _ _ _ ih =>
      obtain ⟨front, rfl⟩ := ih
      exact ⟨ls ++ front, by simp⟩

/-- Nothing follows an end of a text that ends once. -/
theorem EndsOnce.eq_nil {ts front more : List Token} (h : EndsOnce ts)
    (hts : ts = front ++ .eof :: more) : more = [] := by
  obtain ⟨body, rfl, hbody⟩ := h
  rcases List.eq_nil_or_concat more with rfl | ⟨init, last, rfl⟩
  · rfl
  · rw [List.concat_eq_append, ← List.cons_append, ← List.append_assoc] at hts
    obtain ⟨hbody', -⟩ := List.append_inj' hts rfl
    exact absurd (by rw [hbody']; simp) hbody

end Grammar

namespace Program

/-- A program comes from a successful run of its parser; the remaining tokens are forgotten. -/
theorem ofTokens_eq_ok {tokens : List (Located Token)} {start : Span} {p : Program}
    (h : ofTokens tokens start = .ok p) : ∃ c, Parser.program ⟨tokens, start⟩ = .ok (p, c) := by
  unfold ofTokens at h
  cases hp : Parser.program ⟨tokens, start⟩ with
  | error e => rw [hp] at h; cases h
  | ok r =>
      rw [hp] at h
      cases h
      exact ⟨r.2, rfl⟩

/-- Whatever is accepted is derived, up to tokens after the end of the text. -/
theorem ofTokens_sound {tokens : List (Located Token)} {start : Span} {p : Program}
    (h : ofTokens tokens start = .ok p) :
    (∃ rest us, InitialRun (tokens.map Located.value) (p.data.map Located.value) rest ∧
      Parser.StatementsAhead rest (p.statements.map Located.value) us ∧
      ∀ i rest', ¬ InitialRun rest [i] rest') ∧
    (p.data.map Located.value).Pairwise Apart ∧
    LabelsResolve (p.statements.map Located.value) := by
  obtain ⟨c, hc⟩ := ofTokens_eq_ok h
  exact Parser.program_ensures (tokens.map Located.value) _ _ _ rfl hc

/-- What is accepted, of any tokens: those after the end of the text are never looked at. -/
theorem ofTokens_iff {tokens : List (Located Token)} {data : List Initializer}
    {ss : List Statement} (start : Span) :
    (∃ p, ofTokens tokens start = .ok p ∧ p.data.map Located.value = data ∧
      p.statements.map Located.value = ss) ↔
    (∃ rest us, InitialRun (tokens.map Located.value) data rest ∧
      Parser.StatementsAhead rest ss us ∧ ∀ i rest', ¬ InitialRun rest [i] rest') ∧
    data.Pairwise Apart ∧ LabelsResolve ss := by
  constructor
  · intro h
    obtain ⟨p, hp, rfl, rfl⟩ := h
    exact ofTokens_sound hp
  · intro h
    -- what the grammar derives is accepted, wherever the tokens stand
    obtain ⟨⟨rest, us, hrun, hstatements, hlongest⟩, hapart, hlabels⟩ := h
    obtain ⟨p, c, hp, hdata, hss⟩ :=
      Parser.Accepts.program hrun hstatements hlongest hapart hlabels ⟨tokens, start⟩ rfl
    exact ⟨p, by rw [ofTokens, hp], hdata, hss⟩

/-- Whatever is derived is accepted. -/
theorem ofTokens_complete {tokens : List (Located Token)} {data : List Initializer}
    {ss : List Statement} (start : Span) (h : ProgramOf (tokens.map Located.value) data ss) :
    ∃ p, ofTokens tokens start = .ok p ∧ p.data.map Located.value = data ∧
      p.statements.map Located.value = ss := by
  obtain ⟨⟨rest, hrun, hstatements, hlongest⟩, hapart, hlabels⟩ := h
  refine (ofTokens_iff start).mpr ⟨⟨rest, .eof :: [], hrun, ?_, hlongest⟩, hapart, hlabels⟩
  -- here the statements go up to the last token, and nothing stands behind them
  exact ⟨rest, [], by simp, rfl, hstatements⟩

/-- On a text that ends once, nothing is left over after what is accepted. -/
theorem programOf_of_ofTokens {tokens : List (Located Token)} {start : Span} {p : Program}
    (hends : EndsOnce (tokens.map Located.value)) (h : ofTokens tokens start = .ok p) :
    ProgramOf (tokens.map Located.value) (p.data.map Located.value)
      (p.statements.map Located.value) := by
  obtain ⟨⟨rest, us, hrun, ⟨ts, more, hrest, -, hts⟩, hlongest⟩, hapart, hlabels⟩ :=
    ofTokens_sound h
  obtain ⟨front, hfront⟩ := initialRun_suffix hrun
  obtain ⟨body, hbody⟩ := statementsOf_ends hts
  have hsplit : tokens.map Located.value = (front ++ body) ++ .eof :: more := by
    rw [hfront, hrest, hbody]
    simp
  -- a second end of the text would be needed for anything to follow
  have hmore : more = [] := hends.eq_nil hsplit
  rw [hmore, List.append_nil] at hrest
  exact ⟨⟨rest, hrun, by rw [hrest]; exact hts, hlongest⟩, hapart, hlabels⟩

/-- The tokens, all placed at the start of a text: where they stand does not matter to a grammar. -/
def unplaced (ts : List Token) : List (Located Token) := ts.map fun t => ⟨t, .first⟩

theorem map_value_unplaced (ts : List Token) : (unplaced ts).map Located.value = ts := by
  rw [unplaced, List.map_map]
  exact List.map_id ts

/-- The grammar is unambiguous: what the parser returns for some tokens is all that they derive. -/
theorem programOf_unique {ts : List Token} {data data' : List Initializer}
    {ss ss' : List Statement} (h : ProgramOf ts data ss) (h' : ProgramOf ts data' ss') :
    data = data' ∧ ss = ss' := by
  rw [← map_value_unplaced ts] at h h'
  obtain ⟨p, hp, hdata, hss⟩ := ofTokens_complete .first h
  obtain ⟨p', hp', hdata', hss'⟩ := ofTokens_complete .first h'
  -- the parser is a function, and it is complete for both derivations
  obtain rfl : p = p' := by
    rw [hp] at hp'
    exact Except.ok.inj hp'
  exact ⟨hdata.symm.trans hdata', hss.symm.trans hss'⟩

/--
**The parser accepts exactly its language and builds exactly its tree.** On tokens of which only the
last is the end of a text, the parser returns a program exactly if the grammar derives the initial
values and the statements of that program, and the grammar derives nothing else from the tokens.
-/
theorem ofTokens_iff_programOf {tokens : List (Located Token)} (start : Span)
    (hends : EndsOnce (tokens.map Located.value)) :
    (∀ data ss, (∃ p, ofTokens tokens start = .ok p ∧ p.data.map Located.value = data ∧
        p.statements.map Located.value = ss) ↔ ProgramOf (tokens.map Located.value) data ss) ∧
      ∀ data ss data' ss', ProgramOf (tokens.map Located.value) data ss →
        ProgramOf (tokens.map Located.value) data' ss' → data = data' ∧ ss = ss' := by
  refine ⟨fun data ss => ⟨fun h => ?_, ofTokens_complete start⟩, fun _ _ _ _ => programOf_unique⟩
  obtain ⟨p, hp, rfl, rfl⟩ := h
  exact programOf_of_ofTokens hends hp

/--
A run of initial values with blank lines and a sign in it, a line that only looks like another one,
a choice, a parenthesis that is none, and jumps in both directions.
-/
theorem programOf_choice :
    let ts : List Token :=
      [.newline, .id "d", .openSquare, .number 8, .closeSquare, .assign, .binary .sub, .number 2,
        .newline, .newline, .openSquare, .keyword .const, .closeSquare, .assign, .number 7, .wide,
        .newline, .openSquare, .keyword .data, .closeSquare, .assign, .openParen, .number 1,
        .closeParen, .newline, .hash, .id "top", .newline, .id "s", .openSquare, .number 0,
        .closeSquare, .assign, .openParen, .binary .sub, .id "m8", .openSquare, .keyword .sp,
        .closeSquare, .compare (.lt .signed), .number 3, .closeParen, .question, .openParen,
        .keyword .sp, .binary .add, .number 1, .closeParen, .colon, .number 0, .newline,
        .keyword .goto, .id "top", .keyword .cond, .number 1, .compare .ne, .number 2, .newline,
        .keyword .goto, .keyword .finish, .eof]
    EndsOnce ts ∧
      ProgramOf ts [⟨.data, 8, -2⟩, ⟨.const, 0, 7⟩]
        [.assign (.slot ⟨.region .data, 0⟩) (.number 1 false), .label "top",
          .select (.slot ⟨.stack, 0⟩)
            ⟨.unary .neg (.indirect .byte .sp), .lt .signed, .number 3 false⟩
            (.binary .add .sp (.number 1 false)) (.number 0 false),
          .gotoIf (.label "top") ⟨.number 1 false, .ne, .number 2 false⟩, .goto .finish] := by
  intro ts
  have hends : EndsOnce ts := ⟨ts.dropLast, by decide, by decide⟩
  refine ⟨hends, ?_⟩
  rw [← map_value_unplaced ts] at hends ⊢
  -- the grammar cannot be computed, but the parser can, and it accepts just its programs
  refine ((ofTokens_iff_programOf .first hends).1 _ _).mp ⟨_, rfl, ?_, ?_⟩
  · decide
  · decide

end Program

end Quadword
