import Quadword.Proofs.Token.Run

/-!
# A lexer yields what a scanner yields

A lexer and a scanner at the same place find the same things: between two tokens, going from state
to state comes to what looking ahead finds (`Lexer.At.lex_found`). So a pull on the one yields what
a pull on the other yields (`Lexer.At.agrees`), and so does the whole scan of a source, as both
start at its first character (`Source.scan_eq_scanner`).

* **`Lexer.Found`**: what a pull comes to, by what is found.
* **`Lexer.Follows`**: the lexer and the scanner between two pulls.
-/

namespace Quadword

open Lexical Front

namespace Lexer

variable {l : Lexer} {last : Span} {s : Scanner} {n : Nat} {items : List (Located Item)}
  {total : Nat} {c : Char} {cs : List Char} {t : Token} {e : LexError} {state : State}

/-! ## What is found between two tokens -/

/-- The pull comes to what has been found where the scanner is. -/
def Found (out : Outcome × Lexer) (s : Scanner) (items : List (Located Item)) (total : Nat) :
    Front → Prop
  | .token t extra => EmitsAt out s (extra + 1) t items total
  | .blank extra => SkipsTo out (s.skip (extra + 1)) items total
  | .fault e read => FailsAt out (s.skip read) e items total

/--
What starts at a character and takes it: the token starts there, and one character of it has been
taken.
-/
theorem At.take_begin (h : l.At s items total) (hs : l.state = .start) (hrest : s.rest = c :: cs)
    (hmove : State.begin c = .take state) (last : Span) :
    ∃ (l' : Lexer) (last' : Span), l.lex last = l'.lex last' ∧ l'.Within last' s 1 items total ∧
      l'.state = state ∧ s.rest.drop 1 = cs := by
  have hturn : l.turn last = _ := turn_start hs (h.rest_char hrest)
  rw [hmove] at hturn
  have hpeek : Lexer.At { l.peek with start := l.next } s items total := h.peek.congr rfl rfl rfl
  obtain ⟨l', htake, hhere, hstate, hstart⟩ := hpeek.take hrest state l.next
  refine ⟨l', _, lex_more (hturn.trans htake), ⟨hhere, hstart.trans h.next, rfl⟩, hstate, ?_⟩
  rw [hrest]
  rfl

/--
What starts at a character and keeps it: the token starts there, and none of its characters has been
taken.
-/
theorem At.keep_begin (h : l.At s items total) (hs : l.state = .start) (hrest : s.rest = c :: cs)
    (hmove : State.begin c = .keep state) (last : Span) :
    ∃ (l' : Lexer) (last' : Span), l.lex last = l'.lex last' ∧ l'.Within last' s 0 items total ∧
      l'.state = state ∧ s.rest.drop 0 = c :: cs := by
  have hturn : l.turn last = _ := turn_start hs (h.rest_char hrest)
  rw [hmove] at hturn
  exact ⟨_, _, lex_more hturn, ⟨h.peek.congr rfl rfl rfl, h.next, h.next⟩, rfl, hrest⟩

theorem At.fail_begin (h : l.At s items total) (hs : l.state = .start) (hrest : s.rest = c :: cs)
    (hmove : State.begin c = .fail e) (last : Span) : FailsAt (l.lex last) s e items total := by
  have hturn : l.turn last = _ := turn_start hs (h.rest_char hrest)
  rw [hmove] at hturn
  exact h.failsAt_of_done (Scanner.blocked_of_cons hrest) hturn rfl rfl

/-- Decimal digits come to what reading them as a literal comes to. -/
theorem Found.of_decimal {out : Outcome × Lexer} {ds : List Char} (hne : ds ≠ []) :
    LiteralAt out s 0 ds false items total (readDigits 10 0 ds) →
      Found out s items total (literal 10 0 ds) := by
  unfold literal
  cases readDigits 10 0 ds with
  | ok v =>
    show EmitsAt _ s (0 + ds.length) _ _ _ → EmitsAt _ s (0 + ds.length - 1 + 1) _ _ _
    rw [Nat.zero_add, Nat.sub_add_cancel (List.length_pos_iff.mpr hne)]
    exact id
  | error i => exact id

/--
Hexadecimal literals are found as well, where `found` asks for the same count of the digits as the
state does.
-/
theorem Found.of_hex {out : Outcome × Lexer} {x : Char} (hx : x = 'x' ∨ x = 'X') {ds : List Char}
    (hds : cs.takeWhile isHexDigit = ds) :
    LiteralAt out s 2 ds (ds.length % 2 ^ 32 = 0) items total (readDigits 16 0 ds) →
      Found out s items total (found '0' (x :: cs)) := by
  have hfront : front '0' (x :: cs) = hexadecimal cs := by
    rcases hx with rfl | rfl <;> rfl
  -- the digits that are counted are those that were taken
  have hwraps : Wraps ('0' :: x :: cs) ↔ ds ≠ [] ∧ ds.length % 2 ^ 32 = 0 := by
    rw [← hds, wraps_iff]
    exact and_iff_right hx
  cases ds with
  | nil =>
    have hfault : front '0' (x :: cs) = .fault .missingDigits 2 := by
      rw [hfront, hexadecimal, hds]
    rw [found_of_fault hfault]
    exact id
  | cons d ds =>
    have hliteral : front '0' (x :: cs) = literal 16 2 (d :: ds) := by
      rw [hfront, hexadecimal, hds]
    unfold literal at hliteral
    cases hread : readDigits 16 0 (d :: ds) with
    | error i =>
      rw [hread] at hliteral
      rw [found_of_fault hliteral]
      exact id
    | ok v =>
      rw [hread] at hliteral
      -- with a count of zero, the lexer takes the digits for none
      by_cases hzero : (d :: ds).length % 2 ^ 32 = 0
      · rw [decide_eq_true hzero, found_of_wraps hliteral (hwraps.mpr ⟨List.cons_ne_nil d ds, hzero⟩)]
        exact id
      · rw [decide_eq_false hzero, found_eq_token.mpr ⟨hliteral, fun h => hzero (hwraps.mp h).2⟩]
        exact id

/--
An operator comes to what its run is looked up as. A lexer that has taken the run knows this text
only, which is enough for that.
-/
theorem Found.of_operator {out : Outcome × Lexer} {run : List Char} (hne : run ≠ []) :
    OperatorAt out s run items total →
      Found out s items total (match operatorOf? (.ofList run) with
        | some t => .token t (run.length - 1)
        | none => .fault (.badOperator (.ofList run)) run.length) := by
  intro h
  unfold OperatorAt at h
  revert h
  cases operatorOf? (.ofList run) with
  | some t =>
    show _ → EmitsAt _ s (run.length - 1 + 1) _ _ _
    rw [Nat.sub_add_cancel (List.length_pos_iff.mpr hne)]
    exact id
  | none => exact id

/-- A run has the characters that it started with. -/
theorem operatorRun_ne_nil {seen : List Char} (h : seen ≠ []) (cs : List Char) :
    operatorRun seen cs ≠ [] := by
  induction cs generalizing seen with
  | nil => exact h
  | cons c cs ih =>
    rw [operatorRun]
    split
    · exact ih (by simp)
    · exact h

/-- In front of an undecodable line it makes no difference what the operator is. -/
theorem OperatorAt.of_blocked {run : List Char} (h : l.At (s.skip run.length) items total)
    (hblocked : (s.skip run.length).blocked = true) (last : Span) :
    OperatorAt (l.lex last) s run items total := by
  unfold OperatorAt
  split
  · unfold EmitsAt
    rw [if_pos hblocked]
    exact h.failsAt hblocked last _
  · exact h.failsAt hblocked last _

/--
After a slash it is seen whether it opens a comment. If it does, the comment is skipped to its end;
otherwise it starts an operator.
-/
theorem At.found_slash (h : l.At s items total) (hs : l.state = .start) (hrest : s.rest = '/' :: cs)
    (last : Span) : Found (l.lex last) s items total (slash cs) := by
  have hmove : State.begin '/' = .take .slash := rfl
  obtain ⟨l', last', hlex, h', hs', hcs⟩ := h.take_begin hs hrest hmove last
  have hstart : l'.state ≠ .start := by simp [hs']
  rw [hlex]
  unfold slash
  split
  · next cs =>
    have hmove : l'.state.moveAt '/' = .take .lineComment := by rw [hs']; rfl
    obtain ⟨k, last'', hlex', hk, hsk, hcs'⟩ := h'.take hstart hcs hmove
    rw [hlex']
    show SkipsTo _ (s.skip (1 + _ + 1)) _ _
    rw [Nat.add_right_comm]
    exact hk.lineComment hsk hcs'
  · next cs =>
    have hmove : l'.state.moveAt '*' = .take .blockComment := by rw [hs']; rfl
    obtain ⟨k, last'', hlex', hk, hsk, hcs'⟩ := h'.take hstart hcs hmove
    have hblock := (block s items total cs).1 hk hsk hcs'
    rw [hlex']
    split
    · next stop hstop =>
      rw [hstop] at hblock
      show SkipsTo _ (s.skip (1 + stop + 1)) _ _
      rw [Nat.add_right_comm]
      exact hblock
    · next hstop =>
      rw [hstop] at hblock
      exact hblock
  -- neither a second slash nor a `*` follows
  · next hline hblock =>
    refine .of_operator (operatorRun_ne_nil (by simp) cs) ?_
    cases hblocked : (s.skip 1).blocked with
    | true =>
      have hnil : s.rest.drop 1 = [] := by
        simp only [Scanner.blocked, Bool.and_eq_true, List.isEmpty_iff] at hblocked
        exact hblocked.1
      rw [← hcs, hnil]
      exact .of_blocked h'.here hblocked last'
    | false =>
      -- any other character is left for the operator that the slash starts
      have hmove : l'.state.move false (s.rest.drop 1).head? = .keep (.operator "/") := by
        rw [hs', hcs]
        cases cs with
        | nil => rfl
        | cons c cs =>
          show State.moveAt .slash c = _
          rw [State.moveAt]
          · rintro rfl
            exact hline cs rfl
          · rintro rfl
            exact hblock cs rfl
      obtain ⟨k, hlex', hk, hsk⟩ := h'.keep hstart hblocked hmove
      rw [hlex']
      exact hk.operator hsk hcs

/--
A mark comes to what its text and the character behind that say. Without a closing brace the text is
not even looked at.
-/
theorem Found.of_mark {out : Outcome × Lexer} {run tail : List Char} :
    MarkAt out s run tail items total →
      Found out s items total (match tail with
        | '\x7d' :: _ =>
          if String.ofList run = "wide" then .token .wide (run.length + 1)
          else .fault (.unknownMark (.ofList run)) (1 + run.length)
        | _ => .fault .unclosedMark (1 + run.length)) := by
  intro h
  split
  · change if String.ofList run = "wide" then EmitsAt out s (run.length + 2) .wide items total
      else FailsAt out (s.skip (1 + run.length)) (.unknownMark (.ofList run)) items total at h
    split
    · next hwide => rwa [if_pos hwide] at h
    · next hwide => rwa [if_neg hwide] at h
  · -- without a brace the mark is not closed, whatever its name
    next hbrace =>
    unfold MarkAt at h
    split at h
    · next tail => exact absurd rfl (hbrace tail)
    · exact h

/-- A brace starts a mark, whose text is read to its end. -/
theorem At.found_mark (h : l.At s items total) (hs : l.state = .start)
    (hrest : s.rest = '\x7b' :: cs) (last : Span) : Found (l.lex last) s items total (mark cs) := by
  have hmove : State.begin '\x7b' = .take (.mark "") := rfl
  obtain ⟨l', last', hlex, h', hs', hcs⟩ := h.take_begin hs hrest hmove last
  rw [hlex]
  exact .of_mark (h'.mark hs' hcs)

/-- A digit other than zero starts a decimal literal, of which it is the first digit. -/
theorem At.found_decimal (h : l.At s items total) (hs : l.state = .start) (hrest : s.rest = c :: cs)
    (hc : c.isDigit = true) (hmove : State.begin c = .keep (.decimal 0)) (last : Span) :
    Found (l.lex last) s items total (decimal c cs) := by
  obtain ⟨l', last', hlex, h', hs', hcs⟩ := h.keep_begin hs hrest hmove last
  have hds : (s.rest.drop 0).takeWhile Char.isDigit = c :: cs.takeWhile Char.isDigit := by
    rw [hcs, List.takeWhile_cons_of_pos hc]
  rw [hlex]
  exact .of_decimal (List.cons_ne_nil _ _) (h'.decimal hs' hds)

/--
After a zero it is seen which literal it starts. The character behind it is only looked at, so a
lexer that has taken the zero may still be in a decimal literal.
-/
theorem At.found_zero (h : l.At s items total) (hs : l.state = .start) (hrest : s.rest = '0' :: cs)
    (last : Span) : Found (l.lex last) s items total (found '0' cs) := by
  have hmove : State.begin '0' = .take .zero := rfl
  obtain ⟨l', last', hlex, h', hs', hcs⟩ := h.take_begin hs hrest hmove last
  have hstart : l'.state ≠ .start := by simp [hs']
  have hhex : ∀ x cs', cs = x :: cs' → x = 'x' ∨ x = 'X' →
      Found (l.lex last) s items total (found '0' cs) := by
    intro x cs' hx hcase
    have hmove : l'.state.moveAt x = .take (.hex 0 0) := by
      rw [hs']
      rcases hcase with rfl | rfl <;> rfl
    obtain ⟨k, last'', hlex', hk, hsk, hcs'⟩ := h'.take hstart (hcs.trans hx) hmove
    rw [hlex, hlex', hx]
    exact .of_hex hcase (congrArg _ hcs'.symm) (hk.hex hsk rfl)
  -- anything else completes the literal zero
  have hemit : l'.state.move false (s.rest.drop 1).head? = .emit (.number 0) →
      Found (l.lex last) s items total (.token (.number 0) 0) := by
    intro hmove
    rw [hlex]
    exact h'.emit hstart fun _ => hmove
  rw [hcs, hs'] at hemit
  cases cs with
  | nil => exact hemit rfl
  | cons x cs =>
    -- an `x` behind the zero starts a hexadecimal literal, a digit goes on with a decimal one
    by_cases hx : x = 'x' ∨ x = 'X'
    · exact hhex x cs rfl hx
    obtain ⟨hlower, hupper⟩ := not_or.mp hx
    have hfound : found '0' (x :: cs) = decimal '0' (x :: cs) := by
      rw [found_eq_front (not_wraps_of_head? (by simp [hlower, hupper]))]
      show zero (x :: cs) = _
      rw [zero]
      · rintro _ ⟨⟩
        exact hlower rfl
      · rintro _ ⟨⟩
        exact hupper rfl
    have hmove : State.zero.moveAt x =
        if x.isDigit then .keep (.decimal 0) else .emit (.number 0) := by
      rw [State.moveAt]
      · exact hlower
      · exact hupper
    rw [hfound]
    by_cases hdigit : x.isDigit = true
    · rw [if_pos hdigit] at hmove
      have hkeep : l'.state.move false (s.rest.drop 1).head? = .keep (.decimal 0) := by
        rw [hs', hcs]
        exact hmove
      obtain ⟨k, hlex', hk, hsk⟩ := h'.keep hstart (Scanner.blocked_of_cons hcs) hkeep
      rw [hlex, hlex']
      exact .of_decimal (List.cons_ne_nil _ _) ((hk.decimal hsk (by rw [hcs])).cons '0')
    · rw [if_neg hdigit] at hmove
      have hdecimal : decimal '0' (x :: cs) = .token (.number 0) 0 := by
        rw [decimal, List.takeWhile_cons_of_neg hdigit]
        rfl
      rw [hdecimal]
      exact hemit hmove

theorem At.found_word (h : l.At s items total) (hs : l.state = .start) (hrest : s.rest = c :: cs)
    (hmove : State.begin c = .take (.word (.singleton c))) (last : Span) :
    Found (l.lex last) s items total (word c cs) := by
  obtain ⟨l', last', hlex, h', hs', hcs⟩ := h.take_begin hs hrest hmove last
  have hword := h'.word hs'
  rw [hcs, String.toList_singleton, Nat.add_comm 1, ← hlex] at hword
  exact hword

/--
A character that starts an operator starts the run of one; the state has taken nothing of it yet.
-/
theorem At.found_operator (h : l.At s items total) (hs : l.state = .start)
    (hrest : s.rest = c :: cs) (hc : startsOperator [c] = true)
    (hmove : State.begin c = .keep (.operator "")) (last : Span) :
    Found (l.lex last) s items total (operator c cs) := by
  obtain ⟨l', last', hlex, h', hs', hcs⟩ := h.keep_begin hs hrest hmove last
  have hrun : operatorRun "".toList (c :: cs) = operatorRun [c] cs := if_pos hc
  have hoperator := h'.operator hs' hcs
  rw [hrun, ← hlex] at hoperator
  exact .of_operator (operatorRun_ne_nil (List.cons_ne_nil _ _) cs) hoperator

theorem At.found_newline (h : l.At s items total) (hs : l.state = .start)
    (hrest : s.rest = '\n' :: cs) (last : Span) :
    Found (l.lex last) s items total (.token .newline 0) := by
  obtain ⟨l', last', hlex, h', hs', -⟩ := h.take_begin hs hrest (if_pos rfl) last
  rw [hlex]
  exact h'.complete hs'

theorem At.found_blank (h : l.At s items total) (hs : l.state = .start) (hrest : s.rest = c :: cs)
    (hmove : State.begin c = .take .start) (last : Span) :
    Found (l.lex last) s items total (.blank 0) := by
  obtain ⟨l', last', hlex, h', hs', -⟩ := h.take_begin hs hrest hmove last
  exact ⟨l', last', congrArg settle hlex, hs', h'.here⟩

/-- Whatever stands at the front, going from state to state comes to what looking ahead finds. -/
theorem At.lex_found (h : l.At s items total) (hs : l.state = .start) (hrest : s.rest = c :: cs)
    (last : Span) : Found (l.lex last) s items total (found c cs) := by
  -- only behind a zero does `found` differ from `front`, so that case comes first
  by_cases hzero : c = '0'
  · subst hzero
    exact h.found_zero hs hrest last
  have hmove : State.begin c = _ := State.begin.eq_1 c
  rw [found_eq_front (not_wraps_of_ne hzero cs), front]
  by_cases hbreak : c = '\n'
  · subst hbreak
    exact h.found_newline hs hrest last
  rw [if_neg hbreak] at hmove ⊢
  by_cases hslash : c = '/'
  · subst hslash
    exact h.found_slash hs hrest last
  rw [if_neg hslash] at hmove ⊢
  by_cases hbrace : c = '\x7b'
  · subst hbrace
    exact h.found_mark hs hrest last
  rw [if_neg hbrace, if_neg hzero] at hmove ⊢
  by_cases hdigit : c.isDigit = true
  · rw [if_pos hdigit] at hmove ⊢
    exact h.found_decimal hs hrest hdigit hmove last
  rw [if_neg hdigit] at hmove ⊢
  by_cases hword : isWordStart c = true
  · rw [if_pos hword] at hmove ⊢
    exact h.found_word hs hrest hmove last
  rw [if_neg hword] at hmove ⊢
  by_cases hoperator : startsOperator [c] = true
  · rw [if_pos hoperator] at hmove ⊢
    exact h.found_operator hs hrest hoperator hmove last
  rw [if_neg hoperator] at hmove ⊢
  by_cases hblank : Text.isBlank c = true
  · rw [if_pos hblank] at hmove ⊢
    exact h.found_blank hs hrest hmove last
  · rw [if_neg hblank] at hmove ⊢
    exact h.fail_begin hs hrest hmove last

/-! ## Pulls -/

/-- The lexer is between two tokens where the scanner is, or nothing more comes from either. -/
structure Follows (l : Lexer) (s : Scanner) (items : List (Located Item)) (total : Nat) :
    Prop where
  state : l.state = .start
  finished : l.finished = s.finished
  here : s.finished = false → l.At s items total
  /-- At the end, the item after the characters that have been taken has been looked at. -/
  counts : s.finished = true → l.reader.read + (s.rest.length + items.length) =
    total + min (s.rest.length + items.length) 1

/-- The place of a token that is found goes from its first character for as many columns. -/
theorem stop_of_found {extra : Nat} (hrest : s.rest = c :: cs)
    (hfound : Quadword.found c cs = .token t extra) :
    (s.skip extra).here.advance = s.here.shift (extra + 1) := by
  obtain ⟨w, m, hw, hstart, hlength, -⟩ : Stands (c :: cs) (.token t extra) :=
    (found_eq_token.mp hfound).1 ▸ stands_front c cs
  have htake : s.rest.take extra = w.take extra := by
    obtain ⟨tail, htail⟩ := hstart
    rw [hrest, ← htail, List.take_append_of_le_length (by omega)]
  -- a lexeme has no tabs and no line breaks, unless it is a line break itself
  have hplain : '\n' ∉ w.take extra ∧ '\t' ∉ w.take extra := by
    rcases hw.plain with rfl | ⟨hbreak, htab⟩
    · obtain rfl : extra = 0 := by simpa using hlength.symm
      exact ⟨List.not_mem_nil, List.not_mem_nil⟩
    · exact ⟨fun h => hbreak (List.mem_of_mem_take h), fun h => htab (List.mem_of_mem_take h)⟩
  show (s.here.past (s.rest.take extra)).advance = _
  rw [htake, Position.past_eq_shift hplain.1 hplain.2, List.length_take, hlength,
    Nat.min_eq_left (Nat.le_succ extra)]
  refine congrArg (Position.mk s.here.line) ?_
  rw [UInt32.ofNat_add, ← UInt32.add_assoc]
  rfl

/-- A pull on the lexer yields what a pull on the scanner yields, and both go on at one place. -/
def Agrees (out : Outcome × Lexer) (s : Scanner) (items : List (Located Item)) (total : Nat) :
    Prop :=
  ∃ r s' l', s.next? = some (r, s') ∧ settle out = some (r, l') ∧ l'.Follows s' items total

/-- A pull that fails where the scanner fails yields the same fault, and nothing comes after it. -/
theorem FailsAt.agrees {out : Outcome × Lexer} {s₀ : Scanner} (h : FailsAt out s e items total)
    (hnext : s₀.next? = some (s.fail e)) : Agrees out s₀ items total := by
  obtain ⟨l', hsettle, hstate, hfinished, hcounts⟩ := h
  exact ⟨_, _, l', hnext, hsettle, hstate, hfinished, nofun, fun _ => hcounts⟩

/--
A pull that yields a token of as many characters yields it at the same place, unless an undecodable
line follows, and then both fail there.
-/
theorem EmitsAt.agrees {out : Outcome × Lexer} {extra : Nat} (hopen : s.finished = false)
    (hrest : s.rest = c :: cs) (hfound : Quadword.found c cs = .token t extra)
    (h : EmitsAt out s (extra + 1) t items total) : Agrees out s items total := by
  have hnext := Scanner.next?_of_cons hopen hrest
  rw [hfound] at hnext
  replace hnext : s.next? = some (if _ then _ else _) := hnext
  unfold EmitsAt at h
  -- a token in front of an undecodable line is not handed out, by either of the two
  split at h
  · next hblocked =>
    rw [if_pos hblocked] at hnext
    exact h.agrees hnext
  · next hblocked =>
    rw [if_neg hblocked] at hnext
    obtain ⟨l', hsettle, hstate, hhere⟩ := h
    rw [Nat.add_sub_cancel, stop_of_found hrest hfound] at hsettle
    exact ⟨_, _, l', hnext, hsettle, hstate, hhere.finished.trans hopen.symm, fun _ => hhere,
      fun h => absurd (hopen.symm.trans h) Bool.false_ne_true⟩

/--
At the end of the characters. What comes then is the end of the text or a line that cannot be
decoded, and the two say the same about it.
-/
theorem At.agrees_end (h : l.At s items total) (hs : l.state = .start) (hopen : s.finished = false)
    (hrest : s.rest = []) (last : Span) : Agrees (l.lex last) s items total := by
  have hnext := Scanner.next?_of_nil hopen hrest
  unfold Scanner.finish at hnext
  -- an undecodable line, or the end of the text
  cases hblocked : s.blocked with
  | true =>
    rw [if_pos hblocked] at hnext
    exact (h.failsAt hblocked last _).agrees hnext
  | false =>
    rw [hblocked, if_neg Bool.false_ne_true] at hnext
    have hend := h.rest_end hrest hblocked
    have hturn : l.turn last = _ := turn_start_end hs h.finished hend
    refine ⟨_, _, { l.peek with start := l.next, state := .start, finished := true }, hnext, ?_, rfl,
      rfl, nofun, fun _ => h.read_peek⟩
    rw [lex_done hturn, h.next]
    rfl

/-- A pull on a lexer yields what a pull on the scanner at the same place yields. -/
theorem At.agrees (h : l.At s items total) (hs : l.state = .start) (hopen : s.finished = false)
    (last : Span) : Agrees (l.lex last) s items total := by
  -- the induction is on what is left of the text, which skipping makes shorter
  induction hn : s.rest.length using Nat.strongRecOn generalizing l s last with
  | ind n ih =>
    cases hrest : s.rest with
    | nil => exact h.agrees_end hs hopen hrest last
    | cons c cs =>
      have hfound := h.lex_found hs hrest last
      have hnext := Scanner.next?_of_cons hopen hrest
      cases hcase : Quadword.found c cs with
      | token t extra =>
        rw [hcase] at hfound
        exact EmitsAt.agrees hopen hrest hcase hfound
      | fault cause read =>
        rw [hcase] at hfound hnext
        exact FailsAt.agrees hfound hnext
      | blank extra =>
        rw [hcase] at hfound hnext
        obtain ⟨l', last', hsettle, hs', h'⟩ := hfound
        have hlt : (s.skip (extra + 1)).rest.length < n := by
          rw [Scanner.skip, List.length_drop, ← hn, hrest, List.length_cons]
          omega
        unfold Agrees
        rw [hnext, hsettle]
        exact ih _ hlt h' hs' hopen last' rfl

/-! ## Scans -/

/-- A scan, unfolded at a token. -/
theorem scan_ok {l' : Lexer} {u : Located Token} (h : l.next? = some (.ok u, l')) :
    l.scan = { l'.scan with tokens := u :: l'.scan.tokens } := by
  rw [scan]
  split
  · next hnext => simp [h] at hnext
  · next hnext => simp [h] at hnext
  · next hnext =>
    rw [h] at hnext
    cases hnext
    rfl

/-- At a fault, which is its last pull. -/
theorem scan_error {l' : Lexer} {f : Located LexError} (h : l.next? = some (.error f, l')) :
    l.scan = ⟨[], some f, l'⟩ := by
  rw [scan]
  split
  · next hnext => simp [h] at hnext
  · next hnext =>
    rw [h] at hnext
    cases hnext
    rfl
  · next hnext => simp [h] at hnext

theorem scan_none (h : l.next? = none) : l.scan = ⟨[], none, l⟩ := by
  rw [scan]
  split
  · rfl
  · next hnext => simp [h] at hnext
  · next hnext => simp [h] at hnext

theorem Follows.next?_none (h : l.Follows s items total) (hs : s.finished = true) :
    l.next? = none :=
  if_pos ⟨h.state, h.finished.trans hs⟩

/--
Pulls agree one by one, and both go on at one place. This is the step of the induction along a scan.
-/
theorem Follows.next? (h : l.Follows s items total) {r : Except (Located LexError) (Located Token)}
    {s' : Scanner} (hnext : s.next? = some (r, s')) :
    ∃ l' : Lexer, l.next? = some (r, l') ∧ l'.Follows s' items total := by
  have hopen : s.finished = false := by
    cases hs : s.finished with
    | true =>
      rw [Scanner.next?_of_finished hs] at hnext
      cases hnext
    | false => rfl
  obtain ⟨r', s'', l', hscanner, hsettle, hfollows⟩ := (h.here hopen).agrees h.state hopen l.start
  rw [hnext] at hscanner
  cases hscanner
  refine ⟨l', ?_, hfollows⟩
  rw [Lexer.next?, if_neg, hsettle]
  rintro ⟨-, hfinished⟩
  rw [h.finished, hopen] at hfinished
  cases hfinished

/--
A lexer yields what the scanner at the same place yields. So all that is shown of scanners, which
look ahead freely, holds of a lexer, which takes one character at a time.
-/
theorem Follows.scan (h : l.Follows s items total) :
    l.scan.tokens = s.scan.tokens ∧ l.scan.failure = s.scan.failure ∧
      l.scan.final.Follows s.scan.final items total := by
  -- along the pulls of the scanner
  induction s using Scanner.scan.induct generalizing l with
  | case1 s hnext =>
    have hfinished : s.finished = true := by
      cases hs : s.finished with
      | true => rfl
      | false => exact absurd hnext (Scanner.next?_ne_none hs)
    rw [Scanner.scan_none hnext, scan_none (h.next?_none hfinished)]
    exact ⟨rfl, rfl, h⟩
  | case2 s e s' hnext =>
    obtain ⟨l', hlexer, hfollows⟩ := h.next? hnext
    rw [Scanner.scan_error hnext, scan_error hlexer]
    exact ⟨rfl, rfl, hfollows⟩
  | case3 s t s' hnext ih =>
    obtain ⟨l', hlexer, hfollows⟩ := h.next? hnext
    obtain ⟨htokens, hfailure, hfinal⟩ := ih hfollows
    rw [Scanner.scan_ok hnext, scan_ok hlexer]
    exact ⟨congrArg (t :: ·) htokens, hfailure, hfinal⟩

/-- At the start of a source, the lexer is where the scanner is. -/
theorem follows_ofSource (src : Source) :
    ∃ items, src.readable.2.Begins items ∧
      src.readable.1.length + items.length = src.items.length ∧
      (ofSource src).Follows (.ofSource src) items src.items.length := by
  obtain ⟨items, htrace, hbegins⟩ := src.trace_readable
  have hat : (ofSource src).At (.ofSource src) items src.trace.length :=
    ⟨htrace, hbegins, rfl, rfl, Nat.zero_add _⟩
  have hlength := hat.length_rest
  rw [show (ofSource src).rest.length = src.items.length from src.length_trace] at hlength
  refine ⟨items, hbegins, hlength.symm, rfl, rfl, fun _ => ?_, nofun⟩
  rw [← src.length_trace]
  exact hat

end Lexer

/--
The scanner from which nothing more comes has yielded its last, whether that was a fault or the end
of the text.
-/
theorem Scanner.finished_of_scan (s : Scanner) : s.scan.final.finished = true := by
  -- along the scan, of which a fault and the end are the only ways to stop
  induction s using Scanner.scan.induct with
  | case1 s hnext =>
    rw [scan_none hnext]
    cases hs : s.finished with
    | true => rfl
    | false => exact absurd hnext (next?_ne_none hs)
  | case2 s e s' hnext =>
    rw [scan_error hnext]
    exact finished_of_next?_error hnext
  | case3 s t s' hnext ih =>
    rw [scan_ok hnext]
    exact ih

namespace Source

open Lexer

variable (src : Source)

/-- **A lexer yields what a scanner yields**: the same tokens, the same fault, and nothing more. -/
theorem scan_eq_scanner :
    src.scan.tokens = (Scanner.ofSource src).scan.tokens ∧
      src.scan.failure = (Scanner.ofSource src).scan.failure ∧ src.scan.final.next? = none := by
  obtain ⟨items, -, -, hfollows⟩ := follows_ofSource src
  obtain ⟨htokens, hfailure, hfinal⟩ := hfollows.scan
  exact ⟨htokens, hfailure, hfinal.next?_none (Scanner.finished_of_scan _)⟩

end Source

end Quadword
