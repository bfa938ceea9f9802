import Quadword.Proofs.Token.Front
import Quadword.Proofs.Token.Scanner
import Quadword.Token.Lexer

/-!
# Runs of a lexer

Where a lexer is, is told by the scanner that is at the same place (`Lexer.At`). Inside a token, the
state and the characters to come decide what the pull comes to: a token of so many characters
(`Lexer.EmitsAt`), a fault after so many of them (`Lexer.FailsAt`), or a place at which it begins
anew (`Lexer.SkipsTo`). There is one lemma about each state that can go on for several characters,
by induction on them.
-/

namespace Quadword

open Lexical Front

/-! ## Literals -/

/-- The value of a hexadecimal digit takes four bits. -/
theorem digitValue_lt {c : Char} (h : isHexDigit c = true) : digitValue c < 16 :=
  forall_isHexDigit (P := fun c => digitValue c < 16) (by decide +kernel) h

/-- Multiplying and adding with a check each is exact: the sum fits exactly if both results do. -/
theorem pushDecimal?_eq (value : Word) {d : Nat} (hd : d < 16) :
    pushDecimal? value (.ofNat 64 d) =
      if value.toNat * 10 + d < literalLimit then some (.ofNat 64 (value.toNat * 10 + d))
      else none := by
  have hdigit : (BitVec.ofNat 64 d).toNat = d := by
    rw [BitVec.toNat_ofNat]
    omega
  have hten : (10 : Word).toNat = 10 := rfl
  unfold pushDecimal? BitVec.umulOverflow literalLimit
  rw [hten]
  -- the product fits, or the sum is too large even without the digit
  by_cases hmul : value.toNat * 10 < 2 ^ 64
  · have hproduct : (value * 10).toNat = value.toNat * 10 := by
      rw [BitVec.toNat_mul, hten, Nat.mod_eq_of_lt hmul]
    have hsum : value * 10 + .ofNat 64 d = BitVec.ofNat 64 (value.toNat * 10 + d) := by
      rw [BitVec.ofNat_add, BitVec.ofNat_mul, BitVec.ofNat_toNat, BitVec.setWidth_eq]
      rfl
    unfold BitVec.uaddOverflow
    rw [if_neg (by simpa using hmul), hproduct, hdigit, hsum]
    -- the product fits, so the sum is the one to check
    by_cases hadd : value.toNat * 10 + d < 2 ^ 64
    · rw [if_neg (by simpa using hadd), if_pos hadd]
    · rw [if_pos (by simpa using hadd), if_neg hadd]
  · rw [if_pos (by simpa using hmul), if_neg (by omega)]

/-- A digit can be shifted in exactly if the highest four bits are free for the others. -/
theorem pushHex?_eq (value : Word) {d : Nat} (hd : d < 16) :
    pushHex? value (.ofNat 64 d) =
      if value.toNat * 16 + d < literalLimit then some (.ofNat 64 (value.toNat * 16 + d))
      else none := by
  -- the highest four bits are the quotient by 2^60
  have hhigh : value >>> 60 ≠ 0 ↔ ¬ value.toNat * 16 + d < literalLimit := by
    rw [Ne, ← BitVec.toNat_inj, BitVec.toNat_ushiftRight, Nat.shiftRight_eq_div_pow, literalLimit]
    show ¬ value.toNat / 2 ^ 60 = 0 ↔ _
    omega
  unfold pushHex?
  by_cases hfits : value.toNat * 16 + d < literalLimit
  · rw [if_neg (fun h => hhigh.mp h hfits), if_pos hfits]
    refine congrArg some (BitVec.toNat_inj.mp ?_)
    rw [literalLimit] at hfits
    rw [BitVec.toNat_or, BitVec.toNat_shiftLeft, BitVec.toNat_ofNat, BitVec.toNat_ofNat,
      Nat.mod_eq_of_lt (show d < 2 ^ 64 by omega), Nat.mod_eq_of_lt hfits, Nat.shiftLeft_eq,
      Nat.mod_eq_of_lt (show value.toNat * 2 ^ 4 < 2 ^ 64 by omega), ← Nat.shiftLeft_eq,
      ← Nat.shiftLeft_add_eq_or_of_lt (show d < 2 ^ 4 by omega), Nat.shiftLeft_eq]
  · rw [if_pos (hhigh.mpr hfits), if_neg hfits]

/-! ## Where a lexer is -/

/-- The items read are those taken, and the next one if it has been looked at. -/
def Reader.Counts (r : Reader) (total : Nat) : Prop :=
  r.read + r.rest.length = total + if r.peeked then min r.rest.length 1 else 0

theorem Reader.peeked_peek (r : Reader) : r.peek.peeked = true := by
  unfold peek
  split
  · assumption
  · rfl

/-- Looking at an item counts it, once. -/
theorem Reader.Counts.peek {r : Reader} {total : Nat} (h : r.Counts total) :
    r.peek.Counts total := by
  unfold Counts at h ⊢
  rw [peeked_peek, peek_rest, if_pos rfl]
  unfold Reader.peek
  split
  · next hpeeked => rwa [hpeeked, if_pos rfl] at h
  · next hpeeked =>
    rw [if_neg hpeeked] at h
    show r.read + min r.rest.length 1 + r.rest.length = _
    omega

/-- Taking an item counts it too, unless it has been looked at before. -/
theorem Reader.Counts.pop {r : Reader} {total : Nat} (h : r.Counts total) : r.pop.Counts total := by
  have hpeek := h.peek
  unfold Counts at hpeek ⊢
  rw [peeked_peek, peek_rest, if_pos rfl] at hpeek
  rw [pop_rest, List.length_tail, show r.pop.peeked = false from rfl, if_neg Bool.false_ne_true]
  show r.peek.read + (r.rest.length - 1) = _
  omega

namespace Scanner

theorem skip_zero (s : Scanner) : s.skip 0 = s := rfl

/-- Skipping twice is skipping once: the positions add up as the characters do. -/
theorem skip_skip (s : Scanner) (m n : Nat) : (s.skip m).skip n = s.skip (m + n) := by
  show Scanner.mk ((s.rest.drop m).drop n) s.ending
    ((s.here.past (s.rest.take m)).past ((s.rest.drop m).take n)) s.finished = _
  rw [List.drop_drop, ← Position.past_append, ← List.take_add]
  rfl

theorem skip_one {s : Scanner} {c : Char} {cs : List Char} (h : s.rest = c :: cs) :
    s.skip 1 = { s with rest := cs, here := s.here.step c } := by
  rw [skip, h]
  rfl

theorem blocked_of_cons {s : Scanner} {c : Char} {cs : List Char} (h : s.rest = c :: cs) :
    s.blocked = false := by
  rw [blocked, h]
  rfl

end Scanner

/-- The lexer has come to where the scanner is; `items` are all that follows the characters. -/
structure Lexer.At (l : Lexer) (s : Scanner) (items : List (Located Item)) (total : Nat) :
    Prop where
  rest : l.rest = Source.traceFrom s.here (s.rest.map .char) ++ items
  ending : s.ending.Begins items
  next : l.next = s.here.cell
  finished : l.finished = false
  counts : l.reader.Counts total

namespace Lexer.At

variable {l : Lexer} {s : Scanner} {items : List (Located Item)} {total : Nat} {c : Char}
  {cs : List Char}

theorem peek (h : l.At s items total) : l.peek.At s items total :=
  ⟨l.peek_rest.trans h.rest, h.ending, h.next, h.finished, h.counts.peek⟩

/--
Where a scanner has a character, a lexer has its item, which carries the place of what follows.
-/
theorem rest_char (h : l.At s items total) (hs : s.rest = c :: cs) :
    l.rest = ⟨.char c, (s.here.step c).cell⟩ ::
      (Source.traceFrom (s.here.step c) (cs.map .char) ++ items) := by
  rw [h.rest, hs]
  rfl

/-- Where a scanner has none and no undecodable line follows, a lexer is at the end. -/
theorem rest_end (h : l.At s items total) (hs : s.rest = []) (hopen : s.blocked = false) :
    l.rest = [] := by
  have hending := h.ending
  unfold Scanner.blocked at hopen
  rw [h.rest, hs]
  -- nothing is left, or a line that cannot be decoded, which has been excluded
  cases hcase : s.ending with
  | complete =>
    rw [hcase] at hending
    rw [show items = [] from hending]
    rfl
  | undecodable =>
    rw [hs, hcase] at hopen
    cases hopen

/-- Where one follows, a lexer meets the mark of it. -/
theorem rest_blocked (h : l.At s items total) (hblocked : s.blocked = true) :
    ∃ span more, l.rest = ⟨.undecodable, span⟩ :: more := by
  have hending := h.ending
  simp only [Scanner.blocked, Bool.and_eq_true, List.isEmpty_iff, decide_eq_true_eq] at hblocked
  rw [hblocked.2] at hending
  obtain ⟨span, more, rfl⟩ := hending
  rw [h.rest, hblocked.1]
  exact ⟨span, more, rfl⟩

/--
Taking a character brings a lexer to the next place. It is the character that the scanner has first,
and the token still starts where it did.
-/
theorem take (h : l.At s items total) (hs : s.rest = c :: cs) (state : State) (last : Span) :
    ∃ l', l.take state last = .more l' s.here.cell ∧ l'.At (s.skip 1) items total ∧
      l'.state = state ∧ l'.start = l.start := by
  have hrest := h.rest_char hs
  refine ⟨{ l with reader := l.reader.pop, state := state, next := (s.here.step c).cell }, ?_, ?_,
    rfl, rfl⟩
  · unfold Lexer.take
    rw [hrest, ← h.next]
  · rw [Scanner.skip_one hs]
    refine ⟨?_, h.ending, rfl, h.finished, h.counts.pop⟩
    show l.rest.tail = _
    rw [hrest]
    rfl

end Lexer.At

/-! ## What comes of a token -/

namespace Lexer

/-- The pull fails where the scanner is: at an undecodable line for that reason, else for `e`. -/
def FailsAt (out : Outcome × Lexer) (s : Scanner) (e : LexError) (items : List (Located Item))
    (total : Nat) : Prop :=
  ∃ l', settle out = some (.error ⟨if s.blocked then .unreadable else e, s.here.cell⟩, l') ∧
    l'.state = .start ∧ l'.finished = true ∧
    l'.reader.read + (s.rest.length + items.length) =
      total + min (s.rest.length + items.length) 1

/-- The pull yields a token of the `n` characters where the scanner is, and goes on after them. -/
def EmitsAt (out : Outcome × Lexer) (s : Scanner) (n : Nat) (t : Token)
    (items : List (Located Item)) (total : Nat) : Prop :=
  if (s.skip n).blocked then FailsAt out (s.skip n) .unreadable items total
  else ∃ l', settle out = some (.ok ⟨t, ⟨s.here, (s.skip (n - 1)).here.advance⟩⟩, l') ∧
    l'.state = .start ∧ l'.At (s.skip n) items total

/--
The lexer is in a token that starts where the scanner is, and has taken `n` characters of it, the
last one at `last`.
-/
structure Within (l : Lexer) (last : Span) (s : Scanner) (n : Nat) (items : List (Located Item))
    (total : Nat) : Prop where
  here : l.At (s.skip n) items total
  start : l.start = s.here.cell
  last : last = (s.skip (n - 1)).here.cell

variable {l : Lexer} {last : Span} {s : Scanner} {n : Nat} {items : List (Located Item)}
  {total : Nat} {c : Char} {cs : List Char} {t : Token} {e : LexError} {state : State}

theorem At.length_rest (h : l.At s items total) :
    l.rest.length = s.rest.length + items.length := by
  rw [h.rest, List.length_append, Source.length_traceFrom, List.length_map]

/-- When the next item has been looked at, the items left are counted but for that one. -/
theorem At.read_peek (h : l.At s items total) :
    l.reader.peek.read + (s.rest.length + items.length) =
      total + min (s.rest.length + items.length) 1 := by
  have hcounts := h.counts.peek
  unfold Reader.Counts at hcounts
  rwa [Reader.peeked_peek, if_pos rfl, Reader.peek_rest, show l.reader.rest = l.rest from rfl,
    h.length_rest] at hcounts

/-- At an undecodable line a pull fails, whatever the state. -/
theorem At.failsAt (h : l.At s items total) (hblocked : s.blocked = true) (last : Span)
    (e : LexError) : FailsAt (l.lex last) s e items total := by
  obtain ⟨span, more, hrest⟩ := h.rest_blocked hblocked
  refine ⟨{ l with reader := l.reader.pop, state := .start, finished := true }, ?_, rfl, rfl, ?_⟩
  · rw [lex_done (turn_undecodable hrest), if_pos hblocked, ← h.next]
    rfl
  · exact h.read_peek

/-- At a character or at the end, a lexer in a token makes the move of its state. -/
theorem At.turn_eq (h : l.At s items total) (hopen : s.blocked = false) (hs : l.state ≠ .start)
    (last : Span) : l.turn last = l.peek.act last (l.state.move false s.rest.head?) := by
  cases hrest : s.rest with
  | nil =>
    rw [turn_inside_end hs (h.rest_end hrest hopen), h.finished]
    rfl
  | cons c cs => exact turn_inside hs (h.rest_char hrest)

/-- Otherwise a pull fails where the move says so. -/
theorem At.failsAt_of_done (h : l.At s items total) (hopen : s.blocked = false) {m : Lexer}
    (hturn : l.turn last = .done (.error e) m) (hreader : m.reader = l.reader.peek)
    (hnext : m.next = l.next) : FailsAt (l.lex last) s e items total := by
  refine ⟨{ m with state := .start, finished := true }, ?_, rfl, rfl, ?_⟩
  · rw [lex_done hturn, hopen, if_neg Bool.false_ne_true, ← h.next, ← hnext]
    rfl
  · show m.reader.read + _ = _
    rw [hreader]
    exact h.read_peek

/-- Where a lexer is depends neither on its state nor on where its token started. -/
theorem At.congr (h : l.At s items total) {m : Lexer} (hreader : m.reader = l.reader)
    (hnext : m.next = l.next) (hfinished : m.finished = l.finished) : m.At s items total := by
  refine ⟨?_, h.ending, hnext.trans h.next, hfinished.trans h.finished, hreader ▸ h.counts⟩
  show m.reader.rest = _
  rw [hreader]
  exact h.rest

/--
**A move to a fault.** Inside a token, at a character or at the end, the pull fails there if the
state says so; at an undecodable line it fails in any case. So the move is only needed where the
scanner is not blocked.
-/
theorem Within.fail (h : l.Within last s n items total) (hs : l.state ≠ .start)
    (hmove : (s.skip n).blocked = false → l.state.move false (s.rest.drop n).head? = .fail e) :
    FailsAt (l.lex last) (s.skip n) e items total := by
  cases hopen : (s.skip n).blocked with
  | true => exact h.here.failsAt hopen last e
  | false =>
    have hturn : l.turn last = l.peek.act last _ := h.here.turn_eq hopen hs last
    rw [show (s.skip n).rest = s.rest.drop n from rfl, hmove hopen] at hturn
    exact h.here.failsAt_of_done hopen hturn rfl rfl

/--
**A move to a token.** The token starts at its first character and ends one column behind the last
one that was taken.
-/
theorem Within.emit (h : l.Within last s n items total) (hs : l.state ≠ .start)
    (hmove : (s.skip n).blocked = false → l.state.move false (s.rest.drop n).head? = .emit t) :
    EmitsAt (l.lex last) s n t items total := by
  unfold EmitsAt
  -- before an undecodable line the pull is a fault, and else the move hands out the token
  split
  · next hblocked => exact h.here.failsAt hblocked last _
  · next hopen =>
    rw [Bool.not_eq_true] at hopen
    have hturn : l.turn last = l.peek.act last _ := h.here.turn_eq hopen hs last
    rw [show (s.skip n).rest = s.rest.drop n from rfl, hmove hopen] at hturn
    refine ⟨{ l.peek with state := .start }, ?_, rfl, h.here.peek.congr rfl rfl rfl⟩
    rw [lex_done hturn, h.last]
    show some (Except.ok (Located.mk t (l.start.join _)), _) = _
    rw [h.start]
    rfl

/--
A move to another state at the same character is a turn more and leaves the lexer where it is.
-/
theorem Within.keep (h : l.Within last s n items total) (hs : l.state ≠ .start)
    (hopen : (s.skip n).blocked = false)
    (hmove : l.state.move false (s.rest.drop n).head? = .keep state) :
    ∃ l' : Lexer, l.lex last = l'.lex last ∧ l'.Within last s n items total ∧
      l'.state = state := by
  have hturn := h.here.turn_eq hopen hs last
  rw [show (s.skip n).rest = s.rest.drop n from rfl, hmove] at hturn
  exact ⟨{ l.peek with state := state }, lex_more hturn,
    ⟨h.here.peek.congr rfl rfl rfl, h.start, h.last⟩, rfl⟩

/--
**A move that takes the character.** One character more of the token is taken, at the place where
the scanner was.
-/
theorem Within.take (h : l.Within last s n items total) (hs : l.state ≠ .start)
    (hrest : s.rest.drop n = c :: cs) (hmove : l.state.moveAt c = .take state) :
    ∃ (l' : Lexer) (last' : Span), l.lex last = l'.lex last' ∧
      l'.Within last' s (n + 1) items total ∧ l'.state = state ∧ s.rest.drop (n + 1) = cs := by
  have hturn : l.turn last = _ := turn_inside hs (h.here.rest_char hrest)
  rw [hmove] at hturn
  obtain ⟨l', htake, hhere, hstate, hstart⟩ := h.here.peek.take hrest state last
  rw [Scanner.skip_skip] at hhere
  refine ⟨l', _, lex_more (hturn.trans htake), ⟨hhere, hstart.trans h.start, rfl⟩, hstate, ?_⟩
  rw [← List.drop_drop, hrest]
  rfl

/-! ### Words -/

theorem Within.complete (h : l.Within last s n items total) (hs : l.state = .complete t) :
    EmitsAt (l.lex last) s n t items total := by
  refine h.emit (by simp [hs]) fun _ => ?_
  rw [hs]
  cases (s.rest.drop n).head? <;> rfl

/--
A word goes on as far as its characters do. By induction on what is left of the text, with the text
of the word so far in the state.
-/
theorem Within.word {text : String} (h : l.Within last s n items total)
    (hs : l.state = .word text) :
    EmitsAt (l.lex last) s (n + ((s.rest.drop n).takeWhile isWordChar).length)
      (.ofWord (.ofList (text.toList ++ (s.rest.drop n).takeWhile isWordChar))) items total := by
  induction hrest : s.rest.drop n generalizing l last n text with
  | nil =>
    rw [List.takeWhile_nil, List.append_nil, String.ofList_toList]
    refine h.emit (by simp [hs]) fun _ => ?_
    rw [hs, hrest]
    rfl
  | cons c cs ih =>
    -- another character of the word is taken, any other one emits it
    by_cases hc : isWordChar c = true
    · have hmove : l.state.moveAt c = .take (.word (text.push c)) := by
        rw [hs]
        exact if_pos hc
      obtain ⟨l', last', hlex, h', hs', hrest'⟩ := h.take (by simp [hs]) hrest hmove
      have hword := ih h' hs' hrest'
      rw [String.toList_push, List.append_assoc, ← hlex] at hword
      rw [List.takeWhile_cons_of_pos hc, List.length_cons, Nat.add_comm _ 1, ← Nat.add_assoc]
      exact hword
    · rw [List.takeWhile_cons_of_neg hc, List.append_nil, String.ofList_toList]
      refine h.emit (by simp [hs]) fun _ => ?_
      rw [hs, hrest]
      exact if_neg hc

/-! ### Literals -/

/--
Digits of a base are read by going from state to state, `states` telling the state by the value and
the number of digits so far.
-/
structure Pushes (base : Nat) (isDigit : Char → Bool) (states : Word → Nat → State) : Prop where
  started : ∀ value count, states value count ≠ .start
  digit : ∀ value count c, isDigit c = true → (states value count).moveAt c =
    if value.toNat * base + digitValue c < literalLimit then
      .take (states (.ofNat 64 (value.toNat * base + digitValue c)) (count + 1))
    else .fail .overflow

/-- Decimal digits are pushed with the two checks of `pushDecimal?`, which together are exact. -/
theorem pushes_decimal : Pushes 10 Char.isDigit fun value _ => .decimal value where
  started _ _ := nofun
  digit value _ c hc := by
    rw [State.moveAt, if_pos hc, pushDecimal?_eq value (digitValue_lt (isHexDigit_of_isDigit hc))]
    by_cases hfits : value.toNat * 10 + digitValue c < literalLimit
    · rw [if_pos hfits, if_pos hfits]
    · rw [if_neg hfits, if_neg hfits]

/-- Hexadecimal digits are pushed with the one check of `pushHex?`, and each one is counted. -/
theorem pushes_hex : Pushes 16 isHexDigit fun value count => .hex value (.ofNat count) where
  started _ _ := nofun
  digit value count c hc := by
    rw [State.moveAt, if_pos hc, pushHex?_eq value (digitValue_lt hc)]
    by_cases hfits : value.toNat * 16 + digitValue c < literalLimit
    · rw [if_pos hfits, if_pos hfits, UInt32.ofNat_add]
      rfl
    · rw [if_neg hfits, if_neg hfits]

/--
The lexer comes from the value to the end of the digits `ds` and is in the state for their value
there, or it fails at the first digit that is too many.
-/
def Digits (out : Outcome × Lexer) (s : Scanner) (n : Nat) (isDigit : Char → Bool)
    (states : Nat → State) (ds : List Char) (items : List (Located Item)) (total : Nat) :
    Except Nat Nat → Prop
  | .ok v => ∃ (l' : Lexer) (last' : Span), out = l'.lex last' ∧
      l'.Within last' s (n + ds.length) items total ∧ l'.state = states v ∧
      ∀ c ∈ (s.rest.drop (n + ds.length)).head?, isDigit c = false
  | .error i => FailsAt out (s.skip (n + i)) .overflow items total

/--
A digit in front, taken before the others. The run is then one longer, and so is the distance at
which it fails.
-/
theorem Digits.cons {out : Outcome × Lexer} {isDigit : Char → Bool} {states : Nat → State}
    {ds : List Char} {r : Except Nat Nat} (d : Char)
    (h : Digits out s (n + 1) isDigit states ds items total r) :
    Digits out s n isDigit states (d :: ds) items total (r.mapError (· + 1)) := by
  have hshift : ∀ k, n + (k + 1) = n + 1 + k := fun k => Nat.add_right_comm n k 1
  cases r with
  | ok v =>
    show ∃ (l' : Lexer) (last' : Span), out = l'.lex last' ∧
      l'.Within last' s (n + (ds.length + 1)) items total ∧ l'.state = states v ∧
      ∀ c ∈ (s.rest.drop (n + (ds.length + 1))).head?, isDigit c = false
    rw [hshift]
    exact h
  | error i =>
    show FailsAt out (s.skip (n + (i + 1))) .overflow items total
    rw [hshift]
    exact h

/-- Where no digit comes, the lexer stays in the state for the value so far. -/
theorem Within.digits_nil {isDigit : Char → Bool} {states : Word → Nat → State} {value : Word}
    {count : Nat} (h : l.Within last s n items total) (hs : l.state = states value count)
    (hhead : ∀ c ∈ (s.rest.drop n).head?, isDigit c = false) :
    Digits (l.lex last) s n isDigit (fun v => states (.ofNat 64 v) count) [] items total
      (.ok value.toNat) := by
  refine ⟨l, last, rfl, h, ?_, hhead⟩
  show _ = states (.ofNat 64 value.toNat) count
  rw [BitVec.ofNat_toNat, BitVec.setWidth_eq]
  exact hs

/-- A run of digits leads to the state for its value, or to the first digit that is too many. -/
theorem Within.digits {base : Nat} {isDigit : Char → Bool} {states : Word → Nat → State}
    (hpushes : Pushes base isDigit states) {value : Word} (count : Nat)
    (h : l.Within last s n items total) (hs : l.state = states value count) {cs : List Char}
    (hcs : s.rest.drop n = cs) :
    Digits (l.lex last) s n isDigit
      (fun v => states (.ofNat 64 v) (count + (cs.takeWhile isDigit).length))
      (cs.takeWhile isDigit) items total (readDigits base value.toNat (cs.takeWhile isDigit)) := by
  induction cs generalizing l last n value count with
  | nil => exact h.digits_nil hs (by simp [hcs])
  | cons d cs ih =>
    have hstart : l.state ≠ .start := hs ▸ hpushes.started value count
    by_cases hd : isDigit d = true
    · have hmove := hpushes.digit value count d hd
      rw [List.takeWhile_cons_of_pos hd, readDigits]
      -- the digit is pushed, or it is the first that is too many
      by_cases hfits : value.toNat * base + digitValue d < literalLimit
      · rw [if_pos hfits, ← hs] at hmove
        -- the other digits are read with the value and the count behind this one
        obtain ⟨l', last', hlex, h', hs', hcs'⟩ := h.take hstart hcs hmove
        have hdigits := ih (count + 1) h' hs' hcs'
        rw [BitVec.toNat_ofNat, Nat.mod_eq_of_lt (show _ < 2 ^ 64 from hfits), ← hlex,
          Nat.add_right_comm] at hdigits
        rw [if_pos hfits]
        exact hdigits.cons d
      · rw [if_neg hfits, ← hs] at hmove
        rw [if_neg hfits]
        refine h.fail hstart fun _ => ?_
        rw [hcs]
        exact hmove
    · rw [List.takeWhile_cons_of_neg hd]
      exact h.digits_nil hs (by simp [hcs, hd])

/--
What a literal comes to whose digits `ds` start after `n` characters, `missing` telling whether they
are taken for none.
-/
def LiteralAt (out : Outcome × Lexer) (s : Scanner) (n : Nat) (ds : List Char) (missing : Bool)
    (items : List (Located Item)) (total : Nat) : Except Nat Nat → Prop
  | .ok v =>
    if missing then FailsAt out (s.skip (n + ds.length)) .missingDigits items total
    else EmitsAt out s (n + ds.length) (.number (.ofNat 64 v)) items total
  | .error i => FailsAt out (s.skip (n + i)) .overflow items total

/-- The same for a whole literal: its first digit may have been taken already, as a zero is. -/
theorem LiteralAt.cons {out : Outcome × Lexer} {ds : List Char} {missing : Bool}
    {r : Except Nat Nat} (d : Char) (h : LiteralAt out s (n + 1) ds missing items total r) :
    LiteralAt out s n (d :: ds) missing items total (r.mapError (· + 1)) := by
  have hshift : ∀ k, n + (k + 1) = n + 1 + k := fun k => Nat.add_right_comm n k 1
  cases r with
  | ok v =>
    show if missing then FailsAt out (s.skip (n + (ds.length + 1))) _ _ _
      else EmitsAt out s (n + (ds.length + 1)) _ _ _
    rw [hshift]
    exact h
  | error i =>
    show FailsAt out (s.skip (n + (i + 1))) .overflow items total
    rw [hshift]
    exact h

/--
A decimal literal comes to its value, or to a fault at the first digit that is too many. Its digits
are not counted.
-/
theorem Within.decimal (h : l.Within last s n items total) (hs : l.state = .decimal 0)
    {ds : List Char} (hds : (s.rest.drop n).takeWhile Char.isDigit = ds) :
    LiteralAt (l.lex last) s n ds false items total (readDigits 10 0 ds) := by
  have hdigits : Digits (l.lex last) s n Char.isDigit (fun v => .decimal (.ofNat 64 v)) ds items
      total (readDigits 10 0 ds) := hds ▸ h.digits pushes_decimal 0 hs rfl
  revert hdigits
  -- the literal ends where the digits do, unless one of them was too many
  cases readDigits 10 0 ds with
  | ok v =>
    rintro ⟨l', last', hlex, h', hs', hhead⟩
    rw [hlex]
    refine h'.emit (by simp [hs']) fun _ => ?_
    rw [hs']
    revert hhead
    cases (s.rest.drop _).head? with
    | none => exact fun _ => rfl
    | some c => exact fun hhead => if_neg (by simp [hhead c rfl])
  | error i => exact id

/-- The digits are counted in 32 bits, so a multiple of 2^32 of them is taken for none. -/
theorem Within.hex (h : l.Within last s n items total) (hs : l.state = .hex 0 0) {ds : List Char}
    (hds : (s.rest.drop n).takeWhile isHexDigit = ds) :
    LiteralAt (l.lex last) s n ds (ds.length % 2 ^ 32 = 0) items total (readDigits 16 0 ds) := by
  have hdigits : Digits (l.lex last) s n isHexDigit
      (fun v => .hex (.ofNat 64 v) (.ofNat (0 + ds.length))) ds items total
      (readDigits 16 0 ds) := hds ▸ h.digits pushes_hex 0 hs rfl
  revert hdigits
  cases readDigits 16 0 ds with
  | error i => exact id
  | ok v =>
    rintro ⟨l', last', hlex, h', hs', hhead⟩
    -- the count is a number of 32 bits, so it is zero for every multiple of 2^32
    have hcount : UInt32.ofNat (0 + ds.length) = 0 ↔ ds.length % 2 ^ 32 = 0 := by
      rw [Nat.zero_add, ← UInt32.toNat_inj, UInt32.toNat_ofNat']
      rfl
    have hmove : l'.state.move false (s.rest.drop (n + ds.length)).head? =
        if UInt32.ofNat (0 + ds.length) = 0 then .fail .missingDigits
        else .emit (.number (.ofNat 64 v)) := by
      rw [hs']
      revert hhead
      cases (s.rest.drop (n + ds.length)).head? with
      | none => exact fun _ => rfl
      | some c => exact fun hhead => if_neg (by simp [hhead c rfl])
    have hstart : l'.state ≠ .start := by simp [hs']
    rw [hlex, LiteralAt]
    by_cases hzero : ds.length % 2 ^ 32 = 0
    · rw [if_pos (decide_eq_true hzero)]
      exact h'.fail hstart fun _ => by rw [hmove, if_pos (hcount.mpr hzero)]
    · rw [if_neg (by simpa using hzero)]
      exact h'.emit hstart fun _ => by rw [hmove, if_neg fun h => hzero (hcount.mp h)]

/-! ### Operators and marks -/

/-- What an operator comes to is its longest run, which must be a spelling. -/
def OperatorAt (out : Outcome × Lexer) (s : Scanner) (run : List Char)
    (items : List (Located Item)) (total : Nat) : Prop :=
  match operatorOf? (.ofList run) with
  | some t => EmitsAt out s run.length t items total
  | none => FailsAt out (s.skip run.length) (.badOperator (.ofList run)) items total

/-- A run that cannot go on is looked up. -/
theorem Within.operatorEnd {text : String} (h : l.Within last s text.length items total)
    (hs : l.state = .operator text)
    (hmove : l.state.move false (s.rest.drop text.length).head? = State.operatorEnd text) :
    OperatorAt (l.lex last) s text.toList items total := by
  have hstart : l.state ≠ .start := by simp [hs]
  unfold OperatorAt
  unfold State.operatorEnd at hmove
  rw [String.ofList_toList, String.length_toList]
  split
  · next t ht => exact h.emit hstart fun _ => by rw [hmove, ht]
  · next ht => exact h.fail hstart fun _ => by rw [hmove, ht]

/--
An operator goes on as far as some spelling does. By induction on what is left of the text; the run
so far is the text in the state.
-/
theorem Within.operator {text : String} (h : l.Within last s text.length items total)
    (hs : l.state = .operator text) (hcs : s.rest.drop text.length = cs) :
    OperatorAt (l.lex last) s (operatorRun text.toList cs) items total := by
  induction cs generalizing l last text with
  | nil =>
    refine h.operatorEnd hs ?_
    rw [hs, hcs]
    rfl
  | cons c cs ih =>
    rw [operatorRun]
    -- as long as some spelling goes on, the character is taken
    by_cases hc : startsOperator (text.toList ++ [c]) = true
    · have hmove : l.state.moveAt c = .take (.operator (text.push c)) := by
        rw [hs]
        exact if_pos hc
      obtain ⟨l', last', hlex, h', hs', hcs'⟩ := h.take (by simp [hs]) hcs hmove
      rw [← String.length_push c] at h' hcs'
      rw [if_pos hc, ← String.toList_push, hlex]
      exact ih h' hs' hcs'
    · rw [if_neg hc]
      refine h.operatorEnd hs ?_
      rw [hs, hcs]
      exact if_neg hc

/-- What a mark with the text `run` comes to, in front of `tail`. -/
def MarkAt (out : Outcome × Lexer) (s : Scanner) (run tail : List Char)
    (items : List (Located Item)) (total : Nat) : Prop :=
  match tail with
  | '\x7d' :: _ =>
    if String.ofList run = "wide" then EmitsAt out s (run.length + 2) .wide items total
    else FailsAt out (s.skip (1 + run.length)) (.unknownMark (.ofList run)) items total
  | _ => FailsAt out (s.skip (1 + run.length)) .unclosedMark items total

/--
The text of a mark goes to the first brace or line break, and there a lexer decides what it is.
-/
theorem Within.markEnd {text : String} (h : l.Within last s (1 + text.length) items total)
    (hs : l.state = .mark text) (hcs : s.rest.drop (1 + text.length) = cs)
    (hhead : ∀ c ∈ cs.head?, isInside c = false) :
    MarkAt (l.lex last) s text.toList cs items total := by
  have hstart : l.state ≠ .start := by simp [hs]
  rw [← String.length_toList] at h hcs
  unfold MarkAt
  split
  · next tail =>
    rw [String.ofList_toList]
    split
    · next hwide =>
      have hmove : l.state.moveAt '\x7d' = .take (.complete .wide) := by
        rw [hs]
        exact if_pos hwide
      obtain ⟨l', last', hlex, h', hs', -⟩ := h.take hstart hcs hmove
      have hlength : text.toList.length + 2 = 1 + text.toList.length + 1 := by omega
      rw [hlex, hlength]
      exact h'.complete hs'
    · next hwide =>
      refine h.fail hstart fun _ => ?_
      rw [hs, hcs]
      exact if_neg hwide
  · next hbrace =>
    refine h.fail hstart fun _ => ?_
    rw [hs, hcs]
    -- a line break ends a mark that has no brace, and so does the end of the text
    cases cs with
    | nil => rfl
    | cons c cs =>
      have hc : c ≠ '\x7d' → c = '\n' := by simpa [isInside] using hhead c rfl
      obtain rfl : c = '\n' := hc fun hbrace' => hbrace cs (by rw [hbrace'])
      rfl

/-- The text of a mark is taken up to a brace or a line break, by induction on what is left. -/
theorem Within.mark {text : String} (h : l.Within last s (1 + text.length) items total)
    (hs : l.state = .mark text) (hcs : s.rest.drop (1 + text.length) = cs) :
    MarkAt (l.lex last) s (text.toList ++ cs.takeWhile isInside)
      (cs.drop (cs.takeWhile isInside).length) items total := by
  -- along the letters of the mark, each of which the state collects
  induction cs generalizing l last text with
  | nil =>
    rw [List.takeWhile_nil, List.append_nil]
    exact h.markEnd hs hcs (by simp)
  | cons c cs ih =>
    by_cases hc : isInside c = true
    · have hmove : l.state.moveAt c = .take (.mark (text.push c)) := by
        rw [hs, State.moveAt]
        · rintro rfl
          simp [isInside] at hc
        · rintro rfl
          simp [isInside] at hc
      obtain ⟨l', last', hlex, h', hs', hcs'⟩ := h.take (by simp [hs]) hcs hmove
      rw [Nat.add_assoc, ← String.length_push c] at h' hcs'
      have hmark := ih h' hs' hcs'
      rw [String.toList_push, List.append_assoc, ← hlex] at hmark
      rw [List.takeWhile_cons_of_pos hc]
      exact hmark
    · rw [List.takeWhile_cons_of_neg hc, List.append_nil]
      exact h.markEnd hs hcs (by simpa using hc)

/-! ### Comments -/

/-- The pull goes on where the scanner is, as a lexer that has just begun there. -/
def SkipsTo (out : Outcome × Lexer) (s : Scanner) (items : List (Located Item)) (total : Nat) :
    Prop :=
  ∃ (l : Lexer) (last : Span), settle out = settle (l.lex last) ∧ l.state = .start ∧
    l.At s items total

/-- A comment to the end of the line is over in front of the line break. -/
theorem Within.lineComment (h : l.Within last s n items total) (hs : l.state = .lineComment)
    (hcs : s.rest.drop n = cs) :
    SkipsTo (l.lex last) (s.skip (n + (cs.takeWhile (· ≠ '\n')).length)) items total := by
  have hstart : l.state ≠ .start := by simp [hs]
  -- along the comment, up to a line break, a fault of the source or the end
  induction cs generalizing l last n with
  | nil =>
    cases hblocked : (s.skip n).blocked with
    | true =>
      obtain ⟨span, more, hrest⟩ := h.here.rest_blocked hblocked
      refine ⟨{ l with state := .start }, last, ?_, rfl, h.here.congr rfl rfl rfl⟩
      -- the lexer comes to the fault in either state, so the comment may as well have ended
      have hlex : Lexer.lex { l with state := .start } last = _ := lex_done (turn_undecodable hrest)
      rw [lex_done (turn_undecodable hrest), hlex]
      rfl
    | false =>
      have hmove : l.state.move false (s.rest.drop n).head? = .keep .start := by
        rw [hs, hcs]
        rfl
      obtain ⟨l', hlex, h', hs'⟩ := h.keep hstart hblocked hmove
      exact ⟨l', last, congrArg settle hlex, hs', h'.here⟩
  | cons c cs ih =>
    by_cases hc : c = '\n'
    · subst hc
      have hmove : l.state.move false (s.rest.drop n).head? = .keep .start := by
        rw [hs, hcs]
        rfl
      obtain ⟨l', hlex, h', hs'⟩ := h.keep hstart (Scanner.blocked_of_cons hcs) hmove
      exact ⟨l', last, congrArg settle hlex, hs', h'.here⟩
    · have hmove : l.state.moveAt c = .take .lineComment := by
        rw [hs, State.moveAt]
        exact hc
      obtain ⟨l', last', hlex, h', hs', hcs'⟩ := h.take hstart hcs hmove
      have hcomment := ih h' hs' hcs' (by simp [hs'])
      rw [List.takeWhile_cons_of_pos (by simpa using hc), List.length_cons, ← Nat.add_assoc,
        Nat.add_right_comm, hlex]
      exact hcomment

/-- What a block comment comes to that ends after `stop?` more characters, if it does. -/
def BlockAt (out : Outcome × Lexer) (s : Scanner) (n : Nat) (cs : List Char)
    (items : List (Located Item)) (total : Nat) : Option Nat → Prop
  | some stop => SkipsTo out (s.skip (n + stop)) items total
  | none => FailsAt out (s.skip (n + cs.length)) .unclosedComment items total

/--
A character in front, which does not end the comment. Its end is then found one character further
on.
-/
theorem BlockAt.cons {out : Outcome × Lexer} {stop? : Option Nat} (c : Char)
    (h : BlockAt out s (n + 1) cs items total stop?) :
    BlockAt out s n (c :: cs) items total (stop?.map (· + 1)) := by
  have hshift : ∀ k, n + (k + 1) = n + 1 + k := fun k => Nat.add_right_comm n k 1
  cases stop? with
  | none =>
    show FailsAt out (s.skip (n + (cs.length + 1))) .unclosedComment items total
    rw [hshift]
    exact h
  | some stop =>
    show SkipsTo out (s.skip (n + (stop + 1))) items total
    rw [hshift]
    exact h

theorem closeComment?_cons {cs : List Char} (h : c ≠ '*') :
    closeComment? (c :: cs) = (closeComment? cs).map (· + 1) := by
  rw [closeComment?]
  exact fun _ hc _ => h hc

/-- Behind a `*`, only a `/` completes the end of a block comment. -/
theorem closeComment?_star {cs : List Char} (h : c ≠ '/') :
    closeComment? ('*' :: c :: cs) = (closeComment? (c :: cs)).map (· + 1) := by
  rw [closeComment?]
  rintro _ - ⟨⟩
  exact h rfl

/--
A block comment goes on to the first `*/` in it. After a `*` in it, the characters that are left are
those after the `*`.
-/
theorem block (s : Scanner) (items : List (Located Item)) (total : Nat) (cs : List Char) :
    (∀ {l : Lexer} {last : Span} {n : Nat}, l.Within last s n items total →
      l.state = .blockComment → s.rest.drop n = cs →
        BlockAt (l.lex last) s n cs items total (closeComment? cs)) ∧
    (∀ {l : Lexer} {last : Span} {n : Nat}, l.Within last s (n + 1) items total →
      l.state = .blockCommentStar → s.rest.drop (n + 1) = cs →
        BlockAt (l.lex last) s n ('*' :: cs) items total (closeComment? ('*' :: cs))) := by
  induction cs with
  | nil =>
    refine ⟨fun h hs hcs => ?_, fun h hs hcs => ?_⟩
    · exact h.fail (by simp [hs]) fun _ => by rw [hs, hcs]; rfl
    · exact h.fail (by simp [hs]) fun _ => by rw [hs, hcs]; rfl
  | cons c cs ih =>
    obtain ⟨hplain, hstar⟩ := ih
    refine ⟨fun {l last n} h hs hcs => ?_, fun {l last n} h hs hcs => ?_⟩
    -- outside of a `*`, only another one changes the state
    · by_cases hc : c = '*'
      · subst hc
        have hmove : l.state.moveAt '*' = .take .blockCommentStar := by rw [hs]; rfl
        obtain ⟨l', last', hlex, h', hs', hcs'⟩ := h.take (by simp [hs]) hcs hmove
        rw [hlex]
        exact hstar h' hs' hcs'
      · have hmove : l.state.moveAt c = .take .blockComment := by
          rw [hs, State.moveAt]
          exact hc
        obtain ⟨l', last', hlex, h', hs', hcs'⟩ := h.take (by simp [hs]) hcs hmove
        rw [hlex, closeComment?_cons hc]
        exact (hplain h' hs' hcs').cons c
    -- behind a `*`, a slash ends the comment and another `*` may still do so
    · by_cases hslash : c = '/'
      · subst hslash
        have hmove : l.state.moveAt '/' = .take .start := by rw [hs]; rfl
        obtain ⟨l', last', hlex, h', hs', -⟩ := h.take (by simp [hs]) hcs hmove
        exact ⟨l', last', congrArg settle hlex, hs', h'.here⟩
      · rw [closeComment?_star hslash]
        by_cases hc : c = '*'
        · subst hc
          have hmove : l.state.moveAt '*' = .take .blockCommentStar := by rw [hs]; rfl
          obtain ⟨l', last', hlex, h', hs', hcs'⟩ := h.take (by simp [hs]) hcs hmove
          rw [hlex]
          exact (hstar h' hs' hcs').cons '*'
        · have hmove : l.state.moveAt c = .take .blockComment := by
            rw [hs, State.moveAt]
            · exact hslash
            · exact hc
          obtain ⟨l', last', hlex, h', hs', hcs'⟩ := h.take (by simp [hs]) hcs hmove
          rw [hlex, closeComment?_cons hc]
          exact ((hplain h' hs' hcs').cons c).cons '*'

end Lexer

end Quadword
