import Quadword.Text.Source
import Quadword.Token.State

/-!
# Breaking a text into tokens

A lexer reads a source item by item, with one item of lookahead, and is a state machine: each turn
decides from the state and the next character what to do (`State.move`). It goes round until a token
is complete or something is wrong (`Lexer.lex`), and yields the result with its place
(`Lexer.next?`). The token for the end of the text, or a fault, is the last thing that it yields.

Items carry the place of what follows them, so three places are kept: where the token started, the
place of the next character, and the place of the character that was taken last, at which the token
ends.

`Lexer.scan` pulls until nothing more comes. It stops because a pull that yields something leaves a
smaller lexer behind (`Lexer.size_next?_lt`).
-/

namespace Quadword

/-- A source that is being broken into tokens. -/
structure Lexer where
  reader : Reader
  state : Lexer.State := .start
  /-- The place of the first character of the token, or of the next one if there is no token yet. -/
  start : Span
  /-- The place of the next character. -/
  next : Span
  finished : Bool := false

namespace Lexer

def ofSource (src : Source) : Lexer := ⟨⟨src.trace, false, 0⟩, .start, .first, .first, false⟩

/-- What remains to be read. -/
abbrev rest (l : Lexer) : List (Located Item) := l.reader.rest

/-! ## One turn -/

/-- What a token or fault comes to: a token with the place at which it ends, or nothing any more. -/
abbrev Outcome := Except LexError (Option (Token × Span))

/-- What comes of a turn: another one, with the place of the last character taken, or an outcome. -/
inductive Turn where
  | more (l : Lexer) (last : Span)
  | done (outcome : Outcome) (l : Lexer)

def peek (l : Lexer) : Lexer := { l with reader := l.reader.peek }

/-- Takes the next character, if there is one, and goes to the state. -/
def take (l : Lexer) (s : State) (last : Span) : Turn :=
  let l' := { l with reader := l.reader.pop, state := s }
  match l.rest with
  | [] => .more l' last
  | item :: _ => .more { l' with next := item.span } l.next

/-- Makes a move, `last` being the place of the last character taken. -/
def act (l : Lexer) (last : Span) : Move → Turn
  | .take s => l.take s last
  | .keep s => .more { l with state := s } last
  | .emit t => .done (.ok (some (t, last))) l
  | .fail e => .done (.error e) l
  | .finish => .done (.ok (some (.eof, last))) { l with finished := true }
  | .stop => .done (.ok none) l

/-- Decides on the next character. As long as no token has started, the start goes along. -/
def respond (l : Lexer) (last : Span) (c : Option Char) : Turn :=
  if l.state = .start then
    { l with start := l.next }.act l.next (l.state.move l.finished c)
  else
    l.act last (l.state.move l.finished c)

/-- One turn at the next item, which is looked at first. -/
def turn (l : Lexer) (last : Span) : Turn :=
  match l.rest with
  | [] => l.peek.respond last none
  | ⟨.char c, _⟩ :: _ => l.peek.respond last (some c)
  | ⟨.undecodable, _⟩ :: _ => .done (.error .unreadable) { l with reader := l.reader.pop }

variable {l l' : Lexer} {last last' : Span} {c : Char} {span : Span} {items : List (Located Item)}

theorem peek_rest (l : Lexer) : l.peek.rest = l.rest := l.reader.peek_rest

/--
A turn between two tokens. Its character is the first one of the next token, so both the start and
the last place become those of that character.
-/
theorem turn_start (hs : l.state = .start) (hrest : l.rest = ⟨.char c, span⟩ :: items) :
    l.turn last = { l.peek with start := l.next }.act l.next (State.begin c) := by
  obtain ⟨reader, state, start, next, finished⟩ := l
  subst hs
  unfold turn
  rw [hrest]
  exact if_pos rfl

/-- A turn inside a token: the state and the character alone decide, and no place is moved. -/
theorem turn_inside (hs : l.state ≠ .start) (hrest : l.rest = ⟨.char c, span⟩ :: items) :
    l.turn last = l.peek.act last (l.state.moveAt c) := by
  unfold turn
  rw [hrest]
  exact if_neg hs

/-- A turn at the end of the text yields the end once, at the place behind the last character. -/
theorem turn_start_end (hs : l.state = .start) (hf : l.finished = false) (hrest : l.rest = []) :
    l.turn last =
      .done (.ok (some (.eof, l.next))) { l.peek with start := l.next, finished := true } := by
  obtain ⟨reader, state, start, next, finished⟩ := l
  subst hs hf
  unfold turn
  rw [hrest]
  exact if_pos rfl

/-- A turn at the end of the text that completes a token, or reports one that is not complete. -/
theorem turn_inside_end (hs : l.state ≠ .start) (hrest : l.rest = []) :
    l.turn last = l.peek.act last (l.state.moveEnd l.finished) := by
  unfold turn
  rw [hrest]
  exact if_neg hs

/-- Where a line could not be decoded a lexer gives up, whatever it is in the middle of. -/
theorem turn_undecodable (hrest : l.rest = ⟨.undecodable, span⟩ :: items) :
    l.turn last = .done (.error .unreadable) { l with reader := l.reader.pop } := by
  unfold turn
  rw [hrest]

/-! ## Turns come to an end -/

/-- A bound on the number of turns to come. -/
def fuel (l : Lexer) : Nat := 3 * l.rest.length + l.state.rank

/-- Taking a character pays for all the turns that keep one. -/
theorem fuel_take_lt {s : State} (hrest : l.rest ≠ []) (h : l.take s last = .more l' last') :
    l'.fuel < l.fuel := by
  unfold take at h
  split at h
  · contradiction
  · next hcons =>
    obtain ⟨rfl, -⟩ := Turn.more.inj h
    have hrank := s.rank_le
    simp only [fuel, rest, Reader.pop_rest] at hcons ⊢
    rw [hcons, List.tail_cons, List.length_cons]
    omega

/-- A move that does not end the turns takes a character or goes to a state of lower rank. -/
theorem fuel_act_lt {finished : Bool} {c : Option Char} (hc : c ≠ none → l.rest ≠ [])
    (h : l.act last (l.state.move finished c) = .more l' last') : l'.fuel < l.fuel := by
  generalize hmove : l.state.move finished c = m at h
  -- only the moves that take or keep the character go on
  cases m with
  | take s =>
    refine fuel_take_lt (hc ?_) h
    rintro rfl
    exact State.moveEnd_ne_take _ _ _ hmove
  | keep s =>
    obtain ⟨rfl, -⟩ := Turn.more.inj h
    exact Nat.add_lt_add_left (State.move_keep hmove) (3 * l.rest.length)
  | emit t => cases h
  | fail e => cases h
  | finish => cases h
  | stop => cases h

/-- The same for the turn at a character, which may first move the start of the token along. -/
theorem fuel_respond_lt {c : Option Char} (hc : c ≠ none → l.rest ≠ [])
    (h : l.respond last c = .more l' last') : l'.fuel < l.fuel := by
  unfold respond at h
  split at h
  · exact fuel_act_lt (l := { l with start := l.next }) hc h
  · exact fuel_act_lt hc h

theorem fuel_peek (l : Lexer) : l.peek.fuel = l.fuel := by rw [fuel, peek_rest, fuel, peek]

/--
**Turns come to an end**: each one that leads to another takes a character or goes to a state of
lower rank. This is what `Lexer.lex` is defined by.
-/
theorem fuel_turn_lt (h : l.turn last = .more l' last') : l'.fuel < l.fuel := by
  rw [← l.fuel_peek]
  unfold turn at h
  split at h
  · exact fuel_respond_lt (fun hc => absurd rfl hc) h
  · next hcons => exact fuel_respond_lt (fun _ => by simp [peek_rest, hcons]) h
  · cases h

/-- Goes round until there is an outcome, `last` being the place of the last character taken. -/
def lex (l : Lexer) (last : Span) : Outcome × Lexer :=
  match _h : l.turn last with
  | .more l' last' => l'.lex last'
  | .done outcome l' => (outcome, l')
termination_by l.fuel
decreasing_by exact fuel_turn_lt _h

/-- What is yielded for an outcome. The lexer is between two tokens then, or has come to its end. -/
def settle : Outcome × Lexer → Option (Except (Located LexError) (Located Token) × Lexer)
  | (.ok none, _) => none
  | (.ok (some (t, last)), l) => some (.ok ⟨t, l.start.join last⟩, { l with state := .start })
  | (.error e, l) => some (.error ⟨e, l.next⟩, { l with state := .start, finished := true })

/-- The next token or the first fault, with what is left; `none` after the last one. -/
def next? (l : Lexer) : Option (Except (Located LexError) (Located Token) × Lexer) :=
  if l.state = .start ∧ l.finished then none else settle (l.lex l.start)

/-! ## Pulls come to an end -/

/-- A run of turns, unfolded at a turn that leads to another one. -/
theorem lex_more (h : l.turn last = .more l' last') : l.lex last = l'.lex last' := by
  rw [lex]
  split
  · next hturn =>
    rw [hturn] at h
    obtain ⟨rfl, rfl⟩ := Turn.more.inj h
    rfl
  · next hturn => cases hturn.symm.trans h

/-- A run of turns ends with the outcome of its last turn. -/
theorem lex_done {o : Outcome} (h : l.turn last = .done o l') : l.lex last = (o, l') := by
  rw [lex]
  split
  · next hturn => cases hturn.symm.trans h
  · next hturn =>
    rw [hturn] at h
    obtain ⟨rfl, rfl⟩ := Turn.done.inj h
    rfl

/-- The lexer that a turn leaves. -/
def Turn.lexer : Turn → Lexer
  | more l _ => l
  | done _ l => l

theorem rest_take (l : Lexer) (s : State) (last : Span) :
    (l.take s last).lexer.rest = l.rest.tail := by
  unfold take
  split <;> rfl

theorem rest_act (l : Lexer) (last : Span) (m : Move) :
    (l.act last m).lexer.rest.length ≤ l.rest.length := by
  cases m with
  | take s =>
    show (l.take s last).lexer.rest.length ≤ _
    rw [rest_take, List.length_tail]
    exact Nat.sub_le _ 1
  | _ => exact Nat.le_refl _

/-- No turn adds items to what is left, whether a character is taken or only looked at. -/
theorem rest_turn (l : Lexer) (last : Span) :
    (l.turn last).lexer.rest.length ≤ l.rest.length := by
  -- looking at the item leaves it there, and the move takes at most that one
  have hrespond : ∀ c, (l.peek.respond last c).lexer.rest.length ≤ l.rest.length := by
    intro c
    rw [← l.peek_rest]
    unfold respond
    split
    · exact rest_act { l.peek with start := l.peek.next } _ _
    · exact rest_act _ _ _
  unfold turn
  split
  · exact hrespond none
  · exact hrespond (some _)
  · next hcons => simp [Turn.lexer, rest, List.length_tail]

/-- A run of turns leaves no more items than there were. -/
theorem rest_lex (l : Lexer) (last : Span) : (l.lex last).2.rest.length ≤ l.rest.length := by
  fun_induction lex l last with
  | case1 l last l' last' hturn ih =>
    have hle := l.rest_turn last
    rw [hturn] at hle
    exact Nat.le_trans ih hle
  | case2 l last o l' hturn =>
    have hle := l.rest_turn last
    rwa [hturn] at hle

/-- Whatever comes after a character that is taken, that character is gone. -/
theorem rest_lex_of_take {m : Lexer} {s : State} (h : l.turn last = m.take s last') :
    (l.lex last).2.rest.length ≤ m.rest.tail.length := by
  rw [← rest_take m s last', ← h]
  generalize hturn : l.turn last = turn
  cases turn with
  | more l' last' =>
    rw [lex_more hturn]
    exact rest_lex l' last'
  | done o l' =>
    rw [lex_done hturn]
    exact Nat.le_refl _

/-- A token that starts between two others takes a character, unless it is the end of the text. -/
theorem rest_lex_lt {t : Token × Span} (hs : l.state = .start) (hf : l.finished = false)
    (h : l.lex last = (.ok (some t), l')) :
    l'.finished = true ∨ l'.rest.length < l.rest.length := by
  cases hrest : l.rest with
  | nil =>
    rw [lex_done (turn_start_end hs hf hrest)] at h
    cases h
    exact .inl rfl
  | cons item items =>
    obtain ⟨c | _, span⟩ := item
    · refine .inr (Nat.lt_succ_of_le ?_)
      have hturn : l.turn last = _ := turn_start hs hrest
      -- what starts at the character takes it at once, or in the next turn, or is a fault
      obtain ⟨s, hmove⟩ | ⟨s, hmove⟩ | ⟨e, hmove⟩ := State.begin_cases c
      · rw [hmove] at hturn
        have hle := rest_lex_of_take hturn
        rwa [h, peek_rest, hrest] at hle
      · -- the character has only been looked at so far
        obtain ⟨hne, htaken⟩ := State.moveAt_of_begin_keep hmove
        rw [hmove] at hturn
        rw [lex_more hturn] at h
        have hturn' : Lexer.turn { l.peek with state := s, start := l.next } l.next = _ :=
          turn_inside hne (l.peek_rest.trans hrest)
        obtain ⟨s', hmove'⟩ | ⟨e, hmove'⟩ := htaken
        · rw [hmove'] at hturn'
          have hle := rest_lex_of_take hturn'
          rwa [h, peek_rest, peek_rest, hrest] at hle
        · rw [hmove'] at hturn'
          rw [lex_done hturn'] at h
          cases h
      · rw [hmove] at hturn
        rw [lex_done hturn] at h
        cases h
    · rw [lex_done (turn_undecodable hrest)] at h
      cases h

/-- A bound on the number of pulls that still yield something. -/
def size (l : Lexer) : Nat :=
  2 * l.rest.length + if l.state = .start then if l.finished then 0 else 1 else 2

/--
A pull that yields a token leaves a smaller lexer behind. A lexer can therefore be pulled until
nothing comes, by recursion on the size.
-/
theorem size_next?_lt {t : Located Token} (h : l.next? = some (.ok t, l')) : l'.size < l.size := by
  unfold next? at h
  split at h
  · cases h
  · next hopen =>
    have hle := l.rest_lex l.start
    generalize hlex : l.lex l.start = out at h hle
    obtain ⟨_ | _ | ⟨u, last⟩, m⟩ := out
    · cases h
    · cases h
    · cases h
      have hle : m.rest.length ≤ l.rest.length := hle
      have hsize : ({ m with state := .start } : Lexer).size =
          2 * m.rest.length + if m.finished then 0 else 1 := rfl
      rw [hsize, size]
      -- inside a token the bound has two to spare; between two tokens a character is taken, or the
      -- end is yielded
      by_cases hs : l.state = .start
      · have hf : l.finished = false := by simpa [hs] using hopen
        rw [if_pos hs, hf]
        rcases rest_lex_lt hs hf hlex with hfinished | hlt
        · rw [hfinished, if_pos rfl, if_neg Bool.false_ne_true]
          omega
        · rw [if_neg Bool.false_ne_true]
          split <;> omega
      · rw [if_neg hs]
        split <;> omega

end Lexer

/-! ## Scans -/

/-- Everything that a lexer yields, and the lexer that is left when nothing more comes. -/
structure Scan where
  tokens : List (Located Token)
  failure : Option (Located LexError)
  final : Lexer

/-- Pulls until nothing more comes. -/
def Lexer.scan (l : Lexer) : Scan :=
  match _h : l.next? with
  | none => ⟨[], none, l⟩
  | some (.error e, l') => ⟨[], some e, l'⟩
  | some (.ok t, l') =>
    let more := l'.scan
    { more with tokens := t :: more.tokens }
termination_by l.size
decreasing_by exact Lexer.size_next?_lt _h

def Source.scan (src : Source) : Scan := (Lexer.ofSource src).scan

/-- The tokens of a scan, or its fault. -/
def Scan.result (s : Scan) : Except (Located LexError) (List (Located Token)) :=
  match s.failure with
  | some e => .error e
  | none => .ok s.tokens

end Quadword
