import Quadword.Proofs.Grammar.Program
import Quadword.Proofs.Lowering.Total
import Quadword.Proofs.Token.Scan

/-!
# Programs of sources

A source parses to the program that its tokens derive. The program takes its names from the
identifiers among them, so they are words and not reserved. This is what a text of the program
relies on, be it printed or assembled: a name is one word in it.

* **`Source.statementOf_of_parse`**: each statement of a program that was read from a source is
  derived from some tokens, and its names are words.
* **`Source.parse_of_passes`**: a text whose tokens derive a program parses to that program.
-/

namespace Quadword

open Grammar Lexical

/-- The names that a statement mentions: of a label, of where it jumps to, of what it calls. -/
def Statement.names : Statement → List String
  | label name | goto (.label name) | gotoIf (.label name) _ | syscall name _ _ => [name]
  | _ => []

namespace Grammar

/--
The names of a statement are identifiers among its tokens. Identifiers come from words of the text,
so this is how a name in the assembly is known to be one word.
-/
theorem StatementOf.id_mem {ts : List Token} {s : Statement} {name : String}
    (h : StatementOf ts s) (hname : name ∈ s.names) : .id name ∈ ts := by
  have heq : ∀ {name' : String}, name ∈ [name'] → name' = name := fun h =>
    (List.mem_singleton.mp h).symm
  -- names stand in labels, jumps and calls only
  cases h with
  | label name' => simp [heq hname]
  | goto hd =>
      cases hd with
      | label name' => simp [heq hname]
      | finish => cases hname
  | gotoIf hd hc =>
      cases hd with
      | label name' => simp [heq hname]
      | finish => cases hname
  | syscall name' ha => simp [heq hname]
  | syscallTo name' hp ha => simp [heq hname]
  | _ => cases hname

/-- A statement is derived from a part of the tokens. -/
theorem StatementsOf.statementOf {ts : List Token} {ss : List Statement} {s : Statement}
    (h : StatementsOf ts ss) (hs : s ∈ ss) : ∃ ls, StatementOf ls s ∧ ls ⊆ ts := by
  induction h with
  | done => cases hs
  | blank _ ih =>
      obtain ⟨ls, hls, hsub⟩ := ih hs
      exact ⟨ls, hls, fun t ht => List.mem_cons_of_mem _ (hsub ht)⟩
  | @line ls ts s' ss hs' _ _ ih =>
      rcases List.mem_cons.mp hs with rfl | hs
      · exact ⟨ls, hs', List.subset_append_left ls ts⟩
      · obtain ⟨ls', hls', hsub⟩ := ih hs
        exact ⟨ls', hls', fun t ht => List.mem_append_right ls (hsub ht)⟩

end Grammar

/-- A statement of a program that was read from a source. -/
theorem Source.statementOf_of_parse {src : Source} {p : Program} {s : Statement}
    (h : src.parse = .ok p) (hs : s ∈ p.statements.map Located.value) :
    (∃ ts, StatementOf ts s) ∧ ∀ name ∈ s.names, IsName name := by
  obtain ⟨tokens, hscan, hparse⟩ := parse_eq_ok h
  obtain ⟨⟨rest, us, hrun, ⟨ts, more, hrest, -, hts⟩, -⟩, -⟩ := Program.ofTokens_sound hparse
  obtain ⟨front, hfront⟩ := initialRun_suffix hrun
  obtain ⟨ls, hls, hsub⟩ := hts.statementOf hs
  refine ⟨⟨ls, hls⟩, fun name hname => isName_of_scan hscan ?_⟩
  show .id name ∈ tokens.map Located.value
  rw [hfront, hrest]
  exact List.mem_append_right _ (List.mem_append_left _ (hsub (hls.id_mem hname)))

/--
The labels of a program that was read from a source resolve, since the parser checks them last.
-/
theorem Source.labelsResolve_of_parse {src : Source} {p : Program} (h : src.parse = .ok p) :
    LabelsResolve (p.statements.map Located.value) := by
  obtain ⟨tokens, -, hparse⟩ := parse_eq_ok h
  exact (Program.ofTokens_sound hparse).2.2

/-! ## Texts that parse -/

/-- A text whose tokens derive a program parses to that program. -/
theorem Source.parse_of_passes {text : String} {ts : List Token} {data : List Initializer}
    {ss : List Statement} (h : Passes (Text.stream text) ts [])
    (hprogram : ProgramOf (ts ++ [.eof]) data ss) :
    ∃ p, (ofText text).parse = .ok p ∧ p.data.map Located.value = data ∧
      p.statements.map Located.value = ss := by
  obtain ⟨tokens, hscan, htokens⟩ := scan_of_passes h
  have htokens : tokens.map Located.value = ts ++ [.eof] := htokens
  rw [← htokens] at hprogram
  obtain ⟨p, hp, hdata, hss⟩ := Program.ofTokens_complete .first hprogram
  refine ⟨p, ?_, hdata, hss⟩
  rw [parse, hscan]
  simp only [hp]

/--
Where its tokens stand plays no part in what a text parses to. So an example can be computed from
the values of the tokens alone, without the spans.
-/
theorem Source.parse_of_passed {text : String} {bound : Nat} {ts : List Token}
    {data : List Initializer} {ss : List Statement}
    (h : passed bound (Text.stream text) = some ts) (heof : .eof ∉ ts)
    (hp : ((Program.ofTokens (Program.unplaced (ts ++ [.eof])) .first).toOption.map fun p =>
      (p.data.map Located.value, p.statements.map Located.value)) = some (data, ss)) :
    ∃ p, (ofText text).parse = .ok p ∧ p.data.map Located.value = data ∧
      p.statements.map Located.value = ss := by
  have hvalues := Program.map_value_unplaced (ts ++ [.eof])
  have hends : EndsOnce ((Program.unplaced (ts ++ [.eof])).map Located.value) := by
    rw [hvalues]
    exact ⟨ts, rfl, heof⟩
  cases hparse : Program.ofTokens (Program.unplaced (ts ++ [.eof])) .first with
  | error e =>
      rw [hparse] at hp
      cases hp
  | ok p =>
      rw [hparse] at hp
      cases hp
      -- the spans of the computed tokens are made up, but the grammar sees values only
      have hprogram := Program.programOf_of_ofTokens hends hparse
      rw [hvalues] at hprogram
      exact parse_of_passes (passes_of_passed h) hprogram

end Quadword
