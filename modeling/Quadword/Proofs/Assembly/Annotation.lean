import Quadword.Proofs.Assembly.Output
import Quadword.Proofs.Grammar.Items

/-!
# Comments change nothing

A text may quote each statement in a comment before its code. These comments are the only lines that
start with a tab and the mark of a comment, so a text without comments is what is left of the one
with them when those lines are deleted.

* **`not_isRemark_of_mem`**: no other line of a listing looks like a quotation.
* **`filter_lines`**: deleting the quotations gives the lines of the text without them.
* **`quotes_of_parse`**: a quotation has the line of the first token of its statement.
* **`compile_annotated`**: the statement about the texts of a source.
-/

namespace Quadword

open Text Lexical Grammar

namespace Output

/-- The line starts with a tab and the mark of a comment. -/
def IsRemark (d : Dialect) (line : String) : Prop :=
  ("\t" ++ d.style.comment).toList <+: line.toList

instance (d : Dialect) (line : String) : Decidable (IsRemark d line) :=
  inferInstanceAs (Decidable (_ <+: _))

theorem isRemark_remark (d : Dialect) (b : Block) : IsRemark d (d.style.remark b) := by
  rw [Style.remark, String.append_assoc, String.append_assoc, String.append_assoc]
  exact ⟨_, String.toList_append.symm⟩

/-! ## Lines that are no quotations -/

/-- The first character is not the mark of a comment. -/
def unmarked : List Char → Bool
  | [] => false
  | c :: _ => c ≠ ';' && c ≠ '#'

theorem unmarked_append {text : List Char} (h : unmarked text = true) (more : List Char) :
    unmarked (text ++ more) = true := by
  cases text with
  | nil => cases h
  | cons c text => exact h

/--
A quotation starts with a tab and then with a mark, in either dialect. So a line is none if it lacks
the tab or if something else comes after it, as the next two lemmas say.
-/
theorem IsRemark.toList {d : Dialect} {line : String} (h : IsRemark d line) :
    ∃ text, line.toList = '\t' :: text ∧ unmarked text = false := by
  obtain ⟨cs, hcs⟩ := h
  cases d with
  | nasm => exact ⟨';' :: cs, hcs.symm, rfl⟩
  | gas => exact ⟨'#' :: cs, hcs.symm, rfl⟩

theorem not_isRemark_of_head {d : Dialect} {line : String} (h : line.toList.head? ≠ some '\t') :
    ¬ IsRemark d line := by
  intro hremark
  obtain ⟨text, hline, -⟩ := hremark.toList
  rw [hline] at h
  exact h rfl

/-- A line that is indented and goes on with a character other than a mark is no quotation. -/
theorem not_isRemark_of_cons {d : Dialect} {line : String} {text : List Char}
    (hline : line.toList = '\t' :: text) (h : unmarked text = true) : ¬ IsRemark d line := by
  intro hremark
  obtain ⟨text', hline', hmarked⟩ := hremark.toList
  rw [hline] at hline'
  rw [(List.cons.inj hline').2, hmarked] at h
  cases h

theorem unmarked_mnemonic (op : Opcode) : unmarked op.mnemonic.toList = true := by
  cases op with
  | j c => cases c <;> rfl
  | _ => rfl

/--
An instruction is indented and goes on with its mnemonic, where a quotation has the sign of a
comment. So it is the first characters that tell the two apart, whatever the operands.
-/
theorem not_isRemark_instructionText (d : Dialect) {mnemonic : String} (operands : List String)
    (h : unmarked mnemonic.toList = true) : ¬ IsRemark d (instructionText mnemonic operands) := by
  -- with operands or without, the mnemonic stands behind the tab
  have hline : ∃ tail, (instructionText mnemonic operands).toList =
      '\t' :: (mnemonic.toList ++ tail) := by
    unfold instructionText
    split
    · refine ⟨[], ?_⟩
      rw [List.append_nil, String.toList_append]
      rfl
    · rw [padRight, String.append_assoc, String.append_assoc, String.toList_append,
        String.toList_append]
      exact ⟨_, rfl⟩
  obtain ⟨tail, hline⟩ := hline
  exact not_isRemark_of_cons hline (unmarked_append h tail)

/--
So no instruction looks like a quotation. Both dialects have mnemonics of their own for some
opcodes, and those do not start with a mark either.
-/
theorem not_isRemark_instruction (d : Dialect) (i : Instruction) :
    ¬ IsRemark d (d.style.instruction i) := by
  cases d with
  | nasm =>
      -- one opcode is written with the mnemonic of another
      apply not_isRemark_instructionText
      unfold Nasm.mnemonic
      split
      · rfl
      · exact unmarked_mnemonic i.opcode
  | gas =>
      -- three mnemonics differ from those of the opcodes
      apply not_isRemark_instructionText
      unfold Gas.mnemonic
      split
      · rfl
      · rfl
      · rfl
      · exact unmarked_mnemonic _

/-- A line of code is an instruction or a label, and a label is not indented. -/
theorem not_isRemark_line (d : Dialect) {line : Line} (h : line.Shaped) :
    ¬ IsRemark d (d.style.line line) := by
  -- a label is not indented, whichever it is
  have hlabel : ∀ {s : Symbol}, s.isHost = false → ¬ IsRemark d (s.name ++ ":") := by
    intro s hs
    apply not_isRemark_of_head
    rw [String.toList_append, List.head?_append]
    rcases Symbol.head?_name hs with hhead | hhead <;> simp [hhead]
  cases h with
  | label hs => exact hlabel hs
  | inLine _ => exact not_isRemark_instruction d _
  | jmp _ => exact not_isRemark_instruction d _
  | j _ _ => exact not_isRemark_instruction d _
  | call _ => exact not_isRemark_instruction d _

/--
A value is indented and starts with its directive, so it is no quotation either. This is seen in
each of the four directives, since the number behind them does not matter.
-/
theorem not_isRemark_chunk (d : Dialect) (c : Chunk) : ¬ IsRemark d (d.style.chunk c) := by
  -- the text of a value comes after the name of a directive
  have happend : ∀ {start : String} {text : List Char} (more : String),
      start.toList = '\t' :: text → unmarked text = true → ¬ IsRemark d (start ++ more) := by
    intro start text more hstart htext
    have hline : (start ++ more).toList = '\t' :: (text ++ more.toList) := by
      rw [String.toList_append, hstart]
      rfl
    exact not_isRemark_of_cons hline (unmarked_append htext _)
  cases d with
  | nasm =>
      cases c with
      | zero bytes =>
          have htimes : ¬ IsRemark .nasm ("\ttimes " ++ (toString bytes ++ " db 0")) :=
            happend _ rfl rfl
          rw [← String.append_assoc] at htimes
          exact htimes
      | quad value =>
          have hquad : ¬ IsRemark .nasm ("\tdq " ++ toString value.toInt) := happend _ rfl rfl
          exact hquad
  | gas =>
      cases c with
      | zero bytes =>
          have hzero : ¬ IsRemark .gas ("\t.zero " ++ toString bytes) := happend _ rfl rfl
          exact hzero
      | quad value =>
          have hquad : ¬ IsRemark .gas ("\t.quad " ++ toString value.toInt) := happend _ rfl rfl
          exact hquad

/--
Nothing that is written for a region looks like a quotation, neither its heading nor its values.
-/
theorem not_isRemark_region (d : Dialect) (r : Region) (chunks : List Chunk) :
    ∀ line ∈ d.style.region r chunks, ¬ IsRemark d line := by
  have hfixed : ∀ line ∈ ["", d.style.regionSection r, d.style.align 8,
      d.style.line (.label (.region r))], ¬ IsRemark d line := by
    cases d <;> cases r <;> decide
  refine List.forall_mem_append.mpr ⟨hfixed, fun line hline => ?_⟩
  obtain ⟨c, -, rfl⟩ := List.mem_map.mp hline
  exact not_isRemark_chunk d c

/--
No line of the preamble looks like a quotation. Its first line is a comment, but without a tab.
-/
theorem not_isRemark_preamble (d : Dialect) (names : List String) :
    ∀ line ∈ (d.style.comment ++ " KAIR program, Windows x64 ABI") :: d.style.preamble names,
      ¬ IsRemark d line := by
  cases d with
  | nasm =>
      have hfixed : ∀ line ∈ ["; KAIR program, Windows x64 ABI", "bits 64", "global _start"],
          ¬ IsRemark .nasm line := by decide
      -- the names are those of the source, but what starts the line is the directive
      have hnames : ∀ line ∈ names.map ("extern " ++ ·), ¬ IsRemark .nasm line := by
        intro line hline
        obtain ⟨name, -, rfl⟩ := List.mem_map.mp hline
        apply not_isRemark_of_head
        rw [String.toList_append]
        simp
      exact List.forall_mem_append.mpr ⟨hfixed, hnames⟩
  | gas =>
      have hfixed : ∀ line ∈ ["# KAIR program, Windows x64 ABI", "\t.code64", "\t.globl _start"],
          ¬ IsRemark .gas line := by decide
      exact hfixed

/-! ## Listings -/

/-- The lines in front of the code of the first statement. -/
def header (style : Style) (l : Listing) : List String :=
  (style.comment ++ " KAIR program, Windows x64 ABI") :: style.preamble l.externals
    ++ style.region .data l.data
    ++ style.region .const l.const
    ++ ["", style.codeSection, style.line (.label .entry)]

/--
All lines of a text: the header, the blocks and the exit. Only the blocks depend on whether
quotations are wanted.
-/
theorem lines_eq_header (style : Style) (annotate : Bool) (l : Listing) :
    style.lines annotate l =
      header style l ++ l.blocks.flatMap (style.block annotate) ++ l.exit.map style.line := rfl

/-- Nothing in the header looks like a quotation. -/
theorem not_isRemark_header (d : Dialect) (l : Listing) :
    ∀ line ∈ header d.style l, ¬ IsRemark d line := by
  have hstart : ∀ line ∈ ["", d.style.codeSection, d.style.line (.label .entry)],
      ¬ IsRemark d line := by
    cases d <;> decide
  apply List.forall_mem_append.mpr ⟨_, hstart⟩
  apply List.forall_mem_append.mpr ⟨_, not_isRemark_region d .const l.const⟩
  apply List.forall_mem_append.mpr ⟨_, not_isRemark_region d .data l.data⟩
  exact not_isRemark_preamble d l.externals

section

variable {p : Program} {mode : Addressing} {l : Listing} (h : p.lower mode = .ok l)

include h

/--
A text without quotations has no line that looks like one, as every line of code has one of the
shapes above.
-/
theorem not_isRemark_of_mem (d : Dialect) : ∀ line ∈ d.style.lines false l, ¬ IsRemark d line := by
  have hcode : ∀ line ∈ l.code, ¬ IsRemark d (d.style.line line) := fun line hline =>
    not_isRemark_line d ((Program.lower_mentions h).shaped line hline)
  -- behind the header come the lines of the blocks and then those of the exit
  rw [lines_eq_header]
  refine List.forall_mem_append.mpr ⟨List.forall_mem_append.mpr ⟨not_isRemark_header d l, ?_⟩, ?_⟩
  · intro line hline
    obtain ⟨b, hb, hline⟩ := List.mem_flatMap.mp hline
    obtain ⟨line', hline', rfl⟩ := List.mem_map.mp hline
    have hmem : line' ∈ l.blocks.flatMap Block.code := List.mem_flatMap.mpr ⟨b, hb, hline'⟩
    exact hcode line' (List.mem_append_left _ (List.mem_cons_of_mem _ hmem))
  · intro line hline
    obtain ⟨line', hline', rfl⟩ := List.mem_map.mp hline
    exact hcode line' (List.mem_append_right _ hline')

/--
Deleting the quotations leaves the lines of the listing without them: in every block exactly the
first line goes, and outside of blocks nothing does.
-/
theorem filter_lines (d : Dialect) :
    (d.style.lines true l).filter (fun line => ¬ IsRemark d line) = d.style.lines false l := by
  have hplain := not_isRemark_of_mem h d
  rw [lines_eq_header, List.forall_mem_append, List.forall_mem_append] at hplain
  obtain ⟨⟨hheader, hblocks⟩, hexit⟩ := hplain
  -- lines of which none is a quotation all stay
  have hself : ∀ {ls : List String}, (∀ line ∈ ls, ¬ IsRemark d line) →
      ls.filter (fun line => ¬ IsRemark d line) = ls := fun hls =>
    List.filter_eq_self.mpr fun line hline => decide_eq_true (hls line hline)
  -- of each block, the first line goes
  have hblock : ∀ {bs : List Block}, (∀ line ∈ bs.flatMap (d.style.block false),
        ¬ IsRemark d line) →
      (bs.flatMap (d.style.block true)).filter (fun line => ¬ IsRemark d line) =
        bs.flatMap (d.style.block false) := by
    intro bs hbs
    induction bs with
    | nil => rfl
    | cons b bs ih =>
        rw [List.flatMap_cons, List.forall_mem_append] at hbs
        have hcons : d.style.block true b = d.style.remark b :: d.style.block false b := rfl
        rw [List.flatMap_cons, List.flatMap_cons, List.filter_append, hcons,
          List.filter_cons_of_neg (by simpa using isRemark_remark d b), hself hbs.1, ih hbs.2]
  rw [lines_eq_header, lines_eq_header, List.filter_append, List.filter_append, hself hheader,
    hblock hblocks, hself hexit]

end

/-! ## Sources -/

/-- The run of tokens derives the statement of the block, which has the line of its first token. -/
structure QuotedFrom (run : List (Located Token)) (b : Block) : Prop where
  derives : StatementOf (run.map Located.value) b.statement
  line : ∃ first, run.head? = some first ∧ b.line = first.span.start.line

/--
Blocks come one for each statement and in order, so each quotes the run of tokens that its statement
was derived from. The line is that of the run's first token, as the statement's span starts there.
-/
theorem quotes_of_lowerStatements {mode : Addressing} {ss : List (Located Statement)}
    {runs : List (List (Located Token))} (hss : List.Forall₂ (Sited StatementOf) runs ss) :
    ∀ {fresh : Nat} {blocks : List Block}, Program.lowerStatements mode fresh ss = .ok blocks →
      List.Forall₂ QuotedFrom runs blocks := by
  -- by induction on the runs and the statements that they are, with a block for each
  induction hss with
  | nil =>
      intro fresh blocks h
      cases h
      exact .nil
  | cons hsited _ ih =>
      intro fresh blocks h
      obtain ⟨code, more, -, hmore, rfl⟩ := Program.lowerStatements_cons h
      obtain ⟨first, last, hfirst, -, hspan⟩ := hsited.span
      refine .cons ⟨hsited.derives, first, hfirst, ?_⟩ (ih hmore)
      rw [hspan]

/-- The blocks of a program quote the runs of its tokens that are statements. -/
def Quotes (src : Source) (p : Program) (blocks : List Block) : Prop :=
  ∃ front e rest dataRuns statementRuns, src.scan.result = .ok (front ++ e :: rest) ∧
    e.value = .eof ∧ .eof ∉ front.map Located.value ∧
    itemRuns front = dataRuns ++ statementRuns ∧ dataRuns.length = p.data.length ∧
    List.Forall₂ QuotedFrom statementRuns blocks

/--
In a source that is parsed, the statements come from its runs of tokens after those of the data, and
so do the blocks.
-/
theorem quotes_of_parse {src : Source} {p : Program} {mode : Addressing} {l : Listing}
    (hparse : src.parse = .ok p) (hlower : p.lower mode = .ok l) : Quotes src p l.blocks := by
  obtain ⟨tokens, hscan, htokens⟩ := Source.parse_eq_ok hparse
  obtain ⟨front, e, rest, dataRuns, statementRuns, rfl, he, hfront, -, hruns, hdata, hss⟩ :=
    Program.sited_of_ofTokens htokens
  exact ⟨front, e, rest, dataRuns, statementRuns, hscan, he, hfront, hruns, hdata.length_eq,
    quotes_of_lowerStatements hss (Program.lower_eq_ok hlower).1⟩

/--
**Comments change nothing.** What is accepted without quotations is accepted with them. The text
with them has one line more for each statement, right before the lines of its code: behind a tab and
the mark of a comment the line of the statement's first token, and the statement. These are the only
lines that start with a tab and that mark, and deleting them gives the text without them.
-/
theorem compile_annotated {src : Source} {d : Dialect} {mode : Addressing} {text : String}
    (h : src.compile ⟨d, mode, false⟩ = .ok text) :
    ∃ annotated p l, src.compile ⟨d, mode, true⟩ = .ok annotated ∧ src.parse = .ok p ∧
      p.lower mode = .ok l ∧
      String.join (((lines annotated).filter fun line => ¬ IsRemark d line).map (· ++ "\n")) =
        text ∧
      (∃ before after,
        lines text = before ++ l.blocks.flatMap (fun b => b.code.map d.style.line) ++ after ∧
        lines annotated = before ++ l.blocks.flatMap (fun b =>
          ("\t" ++ d.style.comment ++ " " ++ toString b.line ++ ": " ++ b.statement.render) ::
            b.code.map d.style.line) ++ after) ∧
      (∀ line ∈ lines text, ¬ IsRemark d line) ∧
      l.blocks.map Block.statement = p.statements.map Located.value ∧ Quotes src p l.blocks := by
  obtain ⟨p, l, hparse, hlower, rfl⟩ := Source.compile_eq_ok_iff.mp h
  have hwords := Source.isWord_of_parse hparse
  have hcompile : src.compile ⟨d, mode, true⟩ = .ok (d.style.text true l) :=
    Source.compile_eq_ok_iff.mpr ⟨p, l, hparse, hlower, rfl⟩
  have hlines : lines (d.style.text false l) = d.style.lines false l :=
    lines_text hwords hlower d false
  have hlines' := lines_text hwords hlower d true
  refine ⟨_, p, l, hcompile, hparse, hlower, ?_, ?_, ?_, ?_, quotes_of_parse hparse hlower⟩
  · rw [hlines', filter_lines hlower]
    rfl
  · -- both texts have the same header and the same exit
    exact ⟨header d.style l, l.exit.map d.style.line, hlines, hlines'⟩
  · show ∀ line ∈ lines (d.style.text false l), ¬ IsRemark d line
    rw [hlines]
    exact not_isRemark_of_mem hlower d
  · exact (Program.lowerStatements_moves (Program.lower_eq_ok hlower).1).1

/-- A label and a jump, whose quotation starts like a comment of the other dialect. -/
theorem compile_annotated_label :
    let src := Source.ofText "\n#top // here\n\tgoto top"
    ∃ text annotated p l, src.compile ⟨.gas, .relative, false⟩ = .ok text ∧
      src.compile ⟨.gas, .relative, true⟩ = .ok annotated ∧ src.parse = .ok p ∧
      p.lower .relative = .ok l ∧
      String.join (((lines annotated).filter fun line => ¬ IsRemark .gas line).map (· ++ "\n")) =
        text ∧
      l.blocks.map (fun b => b.statement.render) = ["#top", "goto top"] ∧
      Quotes src p l.blocks := by
  intro src
  have hpassed : passed 100 (Text.stream "\n#top // here\n\tgoto top") =
      some [.newline, .hash, .id "top", .newline, .keyword .goto, .id "top", .newline] := by
    decide +kernel
  have hparsed : ∃ p, src.parse = .ok p ∧ p.data.map Located.value = [] ∧
      p.statements.map Located.value = [.label "top", .goto (.label "top")] :=
    Source.parse_of_passed hpassed (by decide +kernel) (by decide +kernel)
  obtain ⟨p, hparse, -, hss⟩ := hparsed
  obtain ⟨text, hcompile⟩ := Source.exists_compile hparse ⟨.gas, .relative, false⟩
  obtain ⟨annotated, p', l, hannotated, hparse', hlower, hdeleted, -, -, hstatements, hquotes⟩ :=
    compile_annotated hcompile
  cases hparse.symm.trans hparse'
  refine ⟨text, annotated, p, l, hcompile, hannotated, hparse, hlower, hdeleted, ?_, hquotes⟩
  -- the blocks have the statements that were parsed, so their texts can be computed
  show l.blocks.map (Statement.render ∘ Block.statement) = _
  rw [← List.map_map, hstatements, hss]
  rfl

end Output

end Quadword
