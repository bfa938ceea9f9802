import Mathlib.Data.List.Nodup
import Quadword.Proofs.Assembly.Lines

/-!
# The symbols of assembly texts

The text of a listing is put together from pieces, and each of them shows the symbols of what it was
written for. So the text defines the symbols of the program and nothing else, and what was settled
for symbols carries over to the lines of the text.

* **`Output.shows_lines`**: what the lines of a whole listing say.
* **`Source.compile_resolves`**: in the text of a source, symbols are defined once, every jump and
  every call finds its symbol, and jumps to a label lead to the statement that defines it.
-/

namespace Quadword

open Text Lexical

namespace Output

/-! ## Listings -/

/--
An indented line that starts with none of the letters that matter shows nothing. Directives and
quotations are such lines.
-/
theorem shows_indented {start text : String} {c : Char} {cs : List Char}
    (hstart : start.toList = '\t' :: c :: cs) (hj : c ≠ 'j') (hc : c ≠ 'c')
    (hline : OneLine start) (htext : Plain text) : Shows [start ++ text] [] [] [] [] := by
  have hlist : (start ++ text).toList = '\t' :: c :: (cs ++ text.toList) := by
    rw [String.toList_append, hstart]
    rfl
  -- not a label because of the tab, and no jump or call because of what follows it
  refine .other (oneLine_append.mpr ⟨hline, htext.oneLine⟩) ?_ ?_ ?_ ?_
  · rw [hlist, label?_indented]
  · rw [hlist, jump?]
    intro cs' heq
    exact hj (List.cons.inj (List.cons.inj heq).2).1
  · rw [hlist, call?]
    intro cs' heq
    exact hc (List.cons.inj (List.cons.inj heq).2).1
  · rw [hlist]
    rfl

/--
Values say nothing about symbols, so the labels of the regions are the only ones in front of the
code.
-/
theorem shows_chunk (d : Dialect) (c : Chunk) : Shows [d.style.chunk c] [] [] [] [] := by
  cases d with
  | nasm =>
      cases c with
      | zero bytes =>
          have hstart : "\ttimes ".toList = '\t' :: 't' :: "imes ".toList := rfl
          have htext : Plain (toString bytes ++ " db 0") :=
            plain_append.mpr ⟨plain_nat bytes, by decide⟩
          -- the two spellings of the text differ in how it is put together
          have heq : Nasm.chunk (.zero bytes) = "\ttimes " ++ (toString bytes ++ " db 0") :=
            String.append_assoc
          have hshows := shows_indented hstart (by decide) (by decide) (by decide) htext
          rw [← heq] at hshows
          exact hshows
      | quad value =>
          have hstart : "\tdq ".toList = '\t' :: 'd' :: "q ".toList := rfl
          exact shows_indented hstart (by decide) (by decide) (by decide) (plain_int _)
  | gas =>
      cases c with
      | zero bytes =>
          have hstart : "\t.zero ".toList = '\t' :: '.' :: "zero ".toList := rfl
          exact shows_indented hstart (by decide) (by decide) (by decide) (plain_nat bytes)
      | quad value =>
          have hstart : "\t.quad ".toList = '\t' :: '.' :: "quad ".toList := rfl
          exact shows_indented hstart (by decide) (by decide) (by decide) (plain_int _)

/-- A region shows its symbol, once, on the line in front of its values. -/
theorem shows_region (d : Dialect) (r : Region) (chunks : List Chunk) :
    Shows (d.style.region r chunks) [(Symbol.region r).name] [] [] [] := by
  have hbefore : Shows ["", d.style.regionSection r, d.style.align 8] [] [] [] [] := by
    refine .others fun l hl => ?_
    rcases List.mem_cons.mp hl with rfl | hl
    · exact .other (by decide) rfl rfl rfl rfl
    · rcases List.mem_cons.mp hl with rfl | hl
      · cases d <;> cases r <;> exact .other (by decide) rfl rfl rfl rfl
      · rw [List.mem_singleton.mp hl]
        cases d <;> exact .other (by decide) rfl rfl rfl rfl
  have hword : IsWord (Symbol.region r).name := Symbol.isWord_fixed (by cases r <;> decide)
  have hchunks : Shows (chunks.map d.style.chunk) [] [] [] [] := by
    refine .others fun l hl => ?_
    obtain ⟨c, -, rfl⟩ := List.mem_map.mp hl
    exact shows_chunk d c
  exact (hbefore.append (shows_label rfl hword)).append hchunks

/-- The quotation of a statement says nothing about symbols. -/
theorem shows_remark (d : Dialect) {b : Block} (h : Plain b.statement.render) :
    Shows [d.style.remark b] [] [] [] [] := by
  have htext : Plain (toString b.line ++ (": " ++ b.statement.render)) :=
    plain_append.mpr ⟨plain_nat b.line, plain_append.mpr ⟨by decide, h⟩⟩
  rw [Style.remark, String.append_assoc, String.append_assoc]
  cases d with
  | nasm =>
      have hstart : "\t; ".toList = '\t' :: ';' :: " ".toList := rfl
      exact shows_indented hstart (by decide) (by decide) (by decide) htext
  | gas =>
      have hstart : "\t# ".toList = '\t' :: '#' :: " ".toList := rfl
      exact shows_indented hstart (by decide) (by decide) (by decide) htext

end Output

/--
The names in the symbols of a statement are names of the statement. Those come from its tokens, so
in an assembled program all of them are words.
-/
theorem Statement.mem_names {s : Statement} {fresh : Nat} {sym : Symbol} {name : String}
    (h : sym ∈ s.definitions fresh ∨ sym ∈ s.jumps fresh ∨ sym ∈ s.calls)
    (hname : sym = .label name ∨ sym = .host name) : name ∈ s.names := by
  -- numbered labels are defined and jumped to as well, but they are not among the two kinds
  have hdefinition : sym ∈ s.definitions fresh → name ∈ s.names := by
    intro h
    rcases mem_definitions h with ⟨name', rfl, rfl⟩ | ⟨g, rfl, -, -⟩
    · rcases hname with hname | hname <;> cases hname
      exact List.mem_cons_self
    · rcases hname with hname | hname <;> cases hname
  rcases h with h | h | h
  · exact hdefinition h
  · rcases mem_jumps h with h | ⟨d, hd, rfl⟩
    · exact hdefinition h
    · cases d with
      | finish => rcases hname with hname | hname <;> cases hname
      | label name' =>
          rcases hname with hname | hname <;> cases hname
          cases s <;> cases hd <;> exact List.mem_cons_self
  · obtain ⟨name', hcallee, rfl⟩ := List.mem_map.mp h
    rcases hname with hname | hname <;> cases hname
    cases s <;> cases Option.mem_toList.mp hcallee
    exact List.mem_cons_self

theorem Statement.isWord_symbol {s : Statement} (hwords : ∀ name ∈ s.names, IsWord name)
    (fresh : Nat) {sym : Symbol}
    (h : sym ∈ s.definitions fresh ∨ sym ∈ s.jumps fresh ∨ sym ∈ s.calls) : IsWord sym.name :=
  Symbol.isWord_name fun name hname => hwords name (mem_names h hname)

namespace Output

/--
The lines of a statement's code show the symbols of the statement. A quotation in front of them is a
comment, so it adds none.
-/
theorem shows_block (d : Dialect) (annotate : Bool) {mode : Addressing} {fresh : Nat} {b : Block}
    (h : b.statement.lower mode fresh = .ok b.code)
    (hwords : ∀ name ∈ b.statement.names, IsWord name) :
    Shows (d.style.block annotate b) ((b.statement.definitions fresh).map Symbol.name)
      ((b.statement.jumps fresh).map Symbol.name) (b.statement.calls.map Symbol.name) [] := by
  have hcode := shows_code d (Statement.lower_mentions h) fun _ =>
    Statement.isWord_symbol hwords fresh
  cases annotate with
  | false => exact hcode
  -- the quotation is one line, since the names in it are words
  | true =>
      have hplain : Plain b.statement.render :=
        Statement.plain_render fun name hname => (hwords name hname).plain
      exact (shows_remark d hplain).append hcode

/--
What the lines of all statements say, one block after the other. A quotation says nothing about
symbols, so it does not matter whether there are any.
-/
theorem shows_blocks (d : Dialect) (annotate : Bool) {mode : Addressing} {fresh : Nat}
    {ss : List (Located Statement)} {blocks : List Block}
    (h : Program.lowerStatements mode fresh ss = .ok blocks)
    (hwords : ∀ s ∈ ss, ∀ name ∈ s.value.names, IsWord name) :
    Shows (blocks.flatMap (d.style.block annotate))
      ((definitions fresh (ss.map Located.value)).map Symbol.name)
      ((Quadword.jumps fresh (ss.map Located.value)).map Symbol.name)
      (((ss.map Located.value).flatMap Statement.calls).map Symbol.name) [] := by
  induction ss generalizing fresh blocks with
  | nil =>
      cases h
      exact .nil
  | cons s ss ih =>
      obtain ⟨code, more, hs, hmore, rfl⟩ := Program.lowerStatements_cons h
      obtain ⟨hword, hwords⟩ := List.forall_mem_cons.mp hwords
      have hblock : Shows (d.style.block annotate ⟨s.span.start.line, s.value, code⟩) _ _ _ _ :=
        shows_block d annotate hs hword
      -- the labels of this block are counted before those of the others
      simpa [definitions, Quadword.jumps] using hblock.append (ih hmore hwords)

/--
A declaration of a procedure of the host shows its name as declared and as nothing else. Only NASM
asks for these lines.
-/
theorem shows_external {name : String} (h : IsWord name) :
    Shows ["extern " ++ name] [] [] [] [name] := by
  have hline : OneLine ("extern " ++ name) := oneLine_append.mpr ⟨by decide, h.plain.oneLine⟩
  have htext : ("extern " ++ name).toList = "extern ".toList ++ name.toList := String.toList_append
  -- a word does not end in a colon, so this is no label
  have hlabel : label? ("extern ".toList ++ name.toList) = none := by
    rw [label?, if_neg]
    rintro ⟨-, hlast⟩
    rcases List.mem_append.mp (List.mem_of_getLast? hlast) with hmem | hmem
    · exact absurd hmem (by decide)
    · exact absurd (h.isWordChar ':' hmem) (by decide)
  have hexternal : external? ("extern ".toList ++ name.toList) = some (.ofList name.toList) := rfl
  have hsingle := Shows.single hline
  rw [htext, hlabel, hexternal, String.ofList_toList] at hsingle
  exact hsingle

/-- What a text of the dialect has to declare. -/
def declared (d : Dialect) (names : List String) : List String :=
  if d = .nasm then names else []

/--
The preamble declares the procedures of the host, in the dialect that wants it, and says nothing
else.
-/
theorem shows_preamble (d : Dialect) {names : List String} (h : ∀ name ∈ names, IsWord name) :
    Shows (d.style.preamble names) [] [] [] (declared d names) := by
  cases d with
  | nasm =>
      have hbits : Shows ["bits 64"] [] [] [] [] := .other (by decide) rfl rfl rfl rfl
      have hglobal : Shows ["global _start"] [] [] [] [] := .other (by decide) rfl rfl rfl rfl
      -- one line for each name; the other dialect has no such lines
      have hdeclared : Shows (names.map ("extern " ++ ·)) [] [] [] names := by
        induction names with
        | nil => exact .nil
        | cons name names ih =>
            obtain ⟨hname, hnames⟩ := List.forall_mem_cons.mp h
            exact (shows_external hname).append (ih hnames)
      exact (hbits.append hglobal).append hdeclared
  | gas =>
      have hcode : Shows ["\t.code64"] [] [] [] [] := .other (by decide) rfl rfl rfl rfl
      have hglobal : Shows ["\t.globl _start"] [] [] [] [] := .other (by decide) rfl rfl rfl rfl
      exact hcode.append hglobal

/-! ## Programs -/

section

variable {p : Program} (hwords : ∀ s ∈ p.statements, ∀ name ∈ s.value.names, IsWord name)

include hwords

/-- The procedures that a program calls have words as names if the names in it are words. -/
theorem isWord_callee {sym : Symbol} (h : sym ∈ p.callees) : IsWord sym.name := by
  rcases List.mem_append.mp h with h | h
  · obtain ⟨s, hs, h⟩ := List.mem_flatMap.mp h
    obtain ⟨s', hs', rfl⟩ := List.mem_map.mp hs
    exact Statement.isWord_symbol (hwords s' hs') 0 (.inr (.inr h))
  · rw [List.mem_singleton.mp h]
    exact Symbol.isWord_exitProcedure

variable {mode : Addressing} {l : Listing} (h : p.lower mode = .ok l)

include h

/--
The lines of a program show its symbols: what the header has, then those of every block in turn, and
those of the exit.
-/
theorem shows_lines (d : Dialect) (annotate : Bool) :
    Shows (d.style.lines annotate l) (p.symbols.map Symbol.name) (p.targets.map Symbol.name)
      (p.callees.map Symbol.name) (declared d p.externals) := by
  have hexternals : ∀ name ∈ p.externals, IsWord name := fun name hname =>
    isWord_callee hwords (Program.mem_externals_iff.mp hname)
  have htitle : Shows [d.style.comment ++ " KAIR program, Windows x64 ABI"] [] [] [] [] := by
    cases d <;> exact .other (by decide) rfl rfl rfl rfl
  have hsection : Shows ["", d.style.codeSection] [] [] [] [] := by
    have hblank : Shows [""] [] [] [] [] := .other (by decide) rfl rfl rfl rfl
    cases d <;> exact hblank.append (.other (by decide) rfl rfl rfl rfl)
  have hentry : Shows [d.style.line (.label .entry)] [Symbol.entry.name] [] [] [] :=
    shows_label rfl (Symbol.isWord_fixed (by decide))
  have hexit : Shows (l.exit.map d.style.line) [Symbol.finish.name] []
      [(Symbol.host exitProcedure).name] [] := by
    refine shows_code d (Program.exit_mentions h) fun s hs => ?_
    rcases hs with hs | hs | hs
    · exact Symbol.isWord_fixed (List.mem_singleton.mp hs ▸ by decide)
    · cases hs
    · exact List.mem_singleton.mp hs ▸ Symbol.isWord_exitProcedure
  -- the lines of the text, put together as they are in it
  have hheader := (htitle.append (shows_preamble d hexternals)).append
    ((shows_region d .data l.data).append (shows_region d .const l.const))
  have hcode := (hsection.append hentry).append
    ((shows_blocks d annotate (Program.lower_eq_ok h).1 hwords).append hexit)
  have hall := hheader.append hcode
  rw [← Program.lower_externals h] at hall ⊢
  simpa [Style.lines, Program.symbols, Program.targets, Program.callees] using hall

/-- The text of a program falls apart into the lines that it was put together from. -/
theorem lines_text (d : Dialect) (annotate : Bool) :
    lines (d.style.text annotate l) = d.style.lines annotate l := by
  rw [lines, Style.text, lines_join (shows_lines hwords h d annotate).oneLine, List.map_map]
  exact List.map_id'' (fun _ => String.ofList_toList) _

/-- The lines of the block with an index show the symbols of the statement with it. -/
theorem shows_getElem? (d : Dialect) (annotate : Bool) {i : Nat} {s : Statement}
    (hs : (p.statements.map Located.value)[i]? = some s) :
    ∃ b fresh, l.blocks[i]? = some b ∧ Shows (d.style.block annotate b)
      ((s.definitions fresh).map Symbol.name) ((s.jumps fresh).map Symbol.name)
      (s.calls.map Symbol.name) [] := by
  obtain ⟨hblocks, -⟩ := Program.lower_eq_ok h
  have hstatements := (Program.lowerStatements_moves hblocks).1
  rw [List.getElem?_map] at hs
  obtain ⟨s', hs', rfl⟩ := Option.map_eq_some_iff.mp hs
  obtain ⟨b, hb, hcode⟩ := Program.lowerStatements_getElem? hblocks hs'
  -- the block is that of the statement, up to the line that it was read from
  have hstatement : s'.value = b.statement := by
    have hget := congrArg (fun ss => ss[i]?) hstatements
    rw [List.getElem?_map, List.getElem?_map, hb, hs'] at hget
    exact (Option.some.inj hget).symm
  have hnames := hwords s' (List.mem_of_getElem? hs')
  rw [hstatement] at hcode hnames ⊢
  exact ⟨b, _, hb, shows_block d annotate hcode hnames⟩

end

end Output

/-! ## Resolution -/

namespace Program

open Grammar

/-- No two symbols of a program have the same text, as long as the numbered ones fit the counter. -/
theorem nodup_names {p : Program} (h : LabelsResolve (p.statements.map Located.value))
    (hnumbers : labelCount p.statements < 2 ^ 32) : (p.symbols.map Symbol.name).Nodup :=
  (nodup_symbols h hnumbers).map_on fun _ hs _ hs' =>
    Symbol.name_inj (isHost_of_mem_symbols hs) (isHost_of_mem_symbols hs')

/--
The procedures that a program declares are the texts of what it calls. The exit is one of the calls,
so its procedure is always among them.
-/
theorem mem_externals_iff_name {p : Program} {name : String} :
    name ∈ p.externals ↔ name ∈ p.callees.map Symbol.name := by
  -- only procedures of the host are called
  have hhost : ∀ sym ∈ p.callees, ∃ name, sym = .host name := by
    intro sym hsym
    rcases List.mem_append.mp hsym with hsym | hsym
    · obtain ⟨s, -, hsym⟩ := List.mem_flatMap.mp hsym
      obtain ⟨name, -, rfl⟩ := List.mem_map.mp hsym
      exact ⟨name, rfl⟩
    · exact ⟨exitProcedure, List.mem_singleton.mp hsym⟩
  rw [mem_externals_iff, List.mem_map]
  constructor
  · intro hmem
    exact ⟨_, hmem, rfl⟩
  · rintro ⟨sym, hsym, rfl⟩
    obtain ⟨name, rfl⟩ := hhost sym hsym
    exact hsym

end Program

/--
A label is one statement only. Since no two labels of a program have one name, the statement that a
jump leads to is determined by its name.
-/
theorem Grammar.LabelsResolve.index_inj {ss : List Statement} (h : LabelsResolve ss) {i j : Nat}
    {name : String} (hi : ss[i]? = some (.label name)) (hj : ss[j]? = some (.label name)) :
    i = j := by
  -- of two places one is the first, and the second would define the label again
  have hapart : ∀ {i j : Nat}, i < j → ss[i]? = some (.label name) →
      ss[j]? ≠ some (.label name) := by
    intro i j hlt hi hj
    obtain ⟨hilt, hi⟩ := List.getElem?_eq_some_iff.mp hi
    obtain ⟨hjlt, hj⟩ := List.getElem?_eq_some_iff.mp hj
    have hne := List.pairwise_iff_getElem.mp (List.pairwise_filterMap.mp h.unique) i j hilt hjlt hlt
    rw [hi, hj] at hne
    exact hne name rfl name rfl rfl
  rcases Nat.lt_trichotomy i j with hlt | heq | hlt
  · exact absurd hj (hapart hlt hi)
  · exact heq
  · exact absurd hi (hapart hlt hj)

/--
A source is compiled exactly if it is parsed and its program lowered, and then into the text of the
listing.
-/
theorem Source.compile_eq_ok_iff {src : Source} {t : Target} {text : String} :
    src.compile t = .ok text ↔ ∃ p l, src.parse = .ok p ∧ p.lower t.addressing = .ok l ∧
      t.dialect.style.text t.annotate l = text := by
  unfold compile assemble Program.assemble
  cases src.parse with
  | error e => simp [bind, Except.bind]
  | ok p => cases h : p.lower t.addressing <;> simp [bind, Except.bind, pure, Except.pure, h]

theorem Source.isWord_of_parse {src : Source} {p : Program} (h : src.parse = .ok p) :
    ∀ s ∈ p.statements, ∀ name ∈ s.value.names, IsWord name := fun _ hs name hname =>
  ((Source.statementOf_of_parse h (List.mem_map_of_mem hs)).2 name hname).word

/--
A program that was parsed can always be lowered: what the lowering asks of expressions, the parser
has seen to.
-/
theorem Source.exists_lower {src : Source} {p : Program} (h : src.parse = .ok p)
    (mode : Addressing) : ∃ l, p.lower mode = .ok l := by
  obtain ⟨tokens, -, htokens⟩ := parse_eq_ok h
  exact isOk_iff.mp (Program.ofTokens_lower_isOk htokens mode)

theorem Source.exists_compile {src : Source} {p : Program} (h : src.parse = .ok p) (t : Target) :
    ∃ text, src.compile t = .ok text := by
  obtain ⟨l, hlower⟩ := exists_lower h t.addressing
  exact ⟨_, compile_eq_ok_iff.mpr ⟨p, l, h, hlower, rfl⟩⟩

namespace Output

/--
A jump leads from the statement with one index to the statement with another: that is the label, no
other statement is, and the code of either shows its symbol.
-/
structure Links (t : Target) (p : Program) (l : Listing) (name : String) (i j : Nat) : Prop where
  unique : ∀ k, (p.statements.map Located.value)[k]? = some (.label name) ↔ k = j
  jump : ∃ b, l.blocks[i]? = some b ∧
    jumps (t.dialect.style.block t.annotate b) = [(Symbol.label name).name]
  label : ∃ b, l.blocks[j]? = some b ∧
    labels (t.dialect.style.block t.annotate b) = [(Symbol.label name).name]

/--
A jump to a label leads to the block of the statement that defines it, of which there is exactly
one.
-/
theorem links_of_jump {t : Target} {p : Program} {l : Listing}
    (hwords : ∀ s ∈ p.statements, ∀ name ∈ s.value.names, IsWord name)
    (h : p.lower t.addressing = .ok l)
    (hlabels : Grammar.LabelsResolve (p.statements.map Located.value)) {i : Nat} {s : Statement}
    {name : String} (hs : (p.statements.map Located.value)[i]? = some s)
    (hjump : s.jump? = some (.label name)) : ∃ j, Links t p l name i j := by
  obtain ⟨j, hj⟩ := List.mem_iff_getElem?.mp
    (hlabels.defined s (List.mem_of_getElem? hs) name hjump)
  refine ⟨j, fun k => ⟨fun hk => hlabels.index_inj hk hj, fun hk => hk ▸ hj⟩, ?_, ?_⟩
  · obtain ⟨b, fresh, hb, hshows⟩ := shows_getElem? hwords h t.dialect t.annotate hs
    -- a statement that jumps to a label has this one jump
    have hown : s.jumps fresh = [.label name] := by
      cases s <;> cases hjump <;> rfl
    rw [hown] at hshows
    exact ⟨b, hb, hshows.jumps⟩
  · obtain ⟨b, fresh, hb, hshows⟩ := shows_getElem? hwords h t.dialect t.annotate hj
    exact ⟨b, hb, hshows.labels⟩

/--
**Symbols resolve.** The symbols in the text that a source is compiled to are those of its program.
If the generated labels fit their counter of 32 bits, no symbol is defined twice, and what is jumped
to is defined by one line. In NASM, the procedures that are declared are those that are called, each
once. Each jump to a label leads from the code of its statement to the code of the statement that is
the label.
-/
theorem compile_resolves {src : Source} {t : Target} {text : String}
    (h : src.compile t = .ok text) :
    (t.dialect = .nasm → (externals (lines text)).Nodup ∧
      ∀ s, s ∈ externals (lines text) ↔ s ∈ calls (lines text)) ∧
    ∃ p l, src.parse = .ok p ∧ p.lower t.addressing = .ok l ∧
      lines text = t.dialect.style.lines t.annotate l ∧
      Shows (lines text) (p.symbols.map Symbol.name) (p.targets.map Symbol.name)
        (p.callees.map Symbol.name) (declared t.dialect p.externals) ∧
      (labelCount p.statements < 2 ^ 32 → (labels (lines text)).Nodup ∧
        ∀ s ∈ jumps (lines text), (labels (lines text)).count s = 1) ∧
      ∀ i s name, (p.statements.map Located.value)[i]? = some s → s.jump? = some (.label name) →
        ∃ j, Links t p l name i j := by
  obtain ⟨p, l, hparse, hlower, rfl⟩ := Source.compile_eq_ok_iff.mp h
  have hlabels := Source.labelsResolve_of_parse hparse
  have hwords : ∀ s ∈ p.statements, ∀ name ∈ s.value.names, IsWord name := fun s hs name hname =>
    ((Source.statementOf_of_parse hparse (List.mem_map_of_mem hs)).2 name hname).word
  have hlines := lines_text hwords hlower t.dialect t.annotate
  have hshows := shows_lines hwords hlower t.dialect t.annotate
  rw [hlines, hshows.labels, hshows.jumps, hshows.calls, hshows.externals]
  refine ⟨fun hd => ?_, p, l, hparse, hlower, rfl, hshows, fun hnumbers => ?_,
    fun i s name hs hjump => links_of_jump hwords hlower hlabels hs hjump⟩
  · rw [declared, if_pos hd]
    exact ⟨p.nodup_externals, fun s => Program.mem_externals_iff_name⟩
  · -- each symbol is defined once, and every target is among those that are
    have hnodup := Program.nodup_names hlabels hnumbers
    refine ⟨hnodup, fun s hs => ?_⟩
    obtain ⟨sym, hsym, rfl⟩ := List.mem_map.mp hs
    exact List.count_eq_one_of_mem hnodup
      (List.mem_map_of_mem (Program.mem_symbols_of_mem_targets hlabels hsym))

/-- A label with the look of a generated one, a choice that takes two of these, and a call. -/
theorem compile_resolves_choice :
    let src := Source.ofText "#G0\ns[0] = (sp == 1) ? 2 : 3\nsyscall Beep\ngoto G0"
    let t : Target := ⟨.nasm, .relative, true⟩
    ∃ text p l, src.compile t = .ok text ∧ src.parse = .ok p ∧ p.lower t.addressing = .ok l ∧
      labels (lines text) = ["kair_data", "kair_const", "_start", "kair_L_G0", "kair_G0", "kair_G1",
        "kair_end"] ∧
      (labels (lines text)).Nodup ∧
      (∀ s ∈ jumps (lines text), (labels (lines text)).count s = 1) ∧
      (externals (lines text)).Nodup ∧ (∀ s, s ∈ externals (lines text) ↔ s ∈ calls (lines text)) ∧
      Links t p l "G0" 3 0 := by
  intro src t
  have hpassed : passed 100 (Text.stream "#G0\ns[0] = (sp == 1) ? 2 : 3\nsyscall Beep\ngoto G0") =
      some [.hash, .id "G0", .newline, .id "s", .openSquare, .number 0, .closeSquare, .assign,
        .openParen, .keyword .sp, .compare .eq, .number 1, .closeParen, .question, .number 2,
        .colon, .number 3, .newline, .keyword .syscall, .id "Beep", .newline, .keyword .goto,
        .id "G0", .newline] := by decide +kernel
  have hparsed : ∃ p, src.parse = .ok p ∧ p.data.map Located.value = [] ∧
      p.statements.map Located.value =
        [.label "G0",
          .select (.slot ⟨.stack, 0⟩) ⟨.sp, .eq, .number 1 false⟩ (.number 2 false)
            (.number 3 false),
          .syscall "Beep" [] none, .goto (.label "G0")] :=
    Source.parse_of_passed hpassed (by decide +kernel) (by decide +kernel)
  obtain ⟨p, hparse, -, hss⟩ := hparsed
  obtain ⟨tokens, -, htokens⟩ := Source.parse_eq_ok hparse
  obtain ⟨l, hlower⟩ := isOk_iff.mp (Program.ofTokens_lower_isOk htokens t.addressing)
  have hcompile := Source.compile_eq_ok_iff.mpr ⟨p, l, hparse, hlower, rfl⟩
  obtain ⟨hdeclared, p', l', hparse', hlower', -, hshows, hresolves, hlinks⟩ :=
    compile_resolves hcompile
  cases hparse.symm.trans hparse'
  cases hlower.symm.trans hlower'
  have hnumbers : labelCount p.statements < 2 ^ 32 := by
    rw [labelCount_eq_sum, hss]
    decide
  obtain ⟨hnodup, hjumps⟩ := hresolves hnumbers
  obtain ⟨j, hlink⟩ := hlinks 3 _ "G0" (by rw [hss]; rfl) rfl
  -- the label of the first statement is where the jump of the last one leads
  have hj : 0 = j := (hlink.unique 0).mp (by rw [hss]; rfl)
  rw [← hj] at hlink
  refine ⟨_, p, l, hcompile, hparse, hlower, ?_, hnodup, hjumps, (hdeclared rfl).1,
    (hdeclared rfl).2, hlink⟩
  rw [hshows.labels, Program.symbols, hss]
  decide +kernel

end Output

end Quadword
