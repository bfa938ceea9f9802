import Quadword.Proofs.Assembly.Gas
import Quadword.Proofs.Assembly.Nasm
import Quadword.Proofs.Assembly.Output

/-!
# Texts say what listings say

A text without comments can be read back: the empty lines in it part the regions from each other and
from the code, and each line of these is read on its own. So a text of either assembler determines
the chunks of the regions and the code, and these determine the text of the other one. The
declarations for NASM add nothing, as they follow from the calls.

* **`Output.readLine_line`**: a line of code is read back.
* **`Output.read_text`**: so is a whole text.
* **`Output.compile_faithful`**: texts for the two assemblers distinguish the same sources.
-/

namespace Quadword

open Text Lexical

namespace Output

/-! ## Lines -/

def readInLine : Dialect → List Char → List (List Char) → Option Instruction
  | .nasm => Nasm.readInLine
  | .gas => Gas.readInLine

def readChunk : Dialect → List Char → Option Chunk
  | .nasm => Nasm.readChunk
  | .gas => Gas.readChunk

/-- A line of code: an instruction if it is indented, and else a label. -/
def readLine (d : Dialect) (line : List Char) : Option Line :=
  if line.head? = some '\t' then (readInstruction (readInLine d) line).map .instruction
  else (Symbol.ofText? line.dropLast).map .label

theorem readChunk_chunk (d : Dialect) (c : Chunk) :
    readChunk d (d.style.chunk c).toList = some c := by
  cases d with
  | nasm => exact Nasm.readChunk_chunk c
  | gas => exact Gas.readChunk_chunk c

theorem head?_instructionText (mnemonic : String) (operands : List String) :
    (instructionText mnemonic operands).toList.head? = some '\t' := by
  unfold instructionText
  split
  · rw [String.toList_append]
    rfl
  · rw [String.append_assoc, String.toList_append]
    rfl

/-- A line is read as its instruction is, if that can be read back. -/
theorem readLine_instruction {d : Dialect} {i : Instruction}
    (h : readInstruction (readInLine d) (d.style.instruction i).toList = some i) :
    readLine d (d.style.line (.instruction i)).toList = some (.instruction i) := by
  have hhead : (d.style.instruction i).toList.head? = some '\t' := by
    cases d <;> exact head?_instructionText _ _
  show readLine d (d.style.instruction i).toList = _
  rw [readLine, if_pos hhead, h]
  rfl

/--
A jump or a call is read back with the symbol that it leads to. Whether this is one of the host
depends on which of the two it is.
-/
theorem readLine_transfer (d : Dialect) {op : Opcode} {s : Symbol} (hop : op.transfers = true)
    (hs : s.isHost = decide (op = .call)) (hword : IsWord s.name) :
    readLine d (d.style.line (.instruction (jump op s))).toList =
      some (.instruction (jump op s)) := by
  have htext : d.style.instruction (jump op s) = instructionText op.mnemonic [s.name] := by
    cases d <;> cases op <;> first | rfl | cases hop
  refine readLine_instruction ?_
  rw [htext]
  exact readInstruction_transfer hop hs hword _

/--
A line of code is read back. A label is not indented and so is not taken for an instruction, and
among instructions the operands settle what the mnemonic leaves open.
-/
theorem readLine_line (d : Dialect) {line : Line} (h : line.Shaped)
    (hformed : ∀ i, line = .instruction i → i.Formed)
    (hwords : ∀ s, line.jump? = some s ∨ line.call? = some s → IsWord s.name) :
    readLine d (d.style.line line).toList = some line := by
  cases h with
  | @label s hs =>
      -- no label is indented, so the line is not read as an instruction
      have hhead : (s.name.toList ++ [':']).head? ≠ some '\t' := by
        rw [List.head?_append]
        rcases Symbol.head?_name hs with hhead | hhead <;> simp [hhead]
      show readLine d (s.name ++ ":").toList = _
      rw [String.toList_append]
      show readLine d (s.name.toList ++ [':']) = _
      rw [readLine, if_neg hhead, List.dropLast_concat, Symbol.ofText?_name hs]
      rfl
  | @inLine i hi =>
      refine readLine_instruction ?_
      cases d with
      | nasm => exact Nasm.readInstruction_instruction (hformed i rfl) hi
      | gas => exact Gas.readInstruction_instruction (hformed i rfl) hi
  | jmp hs => exact readLine_transfer d rfl hs (hwords _ (.inl rfl))
  | j c hs => exact readLine_transfer d rfl hs (hwords _ (.inl rfl))
  | call name => exact readLine_transfer d rfl rfl (hwords _ (.inr rfl))

/-! ## Texts -/

/-- The regions and the code of a text without comments. -/
def read (d : Dialect) (text : String) : Option (List Chunk × List Chunk × List Line) :=
  match (lines text).splitOn "" with
  | [_, data, const, code] =>
    some ((data.drop 3).filterMap fun line => readChunk d line.toList,
      (const.drop 3).filterMap fun line => readChunk d line.toList,
      (code.drop 1).filterMap fun line => readLine d line.toList)
  | _ => none

/-- The lines of a region after the empty one. -/
def regionLines (style : Style) (r : Region) (chunks : List Chunk) : List String :=
  [style.regionSection r, style.align 8, style.line (.label (.region r))] ++ chunks.map style.chunk

/-- A listing without comments, as parts between empty lines. -/
theorem lines_eq (style : Style) (l : Listing) : style.lines false l =
    ((style.comment ++ " KAIR program, Windows x64 ABI") :: style.preamble l.externals) ++
      "" :: (regionLines style .data l.data ++
        "" :: (regionLines style .const l.const ++
          "" :: (style.codeSection :: l.code.map style.line))) := by
  have hblocks : l.blocks.flatMap (style.block false) =
      (l.blocks.flatMap Block.code).map style.line := by
    rw [List.map_flatMap]
    rfl
  simp [Style.lines, Style.region, regionLines, hblocks, Listing.code]

/-- A text that a reader takes is not empty if the reader does not take that. -/
theorem ne_empty_of_read {α : Type} {f : List Char → Option α} {text : String} {a : α}
    (hempty : f [] = none) (h : f text.toList = some a) : (text == "") = false := by
  rw [beq_eq_false_iff_ne]
  rintro rfl
  cases hempty.symm.trans h

/-- No line of the preamble is empty, so the first empty line is where the regions start. -/
theorem preamble_ne_empty (d : Dialect) (names : List String) :
    ∀ line ∈ (d.style.comment ++ " KAIR program, Windows x64 ABI") :: d.style.preamble names,
      (line == "") = false := by
  cases d with
  | nasm =>
      have hfixed : ∀ line ∈ ["; KAIR program, Windows x64 ABI", "bits 64", "global _start"],
          (line == "") = false := by decide
      -- only this dialect has lines that depend on the program, and those start with a word
      have hnames : ∀ line ∈ names.map ("extern " ++ ·), (line == "") = false := by
        intro line hline
        obtain ⟨name, -, rfl⟩ := List.mem_map.mp hline
        simp
      exact List.forall_mem_append.mpr ⟨hfixed, hnames⟩
  | gas =>
      have hfixed : ∀ line ∈ ["# KAIR program, Windows x64 ABI", "\t.code64", "\t.globl _start"],
          (line == "") = false := by decide
      exact hfixed

/-- No line of a region is empty, so a region ends at the next empty line. -/
theorem regionLines_ne_empty (d : Dialect) (r : Region) (chunks : List Chunk) :
    ∀ line ∈ regionLines d.style r chunks, (line == "") = false := by
  refine List.forall_mem_append.mpr ⟨?_, fun line hline => ?_⟩
  · cases d <;> cases r <;> decide
  · obtain ⟨c, -, rfl⟩ := List.mem_map.mp hline
    exact ne_empty_of_read (by cases d <;> rfl) (readChunk_chunk d c)

/-- The values of a region are read back from its lines, behind the three that it starts with. -/
theorem read_regionLines (d : Dialect) (r : Region) (chunks : List Chunk) :
    ((regionLines d.style r chunks).drop 3).filterMap (fun line => readChunk d line.toList) =
      chunks := by
  show (chunks.map d.style.chunk).filterMap _ = chunks
  exact filterMap_read fun c _ => readChunk_chunk d c

/-- The symbols that statements jump to are words if the names in the statements are. -/
theorem isWord_jump {ss : List Statement} (hwords : ∀ s ∈ ss, ∀ name ∈ s.names, IsWord name)
    {fresh : Nat} {sym : Symbol} (h : sym ∈ Quadword.jumps fresh ss) : IsWord sym.name := by
  induction ss generalizing fresh with
  | nil => cases h
  | cons s ss ih =>
      obtain ⟨hs, hss⟩ := List.forall_mem_cons.mp hwords
      rcases List.mem_append.mp h with h | h
      · exact Statement.isWord_symbol hs fresh (.inr (.inl h))
      · exact ih hss h

section

variable {p : Program} (hwords : ∀ s ∈ p.statements, ∀ name ∈ s.value.names, IsWord name)
  {mode : Addressing} {l : Listing} (h : p.lower mode = .ok l)

include hwords h

/-- Every line of the code of a program is read back. -/
theorem readLine_code (d : Dialect) :
    ∀ line ∈ l.code, readLine d (d.style.line line).toList = some line := by
  intro line hline
  obtain ⟨-, hjumps, hcalls, hshaped⟩ := Program.lower_mentions h
  refine readLine_line d (hshaped line hline) (fun i hi => ?_) fun s hs => ?_
  · exact Program.lower_formed h (hi ▸ hline)
  · rcases hs with hs | hs
    · have hmem : s ∈ p.targets := hjumps ▸ List.mem_filterMap.mpr ⟨line, hline, hs⟩
      exact isWord_jump (List.forall_mem_map.mpr hwords) hmem
    · exact isWord_callee hwords (hcalls ▸ List.mem_filterMap.mpr ⟨line, hline, hs⟩)

/--
The text of a program without comments is read back: the values of both regions and all lines of
the code. This is what makes the text tell programs apart.
-/
theorem read_text (d : Dialect) :
    read d (d.style.text false l) = some (l.data, l.const, l.code) := by
  have hcode := readLine_code hwords h d
  have hlines : ∀ line ∈ d.style.codeSection :: l.code.map d.style.line, (line == "") = false := by
    refine List.forall_mem_cons.mpr ⟨by cases d <;> decide, List.forall_mem_map.mpr ?_⟩
    intro line hline
    exact ne_empty_of_read rfl (hcode line hline)
  have hread : (l.code.map d.style.line).filterMap (fun line => readLine d line.toList) =
      l.code := filterMap_read hcode
  -- empty lines stand in front of the regions and the code, and nowhere else
  rw [read, lines_text hwords h d false, lines_eq, List.splitOn,
    List.splitOnP_append_cons_of_forall_mem (preamble_ne_empty d l.externals) "" rfl,
    List.splitOnP_append_cons_of_forall_mem (regionLines_ne_empty d .data l.data) "" rfl,
    List.splitOnP_append_cons_of_forall_mem (regionLines_ne_empty d .const l.const) "" rfl,
    List.splitOnP_eq_singleton hlines]
  show some (_, _, (l.code.map d.style.line).filterMap _) = _
  rw [read_regionLines, read_regionLines, hread]

end

/-! ## Sources -/

section

variable {p p' : Program} {mode : Addressing} {l l' : Listing}

/-- Programs with the same code call the same procedures, so they declare the same ones. -/
theorem externals_eq_of_code_eq (h : p.lower mode = .ok l) (h' : p'.lower mode = .ok l')
    (hcode : l.code = l'.code) : l.externals = l'.externals := by
  have hcallees : p.callees = p'.callees := by
    rw [← (Program.lower_mentions h).calls, hcode, (Program.lower_mentions h').calls]
  have hperm : p.externals.Perm p'.externals := by
    refine (List.perm_ext_iff_of_nodup p.nodup_externals p'.nodup_externals).mpr fun name => ?_
    rw [Program.mem_externals_iff, Program.mem_externals_iff, hcallees]
  rw [Program.lower_externals h, Program.lower_externals h']
  refine hperm.eq_of_pairwise (fun a b _ _ hlt hgt => ?_) p.pairwise_externals p'.pairwise_externals
  exact absurd (String.lt_trans hlt hgt) (String.lt_irrefl a)

/-- Texts without comments are the same exactly if the regions and the code are. -/
theorem text_eq_iff (hwords : ∀ s ∈ p.statements, ∀ name ∈ s.value.names, IsWord name)
    (hwords' : ∀ s ∈ p'.statements, ∀ name ∈ s.value.names, IsWord name)
    (h : p.lower mode = .ok l) (h' : p'.lower mode = .ok l') (d : Dialect) :
    d.style.text false l = d.style.text false l' ↔
      l.data = l'.data ∧ l.const = l'.const ∧ l.code = l'.code := by
  constructor
  · intro htext
    have hread := read_text hwords h d
    rw [htext, read_text hwords' h' d, Option.some.injEq, Prod.mk.injEq, Prod.mk.injEq] at hread
    exact ⟨hread.1.symm, hread.2.1.symm, hread.2.2.symm⟩
  · -- conversely, the code tells which procedures are declared
    rintro ⟨hdata, hconst, hcode⟩
    rw [Style.text, Style.text, lines_eq, lines_eq, hdata, hconst, hcode,
      externals_eq_of_code_eq h h' hcode]

end

/--
**Both assemblers are told the same.** For two sources that are accepted, one way to reach the
regions and no comments, the texts for NASM are equal exactly if those for the GNU assembler are. In
either of them, equal texts come from equal chunks of the regions and the same code, line by line.
-/
theorem compile_faithful {src src' : Source} {t t' : Target} {text text' : String}
    (h : src.compile t = .ok text) (h' : src'.compile t' = .ok text') (mode : Addressing) :
    ∃ p p' l l', src.parse = .ok p ∧ src'.parse = .ok p' ∧
      p.lower mode = .ok l ∧ p'.lower mode = .ok l' ∧
      (∀ d : Dialect, src.compile ⟨d, mode, false⟩ = .ok (d.style.text false l) ∧
        src'.compile ⟨d, mode, false⟩ = .ok (d.style.text false l')) ∧
      (src.compile ⟨.nasm, mode, false⟩ = src'.compile ⟨.nasm, mode, false⟩ ↔
        src.compile ⟨.gas, mode, false⟩ = src'.compile ⟨.gas, mode, false⟩) ∧
      ∀ d : Dialect, src.compile ⟨d, mode, false⟩ = src'.compile ⟨d, mode, false⟩ ↔
        l.data = l'.data ∧ l.const = l'.const ∧ l.code = l'.code := by
  obtain ⟨p, -, hparse, -, -⟩ := Source.compile_eq_ok_iff.mp h
  obtain ⟨p', -, hparse', -, -⟩ := Source.compile_eq_ok_iff.mp h'
  obtain ⟨l, hlower⟩ := Source.exists_lower hparse mode
  obtain ⟨l', hlower'⟩ := Source.exists_lower hparse' mode
  have htexts : ∀ d : Dialect, src.compile ⟨d, mode, false⟩ = .ok (d.style.text false l) ∧
      src'.compile ⟨d, mode, false⟩ = .ok (d.style.text false l') := fun d =>
    ⟨Source.compile_eq_ok_iff.mpr ⟨p, l, hparse, hlower, rfl⟩,
      Source.compile_eq_ok_iff.mpr ⟨p', l', hparse', hlower', rfl⟩⟩
  -- both dialects are told apart by the same three things, and so by each other
  have hiff : ∀ d : Dialect, src.compile ⟨d, mode, false⟩ = src'.compile ⟨d, mode, false⟩ ↔
      l.data = l'.data ∧ l.const = l'.const ∧ l.code = l'.code := by
    intro d
    rw [(htexts d).1, (htexts d).2, Except.ok.injEq]
    exact text_eq_iff (Source.isWord_of_parse hparse) (Source.isWord_of_parse hparse') hlower
      hlower' d
  exact ⟨p, p', l, l', hparse, hparse', hlower, hlower', htexts,
    (hiff .nasm).trans (hiff .gas).symm, hiff⟩

/-- Two sources with the same code, which only their texts with comments would tell apart. -/
theorem compile_faithful_pass :
    let src := Source.ofText "pass * 2"
    let src' := Source.ofText "pass\npass"
    ∃ p p', src.parse = .ok p ∧ src'.parse = .ok p' ∧
      p.statements.map Located.value ≠ p'.statements.map Located.value ∧
      ∀ d : Dialect, src.compile ⟨d, .relative, false⟩ = src'.compile ⟨d, .relative, false⟩ := by
  intro src src'
  have hpassed : passed 100 (Text.stream "pass * 2") =
      some [.keyword .pass, .binary .mul, .number 2, .newline] := by decide +kernel
  have hpassed' : passed 100 (Text.stream "pass\npass") =
      some [.keyword .pass, .newline, .keyword .pass, .newline] := by decide +kernel
  have hparsed : ∃ p, src.parse = .ok p ∧ p.data.map Located.value = [] ∧
      p.statements.map Located.value = [.pass 2] :=
    Source.parse_of_passed hpassed (by decide +kernel) (by decide +kernel)
  have hparsed' : ∃ p, src'.parse = .ok p ∧ p.data.map Located.value = [] ∧
      p.statements.map Located.value = [.pass 1, .pass 1] :=
    Source.parse_of_passed hpassed' (by decide +kernel) (by decide +kernel)
  obtain ⟨p, hparse, hdata, hss⟩ := hparsed
  obtain ⟨p', hparse', hdata', hss'⟩ := hparsed'
  obtain ⟨text, hcompile⟩ := Source.exists_compile hparse {}
  obtain ⟨text', hcompile'⟩ := Source.exists_compile hparse' {}
  obtain ⟨q, q', l, l', hq, hq', hlower, hlower', -, -, hiff⟩ :=
    compile_faithful hcompile hcompile' .relative
  cases hparse.symm.trans hq
  cases hparse'.symm.trans hq'
  refine ⟨p, p', hparse, hparse', by rw [hss, hss']; decide, fun d => (hiff d).mpr ?_⟩
  obtain ⟨hblocks, exit, hexit, hend⟩ := Program.lower_eq_ok hlower
  obtain ⟨hblocks', exit', hexit', hend'⟩ := Program.lower_eq_ok hlower'
  cases hexit.symm.trans hexit'
  -- without initial values, a region is eight zeros
  have hlayout : ∀ {p : Program}, p.data.map Located.value = [] →
      ∀ r, p.layout r = .ok [.zero 8] := by
    intro p hdata r
    rw [Program.layout, Program.initializers, hdata]
    rfl
  have hregions := fun r => (Program.layout_of_lower hlower r).symm.trans (hlayout hdata r)
  have hregions' := fun r => (Program.layout_of_lower hlower' r).symm.trans (hlayout hdata' r)
  refine ⟨?_, ?_, ?_⟩
  · exact Except.ok.inj ((hregions .data).trans (hregions' .data).symm)
  · exact Except.ok.inj ((hregions .const).trans (hregions' .const).symm)
  · -- two instructions in one block, or one in each of two
    obtain ⟨⟨_, span⟩, hs, rfl⟩ := List.map_eq_singleton_iff.mp hss
    obtain ⟨⟨_, span₁⟩, ss, hs₁, rfl, hmore⟩ := List.map_eq_cons_iff.mp hss'
    obtain ⟨⟨_, span₂⟩, rfl, rfl⟩ := List.map_eq_singleton_iff.mp hmore
    rw [hs] at hblocks
    rw [hs₁] at hblocks'
    rw [Listing.code, Listing.code, ← Except.ok.inj hblocks, ← Except.ok.inj hblocks', hend, hend']
    rfl

end Output

end Quadword
