import Quadword.Assembly.Target
import Quadword.Proofs.Lowering.Symbols
import Quadword.Proofs.Printer.Characters

/-!
# Reading lines of assembly

An assembler reads its input line by line. What matters here of a line is the symbol that it
defines, jumps to, calls or declares, and a few characters tell which of these it does. A line of
code, read this way, says in either assembler what it says in a listing.

* **`Text.lines_join`**: a text that was put together from lines falls apart into them.
* **`Symbol.isWord_name`** and **`Symbol.name_inj`**: a symbol is one word of a text, and no two
  symbols of a program are the same one.
* **`Output.shows_code`**: what the lines of some code say.
-/

namespace Quadword

/-! ## Lines -/

namespace Text

/-- The text stays on one line. -/
def OneLine (text : String) : Prop := '\n' ∉ text.toList ∧ '\r' ∉ text.toList

instance (text : String) : Decidable (OneLine text) :=
  inferInstanceAs (Decidable ('\n' ∉ text.toList ∧ '\r' ∉ text.toList))

/-- Texts that stay on one line do so together. -/
theorem oneLine_append {a b : String} : OneLine (a ++ b) ↔ OneLine a ∧ OneLine b := by
  simp only [OneLine, String.toList_append, List.mem_append, not_or]
  constructor
  · rintro ⟨⟨ha, hb⟩, ha', hb'⟩
    exact ⟨⟨ha, ha'⟩, hb, hb'⟩
  · rintro ⟨⟨ha, ha'⟩, hb, hb'⟩
    exact ⟨⟨ha, hb⟩, ha', hb'⟩

theorem Plain.oneLine {text : String} (h : Plain text) : OneLine text :=
  ⟨h.not_mem (by decide), h.not_mem (by decide)⟩

/--
A line that ends here is the first one. The text after the line break is cut into lines on its own,
so a text of many lines can be taken apart one by one.
-/
theorem lines_append {line rest : List Char} (h : '\n' ∉ line ∧ '\r' ∉ line) :
    lines (line ++ '\n' :: rest) = line :: lines rest := by
  obtain ⟨hfeed, hreturn⟩ := h
  induction line with
  | nil => rfl
  | cons c line ih =>
      rw [List.mem_cons, not_or] at hfeed hreturn
      rw [List.cons_append, lines.eq_4, ih hfeed.2 hreturn.2]
      · rfl
      · rintro rfl
        exact hfeed.1 rfl
      · rintro _ rfl
        exact absurd rfl hreturn.1

/-- A text that was put together from lines falls apart into them. -/
theorem lines_join {ls : List String} (h : ∀ l ∈ ls, OneLine l) :
    lines (String.join (ls.map (· ++ "\n"))).toList = ls.map String.toList := by
  induction ls with
  | nil => rfl
  | cons l ls ih =>
      obtain ⟨hl, hls⟩ := List.forall_mem_cons.mp h
      have htext : (String.join ((l :: ls).map (· ++ "\n"))).toList =
          l.toList ++ '\n' :: (String.join (ls.map (· ++ "\n"))).toList := by
        simp [String.toList_join]
      rw [htext, lines_append hl, ih hls]
      rfl

end Text

open Text Lexical

namespace Output

/-! ## What a line says -/

/-- The symbol that a line defines: what stands before a colon, unless the line is indented. -/
def label? (line : List Char) : Option String :=
  if line.head? ≠ some '\t' ∧ line.getLast? = some ':' then some (.ofList line.dropLast) else none

/-- The symbol that a line jumps to: the operand of an instruction whose name starts with a `j`. -/
def jump? : List Char → Option String
  | '\t' :: 'j' :: cs => some (.ofList ((cs.dropWhile (· ≠ ' ')).dropWhile (· = ' ')))
  | _ => none

/-- The symbol that a line calls. -/
def call? : List Char → Option String
  | '\t' :: 'c' :: 'a' :: 'l' :: 'l' :: cs => some (.ofList (cs.dropWhile (· = ' ')))
  | _ => none

/-- The symbol that a line declares to be defined elsewhere. -/
def external? : List Char → Option String
  | 'e' :: 'x' :: 't' :: 'e' :: 'r' :: 'n' :: ' ' :: name => some (.ofList name)
  | _ => none

/-! ### Lines together -/

def lines (text : String) : List String := (Text.lines text.toList).map .ofList

def labels (ls : List String) : List String := ls.filterMap fun l => label? l.toList

def jumps (ls : List String) : List String := ls.filterMap fun l => jump? l.toList

def calls (ls : List String) : List String := ls.filterMap fun l => call? l.toList

def externals (ls : List String) : List String := ls.filterMap fun l => external? l.toList

/-- The symbols that lines define, jump to, call and declare, each in order. -/
structure Shows (ls : List String) (bs js cs es : List String) : Prop where
  oneLine : ∀ l ∈ ls, OneLine l
  labels : labels ls = bs
  jumps : jumps ls = js
  calls : calls ls = cs
  externals : externals ls = es

namespace Shows

variable {ls ls' : List String} {bs js cs es bs' js' cs' es' : List String}

theorem nil : Shows [] [] [] [] [] := ⟨nofun, rfl, rfl, rfl, rfl⟩

/-- Lines in a row say what each part of them says, one after the other. -/
theorem append (h : Shows ls bs js cs es) (h' : Shows ls' bs' js' cs' es') :
    Shows (ls ++ ls') (bs ++ bs') (js ++ js') (cs ++ cs') (es ++ es') where
  oneLine := List.forall_mem_append.mpr ⟨h.oneLine, h'.oneLine⟩
  labels := by rw [← h.labels, ← h'.labels, Output.labels, List.filterMap_append]; rfl
  jumps := by rw [← h.jumps, ← h'.jumps, Output.jumps, List.filterMap_append]; rfl
  calls := by rw [← h.calls, ← h'.calls, Output.calls, List.filterMap_append]; rfl
  externals := by rw [← h.externals, ← h'.externals, Output.externals, List.filterMap_append]; rfl

/-- A single line says what the four readers find in it. -/
theorem single {l : String} (h : OneLine l) :
    Shows [l] (label? l.toList).toList (jump? l.toList).toList (call? l.toList).toList
      (external? l.toList).toList := by
  have hone : ∀ f : List Char → Option String,
      [l].filterMap (fun l => f l.toList) = (f l.toList).toList := by
    intro f
    cases hf : f l.toList <;> simp [hf]
  exact ⟨List.forall_mem_singleton.mpr h, hone _, hone _, hone _, hone _⟩

theorem other {l : String} (h : OneLine l) (hlabel : label? l.toList = none)
    (hjump : jump? l.toList = none) (hcall : call? l.toList = none)
    (hexternal : external? l.toList = none) : Shows [l] [] [] [] [] := by
  have hsingle := single h
  rw [hlabel, hjump, hcall, hexternal] at hsingle
  exact hsingle

theorem others (h : ∀ l ∈ ls, Shows [l] [] [] [] []) : Shows ls [] [] [] [] := by
  induction ls with
  | nil => exact nil
  | cons l ls ih =>
      obtain ⟨hl, hls⟩ := List.forall_mem_cons.mp h
      exact hl.append (ih hls)

end Shows

theorem label?_indented (cs : List Char) : label? ('\t' :: cs) = none := by
  rw [label?, if_neg]
  simp

end Output

/-! ## Symbols -/

theorem Lexical.IsWord.append {text more : String} (h : IsWord text)
    (hmore : ∀ c ∈ more.toList, Lexical.isWordChar c = true) : IsWord (text ++ more) := by
  obtain ⟨c, cs, htext, hc, hcs⟩ := h
  refine ⟨c, cs ++ more.toList, ?_, hc, List.forall_mem_append.mpr ⟨hcs, hmore⟩⟩
  rw [String.toList_append, htext]
  rfl

/-- The first character of a word is neither white space nor punctuation. -/
theorem Lexical.IsWord.exists_cons {text : String} (h : IsWord text) :
    ∃ c cs, text.toList = c :: cs ∧ 65 ≤ c.toNat := by
  obtain ⟨c, cs, htext, hc, -⟩ := h
  refine ⟨c, cs, htext, ?_⟩
  have := isWordStart_iff.mp hc
  omega

namespace Symbol

/-- The text of a symbol is a word if the names in it are. -/
theorem isWord_name {s : Symbol} (h : ∀ name, s = .label name ∨ s = .host name → IsWord name) :
    IsWord s.name := by
  have hword : ∀ {text : String} {c : Char} {cs : List Char}, text.toList = c :: cs →
      isWordStart c = true → (∀ d ∈ cs, isWordChar d = true) → IsWord text :=
    fun htext hc hcs => ⟨_, _, htext, hc, hcs⟩
  -- generated names go on with characters of words behind a start that is fixed
  cases s with
  | entry => exact hword rfl (by decide) (by decide)
  | finish => exact hword rfl (by decide) (by decide)
  | region r => cases r <;> exact hword rfl (by decide) (by decide)
  | label name =>
      exact (hword rfl (by decide) (by decide) : IsWord "kair_L_").append
        (h name (.inl rfl)).isWordChar
  | generated index =>
      refine (hword rfl (by decide) (by decide) : IsWord "kair_G").append fun c hc => ?_
      exact isWordChar_iff.mpr (.inr (isDigit_toString c hc))
  | host name => exact h name (.inr rfl)

/--
The symbols that every program has are words. There are few of them, and each has a text of its own.
-/
theorem isWord_fixed {s : Symbol} (h : s ∈ Program.fixedSymbols) : IsWord s.name := by
  refine isWord_name fun name hname => ?_
  rcases hname with rfl | rfl <;> simp [Program.fixedSymbols] at h

theorem isWord_exitProcedure : IsWord exitProcedure :=
  ⟨'E', "xitProcess".toList, rfl, by decide, by decide⟩

/-- The symbol of a program that a text stands for; its sixth character tells the kind. -/
def ofText? (text : List Char) : Option Symbol :=
  match text[5]? with
  | some 't' => some .entry
  | some 'e' => some .finish
  | some 'd' => some (.region .data)
  | some 'c' => some (.region .const)
  | some 'L' => some (.label (.ofList (text.drop 7)))
  | some 'G' => some (.generated (Nat.ofDigitChars 10 (text.drop 6) 0))
  | _ => none

/--
**A symbol of a program is told from its text.** The prefixes differ in their sixth character, and
what follows them is the name or the index. Host procedures have no prefix, so nothing can be said
about these.
-/
theorem ofText?_name {s : Symbol} (hs : s.isHost = false) : ofText? s.name.toList = some s := by
  cases s with
  | region r => cases r <;> rfl
  -- the name of a label is all that follows the prefix, so any two of them differ
  | label text =>
      have htext : ofText? ("kair_L_" ++ text).toList = some (.label (.ofList text.toList)) := by
        rw [String.toList_append]
        rfl
      rw [name, htext, String.ofList_toList]
  | generated index =>
      have htext : ofText? ("kair_G" ++ toString index).toList =
          some (.generated (Nat.ofDigitChars 10 (toString index).toList 0)) := by
        rw [String.toList_append]
        rfl
      rw [name, htext, ofDigitChars_toString]
  | host text => cases hs
  | _ => rfl

theorem name_inj {s s' : Symbol} (hs : s.isHost = false) (hs' : s'.isHost = false)
    (h : s.name = s'.name) : s = s' := by
  have hsome : some s = some s' := by rw [← ofText?_name hs, h, ofText?_name hs']
  exact Option.some.inj hsome

/--
The text of a symbol starts with an underscore or with the `k` of the common prefix, so it is not
taken for a directive or for anything indented.
-/
theorem head?_name {s : Symbol} (hs : s.isHost = false) :
    s.name.toList.head? = some '_' ∨ s.name.toList.head? = some 'k' := by
  cases s with
  | entry => exact .inl rfl
  | finish => exact .inr rfl
  | region r => cases r <;> exact .inr rfl
  | label text =>
      rw [name, String.toList_append]
      exact .inr rfl
  | generated index =>
      rw [name, String.toList_append]
      exact .inr rfl
  | host text => cases hs

end Symbol

namespace Output

/-! ## Lines of code -/

/--
A line that defines a symbol shows that symbol and nothing else: it ends in a colon and is not
indented, as no jump, call or declaration is.
-/
theorem shows_label {s : Symbol} (hs : s.isHost = false) (hword : IsWord s.name) :
    Shows [s.name ++ ":"] [s.name] [] [] [] := by
  have hline : OneLine (s.name ++ ":") := oneLine_append.mpr ⟨hword.plain.oneLine, by decide⟩
  have hsingle := Shows.single hline
  have htext : (s.name ++ ":").toList = s.name.toList ++ [':'] := String.toList_append
  have hlabel : label? (s.name.toList ++ [':']) = some s.name := by
    rw [label?, if_pos, List.dropLast_concat, String.ofList_toList]
    refine ⟨?_, List.getLast?_concat⟩
    rw [List.head?_append]
    rcases Symbol.head?_name hs with hhead | hhead <;> simp [hhead]
  -- neither of the two characters that a symbol can start with starts something else
  have hothers : jump? (s.name.toList ++ [':']) = none ∧ call? (s.name.toList ++ [':']) = none ∧
      external? (s.name.toList ++ [':']) = none := by
    rcases Symbol.head?_name hs with hhead | hhead <;>
      (obtain ⟨cs, hcs⟩ := List.head?_eq_some_iff.mp hhead
       rw [hcs]
       exact ⟨rfl, rfl, rfl⟩)
  rw [htext, hlabel, hothers.1, hothers.2.1, hothers.2.2] at hsingle
  exact hsingle

/-- A mnemonic of an instruction that says nothing about symbols. -/
structure Ordinary (mnemonic : String) : Prop where
  plain : Plain mnemonic
  jump : ∀ cs, jump? ('\t' :: (mnemonic.toList ++ cs)) = none
  call : ∀ cs, call? ('\t' :: (mnemonic.toList ++ cs)) = none

/-- No mnemonic starts like a jump or a call but those of jumps and calls. -/
theorem ordinary_mnemonic {op : Opcode} (h : op.transfers = false) : Ordinary op.mnemonic := by
  cases op with
  | jmp | call => cases h
  | j c => cases h
  | _ => exact ⟨by decide, fun _ => rfl, fun _ => rfl⟩

/--
Plain texts with a plain separator between them are plain. This is how operands are written, with a
comma and a blank between each two.
-/
theorem plain_intercalate {separator : String} {texts : List String} (hs : Plain separator)
    (h : ∀ t ∈ texts, Plain t) : Plain (separator.intercalate texts) := by
  induction texts with
  | nil =>
      rw [String.intercalate_nil]
      decide
  | cons t texts ih =>
      obtain ⟨ht, htexts⟩ := List.forall_mem_cons.mp h
      cases texts with
      | nil =>
          rw [String.intercalate_singleton]
          exact ht
      | cons t' texts =>
          rw [String.intercalate_cons_cons]
          exact plain_append.mpr ⟨plain_append.mpr ⟨ht, hs⟩, ih htexts⟩

/--
The text of an instruction starts with its mnemonic, and what comes after it is plain. So a reader
only has to look at the mnemonic to know what the line does.
-/
theorem instructionText_eq (mnemonic : String) {operands : List String}
    (h : ∀ o ∈ operands, Plain o) :
    ∃ tail, instructionText mnemonic operands = "\t" ++ (mnemonic ++ tail) ∧ Plain tail := by
  unfold instructionText
  split
  · exact ⟨"", by simp, by decide⟩
  · refine ⟨.ofList (.replicate (8 - mnemonic.length) ' ') ++ ", ".intercalate operands, ?_, ?_⟩
    · rw [padRight, String.append_assoc, String.append_assoc]
    · refine plain_append.mpr ⟨?_, plain_intercalate (by decide) h⟩
      -- the padding is made of blanks
      intro c hc
      rw [String.toList_ofList] at hc
      rw [List.eq_of_mem_replicate hc]
      decide

/--
A line of an instruction that is neither a jump nor a call says nothing, whatever its operands are.
-/
theorem shows_ordinary {mnemonic : String} {operands : List String} (hm : Ordinary mnemonic)
    (h : ∀ o ∈ operands, Plain o) : Shows [instructionText mnemonic operands] [] [] [] [] := by
  obtain ⟨tail, heq, htail⟩ := instructionText_eq mnemonic h
  have htext : ("\t" ++ (mnemonic ++ tail)).toList = '\t' :: (mnemonic.toList ++ tail.toList) := by
    rw [String.toList_append, String.toList_append]
    rfl
  rw [heq]
  -- indented, so no label or declaration, and of another mnemonic than jumps and calls
  refine .other ?_ ?_ ?_ ?_ ?_
  · exact oneLine_append.mpr ⟨by decide, (plain_append.mpr ⟨hm.plain, htail⟩).oneLine⟩
  · rw [htext, label?_indented]
  · rw [htext, hm.jump]
  · rw [htext, hm.call]
  · rw [htext]
    rfl

/--
The text of an instruction that leads to a symbol: the mnemonic, at least one blank, and the symbol.
-/
theorem toList_transfer {op : Opcode} (h : op.transfers = true) (s : Symbol) :
    ∃ n, (instructionText op.mnemonic [s.name]).toList =
      '\t' :: (op.mnemonic.toList ++ (List.replicate (n + 1) ' ' ++ s.name.toList)) := by
  -- no mnemonic is so long that no blank follows it
  have hlength : ∃ n, 8 - op.mnemonic.length = n + 1 := by
    cases op with
    | jmp => exact ⟨4, rfl⟩
    | j c => cases c <;> first | exact ⟨4, rfl⟩ | exact ⟨5, rfl⟩
    | call => exact ⟨3, rfl⟩
    | _ => cases h
  obtain ⟨n, hn⟩ := hlength
  refine ⟨n, ?_⟩
  rw [instructionText, if_neg (by simp), padRight, hn, String.intercalate_singleton]
  simp

/-- A word starts behind the blanks in front of it. -/
theorem dropWhile_spaces {text : String} (h : IsWord text) (n : Nat) :
    (List.replicate n ' ' ++ text.toList).dropWhile (· = ' ') = text.toList := by
  obtain ⟨c, cs, htext, hc⟩ := h.exists_cons
  have hne : c ≠ ' ' := by
    rintro rfl
    exact absurd hc (by decide)
  rw [List.dropWhile_append_of_pos, htext, List.dropWhile_cons_of_neg (by simpa using hne)]
  intro d hd
  simpa using List.eq_of_mem_replicate hd

/-- A line that leads to a symbol, for what is told by its mnemonic. -/
theorem shows_transfer {op : Opcode} {s : Symbol} {jumps calls : List String}
    (hop : op.transfers = true) (hword : IsWord s.name)
    (hjump : ∀ n, (jump? ('\t' :: (op.mnemonic.toList ++
      (List.replicate (n + 1) ' ' ++ s.name.toList)))).toList = jumps)
    (hcall : ∀ n, (call? ('\t' :: (op.mnemonic.toList ++
      (List.replicate (n + 1) ' ' ++ s.name.toList)))).toList = calls) :
    Shows [instructionText op.mnemonic [s.name]] [] jumps calls [] := by
  have hplain : Plain op.mnemonic := by
    cases op with
    | j c => cases c <;> decide
    | _ => decide
  -- the name is a word, so the line does not end inside it
  have hline : OneLine (instructionText op.mnemonic [s.name]) := by
    obtain ⟨tail, heq, htail⟩ :=
      instructionText_eq op.mnemonic (List.forall_mem_singleton.mpr hword.plain)
    rw [heq]
    exact oneLine_append.mpr ⟨by decide, (plain_append.mpr ⟨hplain, htail⟩).oneLine⟩
  have hsingle := Shows.single hline
  obtain ⟨n, htext⟩ := toList_transfer hop s
  rw [htext, label?_indented, hjump n, hcall n] at hsingle
  exact hsingle

/--
A line that jumps to a symbol shows it, conditional or not: all mnemonics of jumps start with the
same letter, and no other mnemonic does.
-/
theorem shows_jump {op : Opcode} {s : Symbol} (hop : op = .jmp ∨ ∃ c, op = .j c)
    (h : IsWord s.name) : Shows [instructionText op.mnemonic [s.name]] [] [s.name] [] [] := by
  have htransfers : op.transfers = true := by
    rcases hop with rfl | ⟨c, rfl⟩ <;> rfl
  have hmnemonic : ∃ rest, op.mnemonic.toList = 'j' :: rest ∧ ∀ c ∈ rest, c ≠ ' ' := by
    rcases hop with rfl | ⟨c, rfl⟩
    · exact ⟨['m', 'p'], rfl, by decide⟩
    · refine ⟨c.suffix.toList, String.toList_append, ?_⟩
      cases c <;> decide
  obtain ⟨rest, hrest, hspace⟩ := hmnemonic
  -- the mnemonic has no blank in it, so the symbol is all that is left behind the blanks
  have hdrop : ∀ n, (rest ++ (List.replicate (n + 1) ' ' ++ s.name.toList)).dropWhile (· ≠ ' ') =
      List.replicate (n + 1) ' ' ++ s.name.toList := by
    intro n
    rw [List.dropWhile_append_of_pos (by simpa using hspace), List.replicate_succ]
    rfl
  refine shows_transfer htransfers h (fun n => ?_) (fun n => by rw [hrest]; rfl)
  have hjump : jump? ('\t' :: 'j' :: (rest ++ (List.replicate (n + 1) ' ' ++ s.name.toList))) =
      some (.ofList (((rest ++ (List.replicate (n + 1) ' ' ++ s.name.toList)).dropWhile
        (· ≠ ' ')).dropWhile (· = ' '))) := rfl
  rw [hrest, List.cons_append, hjump, hdrop, dropWhile_spaces h, String.ofList_toList]
  rfl

/-- A line that calls a symbol. -/
theorem shows_call {s : Symbol} (h : IsWord s.name) :
    Shows [instructionText (Opcode.mnemonic .call) [s.name]] [] [] [s.name] [] := by
  refine shows_transfer rfl h (fun n => rfl) fun n => ?_
  have hcall : call? ('\t' :: ("call".toList ++ (List.replicate (n + 1) ' ' ++ s.name.toList))) =
      some (.ofList ((List.replicate (n + 1) ' ' ++ s.name.toList).dropWhile (· = ' '))) := rfl
  rw [Opcode.mnemonic, hcall, dropWhile_spaces h, String.ofList_toList]
  rfl

/-! ### Both assemblers -/

theorem plain_name (r : Reg) (w : Width) : Plain (r.name w) := by
  cases r <;> cases w <;> decide

theorem plain_region (r : Region) : Plain (Symbol.region r).name := by
  cases r <;> decide

/--
NASM writes operands as plain texts. None of the characters by which lines are told apart occurs in
them, in brackets or outside.
-/
theorem plain_nasm (op : Opcode) {o : Operand} (h : o.isTarget = false) :
    Plain (Nasm.operandText op o) := by
  -- the parts of an address, which is their text in brackets
  have hdisplacement : ∀ d : Int, Plain (Nasm.displacementText d) := by
    intro d
    unfold Nasm.displacementText
    split
    · decide
    · split <;> exact plain_append.mpr ⟨by decide, plain_nat _⟩
  have hbase : ∀ b : Base, Plain (Nasm.baseText b) := by
    intro b
    cases b with
    | reg r => exact plain_name r .qword
    | region mode r =>
        cases mode with
        | absolute => exact plain_region r
        | relative => exact plain_append.mpr ⟨by decide, plain_region r⟩
  have haddress : ∀ m : Memory, Plain (Nasm.addressText m) := by
    intro m
    simp only [Nasm.addressText, plain_append]
    exact ⟨⟨⟨by decide, hbase m.base⟩, hdisplacement _⟩, by decide⟩
  cases o with
  | reg r w => exact plain_name r w
  | imm value =>
      rw [Nasm.operandText]
      split
      · exact plain_append.mpr ⟨by decide, plain_int _⟩
      · exact plain_int _
  | mem m =>
      rw [Nasm.operandText]
      split
      · exact haddress m
      · simp only [plain_append]
        refine ⟨⟨?_, by decide⟩, haddress m⟩
        cases m.width <;> decide
  | address r => exact plain_region r
  | target s => cases h

/--
The GNU assembler does so too. Here an address may have a displacement in front of its parenthesis,
with a sign or without.
-/
theorem plain_gas {o : Operand} (h : o.isTarget = false) : Plain (Gas.operandText o) := by
  have hdisplacement : ∀ d : Int, Plain (Gas.displacementText d) := by
    intro d
    unfold Gas.displacementText
    split
    · decide
    · split
      · exact plain_int d
      · exact plain_append.mpr ⟨by decide, plain_int d⟩
  cases o with
  | reg r w => exact plain_append.mpr ⟨by decide, plain_name r w⟩
  | imm value => exact plain_append.mpr ⟨by decide, plain_int _⟩
  | mem m =>
      rw [Gas.operandText, Gas.memoryText]
      split
      · next r _ =>
        simp only [plain_append]
        refine ⟨⟨⟨?_, by decide⟩, plain_name r .qword⟩, by decide⟩
        -- a register has the displacement in front, a region has it behind its symbol
        split
        · decide
        · exact plain_int _
      · exact plain_append.mpr ⟨plain_region _, hdisplacement _⟩
      · exact plain_append.mpr ⟨plain_append.mpr ⟨plain_region _, hdisplacement _⟩, by decide⟩
  | address r => exact plain_append.mpr ⟨by decide, plain_region r⟩
  | target s => cases h

/--
An instruction that stays in line says nothing about symbols, in either dialect: its mnemonic is no
jump or call, and its operands are plain.
-/
theorem shows_inLine (d : Dialect) {i : Instruction} (hi : i.InLine) :
    Shows [d.style.instruction i] [] [] [] [] := by
  have hoperands : ∀ {f : Operand → String}, (∀ o, o.isTarget = false → Plain (f o)) →
      ∀ t ∈ i.operands.map f, Plain t := by
    intro f hf t ht
    obtain ⟨o, ho, rfl⟩ := List.mem_map.mp ht
    exact hf o (hi.isTarget ho)
  cases d with
  | nasm =>
      refine shows_ordinary ?_ (hoperands fun o => plain_nasm i.opcode)
      unfold Nasm.mnemonic
      split
      · exact (ordinary_mnemonic rfl : Ordinary (Opcode.mnemonic .mov))
      · exact ordinary_mnemonic hi.opcode
  | gas =>
      refine shows_ordinary ?_ fun t ht => ?_
      · unfold Gas.mnemonic
        split
        · exact ⟨by decide, fun _ => rfl, fun _ => rfl⟩
        · exact ⟨by decide, fun _ => rfl, fun _ => rfl⟩
        · exact ⟨by decide, fun _ => rfl, fun _ => rfl⟩
        · exact ordinary_mnemonic hi.opcode
      · -- the operands are written in the other order
        rw [List.map_reverse, List.mem_reverse] at ht
        exact hoperands (fun o => plain_gas) t ht

/-- A line of code says in either assembler what it says in a listing. -/
theorem shows_line (d : Dialect) {line : Line} (h : line.Shaped)
    (hwords : ∀ s, line.label? = some s ∨ line.jump? = some s ∨ line.call? = some s →
      IsWord s.name) :
    Shows [d.style.line line] (line.label?.toList.map Symbol.name)
      (line.jump?.toList.map Symbol.name) (line.call?.toList.map Symbol.name) [] := by
  -- by the shape of the line, since no other line is in the code of a program
  cases h with
  | label hs => exact shows_label hs (hwords _ (.inl rfl))
  | inLine hi =>
      rw [hi.jump?_eq_none, hi.call?_eq_none]
      exact shows_inLine d hi
  | jmp hs =>
      have hshows := shows_jump (.inl rfl) (hwords _ (.inr (.inl rfl)))
      cases d <;> exact hshows
  | j c hs =>
      have hshows := shows_jump (.inr ⟨c, rfl⟩) (hwords _ (.inr (.inl rfl)))
      cases d <;> exact hshows
  | call name =>
      have hshows := shows_call (hwords _ (.inr (.inr rfl)))
      cases d <;> exact hshows

/--
**What the lines of some code say**, in either assembler, is what the code mentions: the symbols
that it defines, jumps to and calls, in this order each. Code never declares a symbol.
-/
theorem shows_code (d : Dialect) {code : List Line} {ds js cs : List Symbol}
    (h : Mentions code ds js cs) (hwords : ∀ s, s ∈ ds ∨ s ∈ js ∨ s ∈ cs → IsWord s.name) :
    Shows (code.map d.style.line) (ds.map Symbol.name) (js.map Symbol.name) (cs.map Symbol.name)
      [] := by
  obtain ⟨rfl, rfl, rfl, hshaped⟩ := h
  -- line by line, as the symbols are collected
  induction code with
  | nil => exact .nil
  | cons line code ih =>
      obtain ⟨hline, hcode⟩ := List.forall_mem_cons.mp hshaped
      have hcons : ∀ f : Line → Option Symbol,
          (line :: code).filterMap f = (f line).toList ++ code.filterMap f := by
        intro f
        cases hf : f line <;> simp [hf]
      simp only [hcons, List.mem_append, Option.mem_toList, List.map_append] at hwords ⊢
      refine (shows_line d hline fun s hs => ?_).append (ih hcode fun s hs => ?_)
      · rcases hs with hs | hs | hs
        · exact hwords s (.inl (.inl hs))
        · exact hwords s (.inr (.inl (.inl hs)))
        · exact hwords s (.inr (.inr (.inl hs)))
      · rcases hs with hs | hs | hs
        · exact hwords s (.inl (.inr hs))
        · exact hwords s (.inr (.inl (.inr hs)))
        · exact hwords s (.inr (.inr (.inr hs)))

end Output

end Quadword
