import Mathlib.Data.List.Basic
import Quadword.Proofs.Assembly.Lines

/-!
# Reading numbers, names and operands

The pieces of which both assemblers make up a line, and how they are read back: numbers with a sign,
names out of a table, an address of a name and a displacement, and a mnemonic with operands between
commas. The readers take any text; what they are for is the text of a piece, which gives the piece.

* **`numeric_int`**: a number is read back from its decimal digits.
* **`readAddress_eq`**: a name, a displacement and what follows them are told apart.
* **`operandsOf_instructionText`**: the operands of an instruction are told apart.
-/

namespace Quadword.Output

open Lexical

/-! ## Numbers -/

/-- The number that a text of decimal digits stands for, with or without a sign. -/
def readInt : List Char → Int
  | '-' :: digits => -(Nat.ofDigitChars 10 digits 0 : Int)
  | '+' :: digits => Nat.ofDigitChars 10 digits 0
  | digits => Nat.ofDigitChars 10 digits 0

/-- The characters of numbers. -/
def isNumeral (c : Char) : Bool := c.isDigit || c = '-' || c = '+'

/-- The digits of a number are read as that number. No digit is taken for a sign. -/
theorem readInt_nat (n : Nat) : readInt (toString n).toList = n := by
  have hdigits := isDigit_toString (n := n)
  have hread : readInt (toString n).toList = Nat.ofDigitChars 10 (toString n).toList 0 := by
    -- a digit is no sign, so the text is read as it is
    unfold readInt
    split
    · next heq => exact absurd (hdigits '-' (heq ▸ List.mem_cons_self)) (by decide)
    · next heq => exact absurd (hdigits '+' (heq ▸ List.mem_cons_self)) (by decide)
    · rfl
  rw [hread, ofDigitChars_toString]

/-- A text that holds a number and nothing else. -/
structure Numeric (text : List Char) (n : Int) : Prop where
  numerals : ∀ c ∈ text, isNumeral c = true
  read : readInt text = n

/-- A number is written as a text that holds it and nothing else. -/
theorem numeric_nat (n : Nat) : Numeric (toString n).toList n where
  numerals := by
    intro c hc
    rw [isNumeral, isDigit_toString c hc]
    rfl
  read := readInt_nat n

theorem numeric_empty : Numeric "".toList 0 := ⟨nofun, rfl⟩

/-- A minus in front of the digits is part of the number. -/
theorem numeric_minus (n : Nat) : Numeric ("-" ++ toString n).toList (-n) := by
  rw [String.toList_append]
  refine ⟨List.forall_mem_cons.mpr ⟨rfl, (numeric_nat n).numerals⟩, ?_⟩
  show -(Nat.ofDigitChars 10 (toString n).toList 0 : Int) = -n
  rw [ofDigitChars_toString]

theorem numeric_plus (n : Nat) : Numeric ("+" ++ toString n).toList n := by
  rw [String.toList_append]
  refine ⟨List.forall_mem_cons.mpr ⟨rfl, (numeric_nat n).numerals⟩, ?_⟩
  show (Nat.ofDigitChars 10 (toString n).toList 0 : Int) = n
  rw [ofDigitChars_toString]

/-- An integer is written in one of these ways. -/
theorem numeric_int (n : Int) : Numeric (toString n).toList n := by
  rw [Int.toString_eq_repr, Int.repr_eq_if]
  split
  · next hn =>
    have hnumeric := numeric_nat n.toNat
    rw [Int.toNat_of_nonneg hn] at hnumeric
    exact hnumeric
  · next hn =>
    have hnumeric := numeric_minus (-n).toNat
    rw [Int.toNat_of_nonneg (by omega), Int.neg_neg] at hnumeric
    exact hnumeric

/-! ## Names -/

/-- The entry of a table that a text is the name of. -/
def readName {α : Type} (table : List α) (name : α → String) (text : List Char) : Option α :=
  table.find? fun a => (name a).toList = text

/--
Names that differ are read back: among finitely many values with different names, the one that is
found by a name is the one that has it.
-/
theorem readName_name {α : Type} {table : List α} {name : α → String}
    (hnames : (table.map name).Nodup) {a : α} (ha : a ∈ table) :
    readName table name (name a).toList = some a := by
  induction table with
  | nil => cases ha
  | cons b table ih =>
      rw [List.map_cons, List.nodup_cons] at hnames
      rw [readName, List.find?_cons]
      rcases List.mem_cons.mp ha with rfl | ha
      · simp
      · -- the first of the table has another name, so it is not the one that is found
        have hne : ¬ (name b).toList = (name a).toList := by
          intro heq
          exact hnames.1 (String.toList_inj.mp heq ▸ List.mem_map_of_mem ha)
        rw [decide_eq_false hne]
        exact ih hnames.2 ha

def registers : List Reg := [.rax, .rbx, .rcx, .rdx, .rsp, .r8, .r9, .r10, .r11]

def widths : List Width := [.byte, .word, .dword, .qword]

/-- The registers with their parts. -/
def parts : List (Reg × Width) := registers.flatMap fun r => widths.map (r, ·)

def bases : List Base :=
  registers.map .reg ++ [.region .absolute .data, .region .absolute .const,
    .region .relative .data, .region .relative .const]

def opcodes : List Opcode :=
  [.mov, .movabs, .movzx, .lea, .add, .sub, .imul, .and, .or, .xor, .shl, .sar, .shr, .neg, .not,
    .cqo, .idiv, .div, .cmp, .jmp, .j .e, .j .ne, .j .l, .j .ge, .j .le, .j .g, .j .b, .j .ae,
    .j .be, .j .a, .call, .nop]

/--
The list has every register in every width. Names are read back by looking them up in such a list,
in which they are all different.
-/
theorem mem_parts (r : Reg) (w : Width) : (r, w) ∈ parts := by
  cases r <;> cases w <;> decide

theorem mem_bases (b : Base) : b ∈ bases := by
  cases b with
  | reg r => cases r <;> decide
  | region mode r => cases mode <;> cases r <;> decide

def readReg (text : List Char) : Option Operand :=
  (readName parts (fun part => part.1.name part.2) text).map fun part => .reg part.1 part.2

theorem readReg_name (r : Reg) (w : Width) : readReg (r.name w).toList = some (.reg r w) := by
  have hnames : (parts.map fun part => part.1.name part.2).Nodup := by decide
  rw [readReg, readName_name hnames (mem_parts r w)]
  rfl

def readRegion (text : List Char) : Option Region :=
  readName [.data, .const] (fun r => (Symbol.region r).name) text

def readOpcode (text : List Char) : Option Opcode := readName opcodes Opcode.mnemonic text

/--
An opcode is read back from its mnemonic. Only NASM writes two of them alike, and says so where it
does.
-/
theorem readOpcode_mnemonic (op : Opcode) : readOpcode op.mnemonic.toList = some op := by
  refine readName_name (by decide) ?_
  cases op with
  | j c => cases c <;> decide
  | _ => decide

theorem filterMap_read {α β : Type} {read : β → Option α} {text : α → β} {as : List α}
    (h : ∀ a ∈ as, read (text a) = some a) : (as.map text).filterMap read = as := by
  rw [List.filterMap_map]
  exact (List.filterMap_congr h).trans List.filterMap_some

/-! ## Addresses -/

theorem dropWhile_append_stop {p : Char → Bool} {cs rest : List Char} (hcs : ∀ c ∈ cs, p c = true)
    (hrest : ∀ d ∈ rest.head?, p d = false) : (cs ++ rest).dropWhile p = rest := by
  rw [List.dropWhile_append_of_pos hcs]
  cases rest with
  | nil => rfl
  | cons d ds => rw [List.dropWhile_cons_of_neg (by simp [hrest d rfl])]

/-- A name, a displacement from it, and what follows; `p` tells the characters of names. -/
def readAddress (p : Char → Bool) (text : List Char) : List Char × Int × List Char :=
  let rest := text.dropWhile p
  (text.takeWhile p, readInt (rest.takeWhile isNumeral), rest.dropWhile isNumeral)

/--
An address falls apart into what stands before the displacement, the displacement and the rest, if
each part ends where the next one starts.
-/
theorem readAddress_eq {p : Char → Bool} {name displacement after : List Char} {d : Int}
    (hname : ∀ c ∈ name, p c = true) (hd : Numeric displacement d)
    (hstop : ∀ c ∈ (displacement ++ after).head?, p c = false)
    (hafter : ∀ c ∈ after.head?, isNumeral c = false) :
    readAddress p (name ++ (displacement ++ after)) = (name, d, after) := by
  simp only [readAddress]
  rw [dropWhile_append_stop hname hstop, takeWhile_append_stop hname hstop,
    takeWhile_append_stop hd.numerals hafter, dropWhile_append_stop hd.numerals hafter, hd.read]

/-! ## Instructions -/

/-- What an indented line starts with, up to the first blank. -/
def mnemonicOf (line : List Char) : List Char := (line.drop 1).takeWhile (· ≠ ' ')

/-- What stands between the commas of an indented line, after its mnemonic. -/
def operandsOf (line : List Char) : List (List Char) :=
  match (line.drop 1).dropWhile (· ≠ ' ') with
  | [] => []
  | rest => (rest.splitOn ',').map (·.dropWhile (· = ' '))

/-- A text that can be told apart from its neighbours between commas. -/
structure Separable (text : String) : Prop where
  comma : ',' ∉ text.toList
  blank : text.toList.head? ≠ some ' '

/--
A number has no comma in it, so operands that are numbers can be split at the commas between them.
-/
theorem Numeric.comma {text : List Char} {n : Int} (h : Numeric text n) : ',' ∉ text :=
  fun hmem => absurd (h.numerals ',' hmem) (by decide)

theorem Numeric.head?_ne {text : List Char} {n : Int} (h : Numeric text n) {c : Char}
    (hc : isNumeral c = false) : text.head? ≠ some c := by
  intro hhead
  rw [h.numerals c (List.mem_of_head? hhead)] at hc
  cases hc

namespace Separable

theorem of_numeric {text : String} {n : Int} (h : Numeric text.toList n) : Separable text :=
  ⟨h.comma, h.head?_ne (by decide)⟩

theorem of_isWord {text : String} (h : IsWord text) : Separable text := by
  refine ⟨fun hmem => absurd (h.isWordChar ',' hmem) (by decide), fun hhead => ?_⟩
  exact absurd (h.isWordChar ' ' (List.mem_of_head? hhead)) (by decide)

instance (text : String) : Decidable (Separable text) :=
  decidable_of_iff (',' ∉ text.toList ∧ text.toList.head? ≠ some ' ')
    ⟨fun h => ⟨h.1, h.2⟩, fun h => ⟨h.comma, h.blank⟩⟩

variable {text : String} (h : Separable text) (n : Nat)

include h

/-- Blanks in front of a separable text do not add a comma to it. -/
theorem not_comma : ∀ c ∈ List.replicate n ' ' ++ text.toList, (c == ',') = false := by
  intro c hc
  rcases List.mem_append.mp hc with hc | hc
  · rw [List.eq_of_mem_replicate hc]
    rfl
  · rw [beq_eq_false_iff_ne]
    rintro rfl
    exact h.comma hc

/-- Blanks in front of a separable text can be removed again, as it does not start with one. -/
theorem dropWhile_blanks :
    (List.replicate n ' ' ++ text.toList).dropWhile (· = ' ') = text.toList := by
  refine dropWhile_append_stop (fun c hc => by simpa using List.eq_of_mem_replicate hc) ?_
  intro c hc
  rw [decide_eq_false_iff_not]
  rintro rfl
  exact h.blank hc

end Separable

/-- Texts with commas between them fall apart into them, whatever blanks stand before the first. -/
theorem splitOn_intercalate {text : String} {texts : List String}
    (h : ∀ t ∈ text :: texts, Separable t) (n : Nat) :
    ((List.replicate n ' ' ++ (", ".intercalate (text :: texts)).toList).splitOn ',').map
      (·.dropWhile (· = ' ')) = (text :: texts).map String.toList := by
  induction texts generalizing text n with
  | nil =>
      have htext := h text List.mem_cons_self
      rw [String.intercalate_singleton, List.splitOn,
        List.splitOnP_eq_singleton (htext.not_comma n), List.map_singleton, htext.dropWhile_blanks]
      rfl
  | cons next texts ih =>
      obtain ⟨htext, hnext⟩ := List.forall_mem_cons.mp h
      -- the blank after the comma is one before the next text
      have hjoin : List.replicate n ' ' ++ (", ".intercalate (text :: next :: texts)).toList =
          (List.replicate n ' ' ++ text.toList) ++ ',' ::
            (List.replicate 1 ' ' ++ (", ".intercalate (next :: texts)).toList) := by
        simp [String.intercalate_cons_cons]
      have hrest := ih hnext 1
      rw [List.splitOn] at hrest ⊢
      rw [hjoin, List.splitOnP_append_cons_of_forall_mem (htext.not_comma n) ',' rfl, List.map_cons,
        htext.dropWhile_blanks, hrest]
      rfl

/-- A mnemonic that leaves room for a blank after it. -/
structure Mnemonic (text : String) : Prop where
  blank : ∀ c ∈ text.toList, decide (c ≠ ' ') = true
  length : text.length < 8

theorem Mnemonic.of_opcode (op : Opcode) : Mnemonic op.mnemonic := by
  cases op with
  | j c => cases c <;> exact ⟨by decide, by decide⟩
  | _ => exact ⟨by decide, by decide⟩

/-- The text of an instruction with operands. -/
theorem toList_instructionText {mnemonic : String} (h : Mnemonic mnemonic) (operand : String)
    (operands : List String) : ∃ n, (instructionText mnemonic (operand :: operands)).toList =
      '\t' :: (mnemonic.toList ++ (List.replicate (n + 1) ' ' ++
        (", ".intercalate (operand :: operands)).toList)) := by
  have hn : 8 - mnemonic.length = 7 - mnemonic.length + 1 := by
    have := h.length
    omega
  refine ⟨7 - mnemonic.length, ?_⟩
  rw [instructionText, if_neg (by simp), padRight, hn]
  simp

/--
The mnemonic of an instruction is read back from its line, with or without operands behind it.
-/
theorem mnemonicOf_instructionText {mnemonic : String} (h : Mnemonic mnemonic)
    (operands : List String) :
    mnemonicOf (instructionText mnemonic operands).toList = mnemonic.toList := by
  cases operands with
  | nil =>
      have htext : (instructionText mnemonic []).toList = '\t' :: (mnemonic.toList ++ []) := by
        simp [instructionText]
      rw [htext]
      exact takeWhile_append_stop h.blank (by simp)
  | cons operand operands =>
      obtain ⟨n, htext⟩ := toList_instructionText h operand operands
      rw [htext]
      exact takeWhile_append_stop h.blank (by simp [List.replicate_succ])

/--
The texts of the operands are read back from the line, if they are separable. The first one may have
several blanks in front, which fill up the mnemonic.
-/
theorem operandsOf_instructionText {mnemonic : String} (h : Mnemonic mnemonic)
    {operands : List String} (hoperands : ∀ o ∈ operands, Separable o) :
    operandsOf (instructionText mnemonic operands).toList = operands.map String.toList := by
  cases operands with
  | nil =>
      have htext : (instructionText mnemonic []).toList = '\t' :: (mnemonic.toList ++ []) := by
        simp [instructionText]
      -- without operands nothing follows the mnemonic, not even a blank
      have hrest : (mnemonic.toList ++ []).dropWhile (· ≠ ' ') = [] :=
        dropWhile_append_stop h.blank (by simp)
      rw [htext, operandsOf, List.drop_one, List.tail_cons, hrest]
      rfl
  | cons operand operands =>
      obtain ⟨n, htext⟩ := toList_instructionText h operand operands
      rw [htext, operandsOf, List.drop_one, List.tail_cons,
        dropWhile_append_stop h.blank (by simp [List.replicate_succ])]
      exact splitOn_intercalate hoperands (n + 1)

/-- The opcode of a jump or call, which both assemblers write alike. -/
def readTransfer (mnemonic : List Char) : Option Opcode :=
  (readOpcode mnemonic).filter Opcode.transfers

/-- Where a jump or call leads: out of the program, or to one of its symbols. -/
def readTarget (op : Opcode) (text : List Char) : Option Operand :=
  if op = .call then some (.target (.host (.ofList text))) else (Symbol.ofText? text).map .target

/-- Reads an instruction, with a reader for those that stay in line. -/
def readInstruction (inLine : List Char → List (List Char) → Option Instruction)
    (line : List Char) : Option Instruction :=
  match readTransfer (mnemonicOf line) with
  | some op => some ⟨op, (operandsOf line).filterMap (readTarget op)⟩
  | none => inLine (mnemonicOf line) (operandsOf line)

/-- A mnemonic that is none of a transfer is not taken for one. -/
theorem readTransfer_mnemonic {op : Opcode} (h : op.transfers = false) :
    readTransfer op.mnemonic.toList = none := by
  rw [readTransfer, readOpcode_mnemonic, Option.filter_some, h]
  rfl

/--
A jump or call is read back, whatever the reader for other instructions. Both dialects write these
alike, so this is stated once for the two.
-/
theorem readInstruction_transfer {op : Opcode} {s : Symbol} (hop : op.transfers = true)
    (hs : s.isHost = decide (op = .call)) (hword : IsWord s.name)
    (inLine : List Char → List (List Char) → Option Instruction) :
    readInstruction inLine (instructionText op.mnemonic [s.name]).toList = some (jump op s) := by
  -- a call leads out of the program and any jump stays in it, so the opcode tells how to read
  have htarget : readTarget op s.name.toList = some (.target s) := by
    unfold readTarget
    split
    · next hcall =>
      rw [decide_eq_true hcall] at hs
      cases s <;> cases hs
      rw [Symbol.name, String.ofList_toList]
    · next hcall =>
      rw [decide_eq_false hcall] at hs
      rw [Symbol.ofText?_name hs]
      rfl
  have htransfer : readTransfer op.mnemonic.toList = some op := by
    rw [readTransfer, readOpcode_mnemonic, Option.filter_some, hop]
    rfl
  have hoperands := operandsOf_instructionText (.of_opcode op)
    (List.forall_mem_singleton.mpr (Separable.of_isWord hword))
  rw [readInstruction, mnemonicOf_instructionText (.of_opcode op), htransfer, hoperands]
  simp only [List.map_singleton, List.filterMap_cons, htarget, List.filterMap_nil]
  rfl

/-- An instruction that stays in line is left to its reader. -/
theorem readInstruction_inLine {mnemonic : String} {operands : List String}
    (hmnemonic : Mnemonic mnemonic) (htransfer : readTransfer mnemonic.toList = none)
    (hoperands : ∀ o ∈ operands, Separable o)
    (inLine : List Char → List (List Char) → Option Instruction) :
    readInstruction inLine (instructionText mnemonic operands).toList =
      inLine mnemonic.toList (operands.map String.toList) := by
  rw [readInstruction, mnemonicOf_instructionText hmnemonic, htransfer,
    operandsOf_instructionText hmnemonic hoperands]

end Quadword.Output
