import Quadword.Proofs.Assembly.Reading
import Quadword.Proofs.Lowering.Forms

/-!
# Reading the style of the GNU assembler

What is written for the GNU assembler is read back, although memory operands are written without
their width: two mnemonics have it, and with any other it is that of the register beside.

* **`Gas.readOperand_operandText`**: an operand is read back, but for the width of an access.
* **`Gas.accessWidth_eq`**: the width of an access in an instruction of one of the forms.
* **`Gas.readInstruction_instruction`**: such an instruction is read back.
-/

namespace Quadword.Gas

open Output Lexical

/-! ## Operands -/

/-- What stands before and after the displacement of a memory operand. -/
def baseTexts : Base → String × String
  | .reg r => ("", "(%" ++ r.name .qword ++ ")")
  | .region .absolute r => ((Symbol.region r).name, "")
  | .region .relative r => ((Symbol.region r).name, "(%rip)")

def baseText (b : Base) : String := (baseTexts b).1 ++ (baseTexts b).2

/-- A memory operand, as one of a whole word. -/
def readMemory (text : List Char) : Option Memory :=
  let address := readAddress (fun c => !isNumeral c && c ≠ '(') text
  (readName bases baseText (address.1 ++ address.2.2)).map (⟨·, address.2.1, .qword⟩)

def readOperand : List Char → Option Operand
  | '%' :: text => readReg text
  | '$' :: text =>
    if text.all isNumeral then some (.imm (.ofInt 64 (readInt text)))
    else (readRegion text).map .address
  | text => (readMemory text).map .mem

/--
A displacement is written as nothing, as a number or as one with a plus in front, and says its value
in each case.
-/
theorem numeric_displacementText (d : Int) : Numeric (displacementText d).toList d := by
  unfold displacementText
  split
  · next hzero => exact hzero ▸ numeric_empty
  · split
    · exact numeric_int d
    · next hpos =>
      -- a positive number has its sign written in front, which its text does not have
      have htext : toString d = toString d.toNat := by
        rw [Int.toString_eq_repr, Int.repr_eq_if, if_pos (by omega)]
        rfl
      have hnumeric := numeric_plus d.toNat
      rw [Int.toNat_of_nonneg (by omega)] at hnumeric
      rw [htext]
      exact hnumeric

/--
The displacement stands between the two texts of the base, the second of which begins with a
parenthesis. So it can be found without knowing the base.
-/
theorem memoryText_eq (m : Memory) : ∃ displacement, Numeric displacement m.displacement ∧
    (memoryText m).toList =
      (baseTexts m.base).1.toList ++ (displacement ++ (baseTexts m.base).2.toList) := by
  unfold memoryText
  split
  · next r hbase =>
    -- a register has its displacement in front, as a number that is left out if it is zero
    have hd : Numeric (if m.displacement = 0 then "" else toString m.displacement).toList
        m.displacement := by
      split
      · next hzero => exact hzero ▸ numeric_empty
      · exact numeric_int _
    refine ⟨_, hd, ?_⟩
    simp [hbase, baseTexts]
  · next r hbase =>
    refine ⟨_, numeric_displacementText _, ?_⟩
    simp [hbase, baseTexts]
  · next r hbase =>
    refine ⟨_, numeric_displacementText _, ?_⟩
    simp [hbase, baseTexts]

/-- What follows a displacement is no part of it, and starts nothing else. -/
theorem head?_after {b : Base} {c : Char} (h : (baseTexts b).2.toList.head? = some c) :
    c = '(' := by
  cases b with
  | reg r =>
      rw [baseTexts, String.append_assoc, String.toList_append] at h
      exact (Option.some.inj h).symm
  | region mode r =>
      cases mode with
      | absolute => cases h
      | relative =>
          have hhead : "(%rip)".toList.head? = some c := h
          exact (Option.some.inj hhead).symm

/-- What comes in front of one is the name of a region, if anything. -/
theorem head?_before {b : Base} {c : Char} (h : (baseTexts b).1.toList.head? = some c) :
    c = 'k' := by
  cases b with
  | reg r => cases h
  | region mode r => cases mode <;> cases r <;> exact (Option.some.inj h).symm

/--
A memory operand is read back as one of a whole word. The displacement is cut out by its characters,
and what is left around it tells the base.
-/
theorem readMemory_memoryText (m : Memory) :
    readMemory (memoryText m).toList = some { m with width := .qword } := by
  obtain ⟨displacement, hd, htext⟩ := memoryText_eq m
  have hbase : ∀ c ∈ (baseTexts m.base).1.toList, (!isNumeral c && c ≠ '(') = true := by
    have hall : ∀ b ∈ bases, ∀ c ∈ (baseTexts b).1.toList, (!isNumeral c && c ≠ '(') = true := by
      decide
    exact hall m.base (mem_bases _)
  -- what follows the name of a region starts with a numeral or a parenthesis
  have hstop : ∀ c ∈ (displacement ++ (baseTexts m.base).2.toList).head?,
      (!isNumeral c && c ≠ '(') = false := by
    intro c hc
    cases displacement with
    | nil =>
        rw [head?_after hc]
        rfl
    | cons d displacement =>
        cases hc
        rw [hd.numerals c List.mem_cons_self]
        rfl
  have hafter : ∀ c ∈ (baseTexts m.base).2.toList.head?, isNumeral c = false := by
    intro c hc
    rw [head?_after hc]
    rfl
  have hname : (baseTexts m.base).1.toList ++ (baseTexts m.base).2.toList =
      (baseText m.base).toList := String.toList_append.symm
  rw [readMemory, htext, readAddress_eq hbase hd hstop hafter, hname,
    readName_name (by decide) (mem_bases m.base)]
  rfl

/-- How a memory operand starts: with a region, with a number or with a register. -/
theorem head?_memoryText {m : Memory} {c : Char} (h : (memoryText m).toList.head? = some c) :
    c = 'k' ∨ isNumeral c = true ∨ c = '(' := by
  obtain ⟨displacement, hd, htext⟩ := memoryText_eq m
  rw [htext, List.head?_append, List.head?_append, Option.or_eq_some_iff,
    Option.or_eq_some_iff] at h
  rcases h with h | ⟨-, h | ⟨-, h⟩⟩
  · exact .inl (head?_before h)
  · exact .inr (.inl (hd.numerals c (List.mem_of_head? h)))
  · exact .inr (.inr (head?_after h))

/-- The operand with another width, if it is an access. -/
def resize (w : Width) : Operand → Operand
  | .mem m => .mem { m with width := w }
  | o => o

/--
An operand is read back, but for the width of an access, which this assembler does not write beside
an address. The instruction settles it later.
-/
theorem readOperand_operandText {o : Operand} (ho : o.isTarget = false) :
    readOperand (operandText o).toList = some (resize .qword o) := by
  cases o with
  | reg r w =>
      rw [operandText, String.toList_append]
      exact readReg_name r w
  | imm value =>
      have hvalue := numeric_int value.toInt
      have htext : (operandText (.imm value)).toList = '$' :: (toString value.toInt).toList := by
        rw [operandText, String.toList_append]
        rfl
      rw [htext, readOperand, if_pos (List.all_eq_true.mpr hvalue.numerals), hvalue.read,
        BitVec.ofInt_toInt]
      rfl
  | mem m =>
      -- a memory operand starts with neither of the signs that stand for the other kinds
      have hread : readOperand (memoryText m).toList =
          (readMemory (memoryText m).toList).map .mem := by
        unfold readOperand
        split
        · next htext =>
          have hhead := head?_memoryText (m := m) (c := '%') (by rw [htext]; rfl)
          exact absurd hhead (by decide)
        · next htext =>
          have hhead := head?_memoryText (m := m) (c := '$') (by rw [htext]; rfl)
          exact absurd hhead (by decide)
        · rfl
      rw [operandText, hread, readMemory_memoryText]
      rfl
  | address r =>
      rw [operandText, String.toList_append]
      cases r <;> decide
  | target s => cases ho

/--
An operand has no comma in it and does not start with a blank, so that the operands of a line can be
told apart.
-/
theorem separable_operandText {o : Operand} (ho : o.isTarget = false) :
    Separable (operandText o) := by
  cases o with
  | reg r w =>
      have hall : ∀ part ∈ parts, Separable ("%" ++ part.1.name part.2) := by decide
      exact hall (r, w) (mem_parts r w)
  | imm value =>
      have hvalue := numeric_int value.toInt
      rw [operandText]
      refine ⟨?_, ?_⟩
      · simpa [String.toList_append] using hvalue.comma
      · rw [String.toList_append]
        exact (by decide : some '$' ≠ some ' ')
  | mem m =>
      obtain ⟨displacement, hd, htext⟩ := memoryText_eq m
      -- the texts of the bases have no comma, by evaluation, nor has a number
      have hall : ∀ b ∈ bases, ',' ∉ (baseTexts b).1.toList ∧ ',' ∉ (baseTexts b).2.toList := by
        decide
      obtain ⟨hbefore, hafter⟩ := hall m.base (mem_bases _)
      rw [operandText]
      refine ⟨?_, fun hblank => absurd (head?_memoryText hblank) (by decide)⟩
      rw [htext]
      simp [hbefore, hafter, hd.comma]
  | address r =>
      rw [operandText]
      cases r <;> decide
  | target s => cases ho

/-! ## Instructions -/

/-- The mnemonics that are written in a way of their own. -/
def ownMnemonics : List (String × Opcode) :=
  [("movzbq", .movzx), ("movzwq", .movzx), ("cqto", .cqo)]

def readMnemonic (text : List Char) : Option Opcode :=
  (readOpcode text).or ((readName ownMnemonics Prod.fst text).map Prod.snd)

def width? : Operand → Option Width
  | .reg _ w => some w
  | _ => none

/-- The width of an access: the mnemonic has it, or else a register beside the access. -/
def accessWidth (mnemonic : List Char) (operands : List Operand) : Width :=
  if mnemonic = "movzbq".toList then .byte
  else if mnemonic = "movzwq".toList then .word
  else (operands.findSome? width?).getD .qword

/-- An instruction that stays in line, by its mnemonic and the texts of its operands. -/
def readInLine (mnemonic : List Char) (texts : List (List Char)) : Option Instruction :=
  let operands := texts.reverse.filterMap readOperand
  (readMnemonic mnemonic).map fun op =>
    ⟨op, operands.map (resize (accessWidth mnemonic operands))⟩

/-- Giving all accesses a width twice is giving them the last one. -/
theorem map_resize_resize (w w' : Width) (operands : List Operand) :
    (operands.map (resize w')).map (resize w) = operands.map (resize w) := by
  rw [List.map_map]
  refine List.map_congr_left fun o _ => ?_
  cases o <;> rfl

theorem accessWidth_resize (mnemonic : List Char) (w : Width) (operands : List Operand) :
    accessWidth mnemonic (operands.map (resize w)) = accessWidth mnemonic operands := by
  have hwidth : width? ∘ resize w = width? := by
    funext o
    cases o <;> rfl
  rw [accessWidth, accessWidth, List.findSome?_map, hwidth]

/-- The width that is left out of an access can be told from what is there. -/
theorem accessWidth_eq {i : Instruction} (h : i.Formed) {m : Memory} (hm : .mem m ∈ i.operands) :
    accessWidth (mnemonic i).toList i.operands = m.width := by
  -- one case for each form; in those with an access, the mnemonic or a register has its width
  cases h with
  | load r m' =>
      simp at hm
      subst hm
      show accessWidth "mov".toList _ = _
      rfl
  | store m' r =>
      simp at hm
      subst hm
      show accessWidth "mov".toList _ = _
      rfl
  | extend r m' hw =>
      simp [Reg.whole] at hm
      subst hm
      obtain ⟨base, displacement, width⟩ := m
      rcases hw with rfl | rfl
      · show accessWidth "movzbq".toList _ = _
        rfl
      · show accessWidth "movzwq".toList _ = _
        rfl
  | address r m' hw =>
      simp [Reg.whole] at hm
      subst hm
      show accessWidth "lea".toList _ = _
      exact hw.symm
  | _ => simp [Reg.whole, jump] at hm

/--
The mnemonic of an instruction that stays in line is one, it is not that of a transfer, and the
opcode is read back from it.
-/
theorem mnemonic_instruction (i : Instruction) (h : i.opcode.transfers = false) :
    Mnemonic (mnemonic i) ∧ readTransfer (mnemonic i).toList = none ∧
      readMnemonic (mnemonic i).toList = some i.opcode := by
  unfold mnemonic
  split
  · next hop _ =>
    rw [hop]
    exact ⟨⟨by decide, by decide⟩, by decide, by decide⟩
  · next hop _ =>
    rw [hop]
    exact ⟨⟨by decide, by decide⟩, by decide, by decide⟩
  · next hop =>
    rw [hop]
    exact ⟨⟨by decide, by decide⟩, by decide, by decide⟩
  · refine ⟨.of_opcode _, readTransfer_mnemonic h, ?_⟩
    rw [readMnemonic, readOpcode_mnemonic]
    rfl

/-- So the operands have the width of the access already. -/
theorem map_resize_accessWidth {i : Instruction} (h : i.Formed) :
    i.operands.map (resize (accessWidth (mnemonic i).toList i.operands)) = i.operands := by
  refine (List.map_congr_left fun o ho => ?_).trans (List.map_id _)
  cases o with
  | mem m =>
      rw [accessWidth_eq h ho]
      rfl
  | _ => rfl

/-- An instruction of one of the forms that stays in line is read back. -/
theorem readInstruction_instruction {i : Instruction} (h : i.Formed) (hi : i.InLine) :
    readInstruction readInLine (instruction i).toList = some i := by
  obtain ⟨hmnemonic, htransfer, hopcode⟩ := mnemonic_instruction i hi.opcode
  have hseparable : ∀ text ∈ i.operands.reverse.map operandText, Separable text := by
    intro text htext
    obtain ⟨o, ho, rfl⟩ := List.mem_map.mp htext
    exact separable_operandText (hi.isTarget (List.mem_reverse.mp ho))
  -- operands are written the other way round, and read back as accesses of whole words
  have hoperands : ((i.operands.reverse.map operandText).map String.toList).reverse.filterMap
      readOperand = i.operands.map (resize .qword) := by
    rw [← List.map_reverse, ← List.map_reverse, List.reverse_reverse, List.map_map,
      List.filterMap_map, ← List.filterMap_eq_map]
    exact List.filterMap_congr fun o ho => readOperand_operandText (hi.isTarget ho)
  rw [instruction, readInstruction_inLine hmnemonic htransfer hseparable]
  simp only [readInLine]
  rw [hoperands, hopcode, Option.map_some, accessWidth_resize, map_resize_resize,
    map_resize_accessWidth h]

/-! ## Values -/

def readChunk : List Char → Option Chunk
  | '\t' :: '.' :: 'z' :: 'e' :: 'r' :: 'o' :: ' ' :: text => some (.zero (readInt text).toNat)
  | '\t' :: '.' :: 'q' :: 'u' :: 'a' :: 'd' :: ' ' :: text =>
    some (.quad (.ofInt 64 (readInt text)))
  | _ => none

/-- A value of a region is read back from its directive. -/
theorem readChunk_chunk (c : Chunk) : readChunk (chunk c).toList = some c := by
  cases c with
  | zero bytes =>
      have hread : readChunk ("\t.zero ".toList ++ (toString bytes).toList) =
          some (.zero (readInt (toString bytes).toList).toNat) := rfl
      rw [chunk, String.toList_append, hread, (numeric_nat bytes).read, Int.toNat_natCast]
  | quad value =>
      have hread : readChunk ("\t.quad ".toList ++ (toString value.toInt).toList) =
          some (.quad (.ofInt 64 (readInt (toString value.toInt).toList))) := rfl
      rw [chunk, String.toList_append, hread, (numeric_int _).read, BitVec.ofInt_toInt]

end Quadword.Gas
