import Quadword.Proofs.Assembly.Reading
import Quadword.Proofs.Lowering.Forms

/-!
# Reading NASM

What NASM writes is read back. Two opcodes share a mnemonic, and a full immediate or the address of
a region among the operands tells which of them it is.

* **`Nasm.readOperand_operandText`**: an operand is read back.
* **`Nasm.readOpcode_instruction`**: the opcode is told by the operands.
* **`Nasm.readInstruction_instruction`**: an instruction of one of the forms is read back.
-/

namespace Quadword.Nasm

open Output Lexical

/-! ## Operands -/

/-- A base and a displacement from it, between brackets. -/
def readPlace (text : List Char) : Option (Base × Int) :=
  let address := readAddress (fun c => c ≠ '+' && c ≠ '-' && c ≠ ']') (text.drop 1)
  (readName bases baseText address.1).map (·, address.2.1)

/-- An operand by its text, read as an immediate, a memory operand, a region or a register. -/
def readOperand (text : List Char) : Option Operand :=
  if text.all isNumeral then some (.imm (.ofInt 64 (readInt text)))
  else if text.take 2 = ['s', 't'] then some (.imm (.ofInt 64 (readInt (text.drop 13))))
  else if text.contains '[' then
    (readPlace (text.dropWhile (· ≠ '['))).map fun place =>
      .mem ⟨place.1, place.2, (readName widths sizeName (text.takeWhile Char.isAlpha)).getD .qword⟩
  else if text.head? = some 'k' then (readRegion text).map .address
  else readReg text

/--
A displacement is written with its sign, or not at all if it is zero, and says its value in each
case.
-/
theorem numeric_displacementText (d : Int) : Numeric (displacementText d).toList d := by
  unfold displacementText
  split
  · next hzero => exact hzero ▸ numeric_empty
  · -- the sign is always written, so the number is read with it
    split
    · next hneg =>
      have hnumeric := numeric_minus d.natAbs
      rw [show -(d.natAbs : Int) = d by omega] at hnumeric
      exact hnumeric
    · next hpos =>
      have hnumeric := numeric_plus d.natAbs
      rw [show (d.natAbs : Int) = d by omega] at hnumeric
      exact hnumeric

theorem toList_addressText (m : Memory) : (addressText m).toList =
    '[' :: ((baseText m.base).toList ++ ((displacementText m.displacement).toList ++ [']'])) := by
  simp [addressText]

/-- A displacement starts with its sign, which ends the name of the base. -/
theorem head?_displacementText {d : Int} {c : Char}
    (h : c ∈ (displacementText d).toList.head?) : c = '-' ∨ c = '+' := by
  unfold displacementText at h
  split at h
  · cases h
  · split at h
    · rw [String.toList_append] at h
      exact .inl (Option.some.inj h).symm
    · rw [String.toList_append] at h
      exact .inr (Option.some.inj h).symm

/--
An address is read back as its base and displacement. The sign between them tells where the base
ends, and the two symbols of the regions are bases like a register.
-/
theorem readPlace_addressText (m : Memory) :
    readPlace (addressText m).toList = some (m.base, m.displacement) := by
  have hbase : ∀ c ∈ (baseText m.base).toList, (c ≠ '+' && c ≠ '-' && c ≠ ']') = true := by
    have hall : ∀ b ∈ bases, ∀ c ∈ (baseText b).toList, (c ≠ '+' && c ≠ '-' && c ≠ ']') = true := by
      decide
    exact hall m.base (mem_bases _)
  -- the name of the base ends at a sign or at the bracket
  have hstop : ∀ c ∈ ((displacementText m.displacement).toList ++ [']']).head?,
      (c ≠ '+' && c ≠ '-' && c ≠ ']') = false := by
    intro c hc
    rw [List.head?_append] at hc
    cases hhead : (displacementText m.displacement).toList.head? with
    | none =>
        rw [hhead] at hc
        cases hc
        rfl
    | some c' =>
        rw [hhead] at hc
        cases hc
        rcases head?_displacementText hhead with rfl | rfl <;> rfl
  have hafter : ∀ c ∈ [']'].head?, isNumeral c = false := by
    rintro c ⟨⟩
    rfl
  rw [readPlace, toList_addressText, List.drop_one, List.tail_cons,
    readAddress_eq hbase (numeric_displacementText _) hstop hafter,
    readName_name (by decide) (mem_bases m.base)]
  rfl

theorem readOperand_numeric {text : List Char} {n : Int} (h : Numeric text n) :
    readOperand text = some (.imm (.ofInt 64 n)) := by
  rw [readOperand, if_pos (List.all_eq_true.mpr h.numerals), h.read]

/--
A memory operand is read back, with the size that stands before it. The size is a word of its own,
so no address begins like one.
-/
theorem readOperand_memory {start : List Char} {w : Width} (m : Memory)
    (hstart : (start = [] ∧ w = .qword) ∨ start = (sizeName w).toList ++ [' ']) :
    readOperand (start ++ (addressText m).toList) = some (.mem { m with width := w }) := by
  have hplace := readPlace_addressText m
  rw [toList_addressText] at hplace ⊢
  generalize (baseText m.base).toList ++ _ = rest at hplace ⊢
  -- without a size in front, or with one of the four
  have hread : readOperand (start ++ '[' :: rest) = (readPlace ('[' :: rest)).map fun place =>
      .mem ⟨place.1, place.2, w⟩ := by
    rcases hstart with ⟨rfl, rfl⟩ | rfl
    · rfl
    · cases w <;> rfl
  rw [hread, hplace]
  rfl

/--
An operand is read back, but for the size that `lea` leaves out. Registers, numbers and symbols
differ in their first characters.
-/
theorem readOperand_operandText {op : Opcode} {o : Operand} (ho : o.isTarget = false)
    (hsize : ∀ m, op = .lea → o = .mem m → m.width = .qword) :
    readOperand (operandText op o).toList = some o := by
  cases o with
  | reg r w =>
      have hall : ∀ part ∈ parts, readOperand (part.1.name part.2).toList =
          some (.reg part.1 part.2) := by decide
      exact hall (r, w) (mem_parts r w)
  | imm value =>
      have hvalue := numeric_int value.toInt
      rw [operandText]
      split
      · -- the size stands in front of a full immediate
        have hread : readOperand ("strict qword ".toList ++ (toString value.toInt).toList) =
            some (.imm (.ofInt 64 (readInt (toString value.toInt).toList))) := rfl
        rw [String.toList_append, hread, hvalue.read, BitVec.ofInt_toInt]
      · rw [readOperand_numeric hvalue, BitVec.ofInt_toInt]
  | mem m =>
      rw [operandText]
      split
      · next hlea => exact readOperand_memory m (.inl ⟨rfl, hsize m hlea rfl⟩)
      · rw [String.toList_append, String.toList_append]
        exact readOperand_memory m (.inr rfl)
  | address r =>
      rw [operandText]
      cases r <;> decide
  | target s => cases ho

/-- An operand has no comma in it and does not start with a blank. -/
theorem separable_operandText {op : Opcode} {o : Operand} (ho : o.isTarget = false) :
    Separable (operandText op o) := by
  have hbase : ∀ b : Base, ',' ∉ (baseText b).toList := by
    have hall : ∀ b ∈ bases, ',' ∉ (baseText b).toList := by decide
    exact fun b => hall b (mem_bases b)
  have haddress : ∀ m : Memory, ',' ∉ (addressText m).toList := by
    intro m
    have hd := (numeric_displacementText m.displacement).comma
    simp [toList_addressText, hbase, hd]
  cases o with
  | reg r w =>
      have hall : ∀ part ∈ parts, Separable (part.1.name part.2) := by decide
      exact hall (r, w) (mem_parts r w)
  | imm value =>
      have hvalue := numeric_int value.toInt
      rw [operandText]
      split
      · refine ⟨?_, ?_⟩
        · simpa [String.toList_append] using hvalue.comma
        · rw [String.toList_append]
          exact (by decide : some 's' ≠ some ' ')
      · exact .of_numeric hvalue
  | mem m =>
      rw [operandText]
      split
      · -- with `lea`, the bracket comes first, and else the size does
        refine ⟨haddress m, ?_⟩
        rw [toList_addressText]
        exact (by decide : some '[' ≠ some ' ')
      · refine ⟨?_, ?_⟩
        · rw [String.toList_append, List.mem_append, not_or]
          refine ⟨?_, haddress m⟩
          cases m.width <;> decide
        · rw [String.append_assoc, String.toList_append]
          cases m.width <;> exact fun h => absurd (Option.some.inj h) (by decide)
  | address r =>
      rw [operandText]
      cases r <;> decide
  | target s => cases ho

/-! ## Instructions -/

/-- Whether an operand asks for the opcode that moves a full immediate. -/
def isWide (text : List Char) : Bool := text.take 2 = ['s', 't'] || text.head? = some 'k'

/-- An instruction that stays in line, by its mnemonic and the texts of its operands. -/
def readInLine (mnemonic : List Char) (texts : List (List Char)) : Option Instruction :=
  (readOpcode mnemonic).map fun op =>
    ⟨if op = .mov && texts.any isWide then .movabs else op, texts.filterMap readOperand⟩

/-- The operands of a plain move are not those of a wide one, apart from the address of a region. -/
theorem isWide_mov {o : Operand} (ho : o.isTarget = false) (haddress : ∀ r, o ≠ .address r) :
    isWide (operandText .mov o).toList = false := by
  cases o with
  | reg r w =>
      have hall : ∀ part ∈ parts, isWide (part.1.name part.2).toList = false := by decide
      exact hall (r, w) (mem_parts r w)
  | imm value =>
      have hvalue := numeric_int value.toInt
      show isWide (toString value.toInt).toList = false
      cases htext : (toString value.toInt).toList with
      | nil => rfl
      | cons c cs =>
          rw [htext] at hvalue
          -- a number starts neither with the `s` of a size nor with the `k` of a region
          have hs : c ≠ 's' := fun h => hvalue.head?_ne (c := 's') (by decide) (by rw [h]; rfl)
          have hk : c ≠ 'k' := fun h => hvalue.head?_ne (c := 'k') (by decide) (by rw [h]; rfl)
          simp [isWide, hs, hk]
  | mem m =>
      show isWide (sizeName m.width ++ " " ++ addressText m).toList = false
      rw [String.append_assoc, String.toList_append]
      cases m.width <;> rfl
  | address r => exact absurd rfl (haddress r)
  | target s => cases ho

/-- The immediate of a wide move is marked as such by the size in front of it. -/
theorem isWide_imm (value : Word) : isWide (operandText .movabs (.imm value)).toList = true := by
  show isWide ("strict qword " ++ toString value.toInt).toList = true
  rw [String.toList_append]
  rfl

/--
The address of a region marks a wide move by itself. So the two kinds of move, which have one
mnemonic, can be told apart.
-/
theorem isWide_address (r : Region) : isWide (operandText .movabs (.address r)).toList = true := by
  rw [operandText]
  cases r <;> rfl

/--
The operands tell the opcode where the mnemonic leaves a choice: `mov` also stands for the move of a
full word, and that one has an operand no other move has.
-/
theorem readOpcode_instruction {i : Instruction} (h : i.Formed) (hi : i.InLine) :
    (readOpcode (mnemonic i.opcode).toList).map (fun op =>
      if op = .mov && (i.operands.map fun o => (operandText i.opcode o).toList).any isWide then
        .movabs else op) = some i.opcode := by
  by_cases hwide : i.opcode = .movabs
  · -- a wide move has an operand that is marked, and no other move has
    obtain ⟨r, o, hoperands, ho⟩ := h.movabs_operands hwide
    have hlast : isWide (operandText .movabs o).toList = true := by
      rcases ho with ⟨value, rfl⟩ | ⟨region, rfl⟩
      · exact isWide_imm value
      · exact isWide_address region
    rw [hwide, hoperands]
    show (readOpcode (Opcode.mnemonic .mov).toList).map _ = _
    rw [readOpcode_mnemonic]
    simp [hlast]
  · have hmnemonic : mnemonic i.opcode = i.opcode.mnemonic := by
      unfold mnemonic
      split
      · next heq => exact absurd heq hwide
      · rfl
    -- this is where the addresses of regions must not occur in plain moves
    have hnarrow : i.opcode = .mov →
        (i.operands.map fun o => (operandText i.opcode o).toList).any isWide = false := by
      intro hmov
      rw [List.any_map, List.any_eq_false]
      intro o ho
      rw [hmov]
      simpa using isWide_mov (hi.isTarget ho) (h.ne_address hmov ho)
    rw [hmnemonic, readOpcode_mnemonic, Option.map_some]
    by_cases hmov : i.opcode = .mov
    · simp [hnarrow hmov]
    · simp [hmov]

/-- The mnemonic of an instruction that stays in line is one, and not that of a transfer. -/
theorem mnemonic_instruction (op : Opcode) (h : op.transfers = false) :
    Mnemonic (mnemonic op) ∧ readTransfer (mnemonic op).toList = none := by
  unfold mnemonic
  split
  · have htransfer : readTransfer (Opcode.mnemonic .mov).toList = none := readTransfer_mnemonic rfl
    exact ⟨.of_opcode .mov, htransfer⟩
  · exact ⟨.of_opcode op, readTransfer_mnemonic h⟩

/-- An instruction of one of the forms that stays in line is read back. -/
theorem readInstruction_instruction {i : Instruction} (h : i.Formed) (hi : i.InLine) :
    readInstruction readInLine (instruction i).toList = some i := by
  obtain ⟨hmnemonic, htransfer⟩ := mnemonic_instruction i.opcode hi.opcode
  have hseparable : ∀ text ∈ i.operands.map (operandText i.opcode), Separable text := by
    intro text htext
    obtain ⟨o, ho, rfl⟩ := List.mem_map.mp htext
    exact separable_operandText (hi.isTarget ho)
  have hoperands : (i.operands.map fun o => (operandText i.opcode o).toList).filterMap readOperand =
      i.operands := by
    refine filterMap_read fun o ho => readOperand_operandText (hi.isTarget ho) fun m hlea heq => ?_
    exact h.lea_width hlea (heq ▸ ho)
  -- the opcode is read together with the operands, since these may settle it
  obtain ⟨op, hop, hopcode⟩ := Option.map_eq_some_iff.mp (readOpcode_instruction h hi)
  rw [instruction, readInstruction_inLine hmnemonic htransfer hseparable, List.map_map]
  show readInLine _ (i.operands.map fun o => (operandText i.opcode o).toList) = some i
  rw [readInLine, hop, Option.map_some, hoperands, hopcode]

/-! ## Values -/

def readChunk : List Char → Option Chunk
  | '\t' :: 't' :: 'i' :: 'm' :: 'e' :: 's' :: ' ' :: text =>
    some (.zero (readInt (text.takeWhile isNumeral)).toNat)
  | '\t' :: 'd' :: 'q' :: ' ' :: text => some (.quad (.ofInt 64 (readInt text)))
  | _ => none

/--
A value of a region is read back from its directive: a word from its number, and a gap from the
number of times that a byte is repeated.
-/
theorem readChunk_chunk (c : Chunk) : readChunk (chunk c).toList = some c := by
  cases c with
  | zero bytes =>
      have hbytes := numeric_nat bytes
      -- the number ends at the blank behind it
      have hafter : ∀ c ∈ " db 0".toList.head?, isNumeral c = false := by
        rintro c ⟨⟩
        rfl
      have hread : readChunk ("\ttimes ".toList ++ ((toString bytes).toList ++ " db 0".toList)) =
          some (.zero (readInt (((toString bytes).toList ++ " db 0".toList).takeWhile
            isNumeral)).toNat) := rfl
      rw [chunk, String.toList_append, String.toList_append, List.append_assoc, hread,
        takeWhile_append_stop hbytes.numerals hafter, hbytes.read, Int.toNat_natCast]
  | quad value =>
      have hread : readChunk ("\tdq ".toList ++ (toString value.toInt).toList) =
          some (.quad (.ofInt 64 (readInt (toString value.toInt).toList))) := rfl
      rw [chunk, String.toList_append, hread, (numeric_int _).read, BitVec.ofInt_toInt]

end Quadword.Nasm
