import Quadword.Proofs.Assembly.Output
import Quadword.Proofs.Lowering.Forms

/-!
# Every instruction can be encoded

An instruction has room for one access to memory, and it holds displacements and immediates in
fields of 32 bits, except that `movabs` holds a whole word. An assembler that is given a number too
large for its field rejects the line or cuts the number off, so lowering has to stay within these
limits. For programs that were read it does: literals too large have an opcode of their own, the
offsets of slots are limited by the grammar, and the numbers that a call brings in grow with its
arguments only.

* **`Instruction.Encodable`**: the limits.
* **`Instruction.Encodable.encoded_eq`**: within them, an instruction reaches the processor
  unchanged.
* **`Emitted.encodable`**: what is emitted keeps to them, if statements bring in small numbers.
* **`Source.compile_encodable`**: so does every instruction in the text of a source.
-/

namespace Quadword

/-! ## Limits -/

/-- The width of a register or of an access to memory. -/
def Operand.width? : Operand → Option Width
  | .reg _ w => some w
  | .mem m => some m.width
  | _ => none

def Operand.isMemory : Operand → Bool
  | .mem _ => true
  | _ => false

namespace Instruction

/-- What an instruction has to look like for it to have an encoding. -/
structure Encodable (i : Instruction) : Prop where
  /-- At most one operand is in memory. -/
  memory : i.operands.countP Operand.isMemory ≤ 1
  displacement : ∀ m, .mem m ∈ i.operands → 0 ≤ m.displacement ∧ m.displacement ≤ 2147483647
  immediate : i.opcode ≠ .movabs → ∀ v : Word, .imm v ∈ i.operands →
    -2147483648 ≤ v.toInt ∧ v.toInt ≤ 2147483647
  /-- A full immediate, or the address of a region, goes to a whole register. -/
  movabs : i.opcode = .movabs → ∃ (r : Reg) (o : Operand), i.operands = [.reg r .qword, o] ∧
    ((∃ v, o = .imm v) ∨ ∃ region, o = .address region)
  /-- A load that extends takes one or two bytes from memory and fills a whole register. -/
  movzx : i.opcode = .movzx → ∃ (r : Reg) (m : Memory), i.operands = [.reg r .qword, .mem m] ∧
    (m.width = .byte ∨ m.width = .word)
  /-- The count of a shift is in `cl`. -/
  shift : i.opcode ∈ [.shl, .sar, .shr] → ∃ d, i.operands = [d, .reg .rcx .byte]
  /-- Otherwise, two operands that have a width have the same. -/
  widths : i.opcode ∉ [.movzx, .shl, .sar, .shr] → ∀ a b, i.operands = [a, b] →
    ∀ v w, a.width? = some v → b.width? = some w → v = w

end Instruction

/-! ## What becomes of numbers -/

/-- What a field of 32 bits makes of a number. -/
def inField (n : Int) : Int := (BitVec.ofInt 32 n).toInt

/-- A number that 32 bits can hold with a sign is what such a field stands for. -/
theorem inField_eq {n : Int} (hlow : -2147483648 ≤ n) (hhigh : n ≤ 2147483647) :
    inField n = n := by
  show (BitVec.ofInt 32 n).toInt = n
  rw [BitVec.toInt_ofInt]
  exact Int.bmod_eq_of_le (by omega) (by omega)

/-- The operand after its numbers have been put into fields. -/
def Operand.encoded : Operand → Operand
  | .imm v => .imm (BitVec.ofInt 64 (inField v.toInt))
  | .mem m => .mem { m with displacement := inField m.displacement }
  | o => o

namespace Instruction

/-- The instruction that a processor finds where this one was written. -/
def encoded (i : Instruction) : Instruction :=
  -- only this opcode has a field for a whole word
  if i.opcode = .movabs then i else { i with operands := i.operands.map Operand.encoded }

/--
An instruction that can be encoded reaches the processor as it is: its numbers are cut to their
fields, and that does not change them.
-/
theorem Encodable.encoded_eq {i : Instruction} (h : i.Encodable) : i.encoded = i := by
  unfold encoded
  by_cases hop : i.opcode = .movabs
  · rw [if_pos hop]
  · rw [if_neg hop]
    -- both fields are wide enough, so reading them back gives the operand
    have hoperands : i.operands.map Operand.encoded = i.operands.map id := by
      refine List.map_congr_left fun o ho => ?_
      cases o with
      | imm v =>
          obtain ⟨hlow, hhigh⟩ := h.immediate hop v ho
          show Operand.imm (BitVec.ofInt 64 (inField v.toInt)) = .imm v
          rw [inField_eq hlow hhigh, BitVec.ofInt_toInt]
      | mem m =>
          obtain ⟨hlow, hhigh⟩ := h.displacement m ho
          show Operand.mem { m with displacement := inField m.displacement } = .mem m
          rw [inField_eq (by omega) hhigh]
      | _ => rfl
    rw [hoperands, List.map_id]

end Instruction

/-- Whether the numbers in an operand fit into fields. -/
def Operand.inRange : Operand → Bool
  | .imm v => Word.fitsImmediate v
  | .mem m => 0 ≤ m.displacement && m.displacement ≤ 2147483647
  | _ => true

/-- An immediate is in range if a field of 32 bits, extended by its sign, can hold it. -/
theorem Operand.inRange_imm {v : Word} :
    (Operand.imm v).inRange = true ↔ -2147483648 ≤ v.toInt ∧ v.toInt ≤ 2147483647 := by
  show Word.fitsImmediate v = true ↔ _
  rw [Word.fitsImmediate, Bool.and_eq_true, decide_eq_true_iff, decide_eq_true_iff]

/--
So is an access with a displacement that is not negative and fits. The displacement of a slot never
is negative.
-/
theorem Operand.inRange_mem {m : Memory} :
    (Operand.mem m).inRange = true ↔ 0 ≤ m.displacement ∧ m.displacement ≤ 2147483647 := by
  show (decide (0 ≤ m.displacement) && decide (m.displacement ≤ 2147483647)) = true ↔ _
  rw [Bool.and_eq_true, decide_eq_true_iff, decide_eq_true_iff]

/-- A number that fits into a field does so as a word. -/
theorem inRange_ofInt {n : Int} (hlow : -2147483648 ≤ n) (hhigh : n ≤ 2147483647) :
    (Operand.imm (BitVec.ofInt 64 n)).inRange = true := by
  have hn : (BitVec.ofInt 64 n).toInt = n := by
    rw [BitVec.toInt_ofInt]
    exact Int.bmod_eq_of_le (by omega) (by omega)
  rw [Operand.inRange_imm, hn]
  exact ⟨hlow, hhigh⟩

theorem inRange_ofNat {n : Nat} (h : n ≤ 2147483647) :
    (Operand.imm (BitVec.ofNat 64 n)).inRange = true := by
  rw [← BitVec.ofInt_natCast]
  exact inRange_ofInt (by omega) (by omega)

theorem inRange_neg {n : Nat} (h : n ≤ 2147483647) :
    (Operand.imm (-BitVec.ofNat 64 n)).inRange = true := by
  rw [← BitVec.ofInt_natCast, ← BitVec.ofInt_neg]
  exact inRange_ofInt (by omega) (by omega)

/-! ## What is emitted -/

/-- The offset of a slot that can be reached is a displacement. -/
theorem Frame.memory_inRange {f : Frame} {s : Slot} {m : Memory} (h : f.memory s = .ok m) :
    (Operand.mem m).inRange = true := by
  rw [memory] at h
  split at h
  · next hoffset =>
    have hle : (s.offset.toNat : Int) ≤ 2147483647 := Int.ofNat_le.mpr hoffset
    have hdisplacement : m.displacement = s.offset.toNat := by
      split at h <;> (cases h; rfl)
    rw [Operand.inRange_mem, hdisplacement]
    omega
  · cases h

theorem BinOp.apply_inRange (op : BinOp) : ∀ i ∈ op.apply, ∀ o ∈ i.operands, o.inRange = true := by
  cases op with
  | div s | rem s | shr s => cases s <;> decide
  | _ => decide

/-- Making room for a call is in range if the room is. -/
theorem reserve_inRange {space : Nat} (h : space ≤ 2147483647) :
    ∀ i ∈ reserve space, ∀ o ∈ i.operands, o.inRange = true := by
  have hnone := List.forall_mem_nil fun o : Operand => o.inRange = true
  simp only [reserve, List.forall_mem_cons]
  exact ⟨⟨rfl, rfl, hnone⟩, ⟨rfl, rfl, hnone⟩, ⟨rfl, rfl, hnone⟩, ⟨rfl, inRange_ofNat h, hnone⟩,
    List.forall_mem_nil _⟩

theorem release_inRange {space : Nat} (h : space ≤ 2147483647) :
    ∀ i ∈ release space, ∀ o ∈ i.operands, o.inRange = true := by
  have hnone := List.forall_mem_nil fun o : Operand => o.inRange = true
  simp only [release, List.forall_mem_cons]
  exact ⟨⟨rfl, inRange_ofNat h, hnone⟩, ⟨rfl, rfl, hnone⟩, List.forall_mem_nil _⟩

/--
Apart from full words, the numbers in an instruction fit into fields. For the space of a call and
for an alignment, this is so as long as the extent is within one.
-/
theorem Emitted.inRange {extent : Nat} {i : Instruction} (h : Emitted extent i)
    (hextent : extent ≤ 2147483647) :
    i.opcode = .movabs ∨ ∀ o ∈ i.operands, o.inRange = true := by
  -- most forms have two operands
  have hpair : ∀ {a b : Operand}, a.inRange = true → b.inRange = true →
      ∀ o ∈ [a, b], o.inRange = true := fun ha hb =>
    List.forall_mem_cons.mpr ⟨ha, List.forall_mem_singleton.mpr hb⟩
  cases h with
  | number value wide reg =>
      unfold loadNumber
      split
      · exact .inl rfl
      · next hmoved =>
        have hfits : Word.fitsImmediate value = true := by simp_all
        exact .inr (hpair rfl hfits)
  | copy reg r => exact .inr (hpair rfl rfl)
  | base f r reg =>
      unfold Frame.loadBase
      split
      · exact .inl rfl
      · exact .inr (hpair rfl rfl)
  | load hm reg => exact .inr (hpair rfl (Frame.memory_inRange hm))
  | loadIndirect w reg => cases w <;> exact .inr (hpair rfl rfl)
  | unary op reg => exact .inr (List.forall_mem_singleton.mpr rfl)
  | binary op hi => exact .inr (op.apply_inRange i hi)
  | store hm => exact .inr (hpair (Frame.memory_inRange hm) rfl)
  | storeIndirect w => exact .inr (hpair rfl rfl)
  | compare => exact .inr (hpair rfl rfl)
  | reserve hspace hi => exact .inr (reserve_inRange (Nat.le_trans hspace hextent) i hi)
  | release hspace hi => exact .inr (release_inRange (Nat.le_trans hspace hextent) i hi)
  | @argument index hindex =>
      -- the slot of an argument is above the home space, within a reservation that fits
      refine .inr (hpair (Operand.inRange_mem.mpr ?_) rfl)
      show 0 ≤ (homeSpace : Int) + 8 * index ∧ (homeSpace : Int) + 8 * index ≤ 2147483647
      omega
  | align hboundary => exact .inr (hpair rfl (inRange_neg (Nat.le_trans hboundary hextent)))
  | transfer _ s => exact .inr (List.forall_mem_singleton.mpr rfl)
  | nop => exact .inr nofun

namespace Instruction.Formed

variable {i : Instruction}

theorem countP_isMemory (h : i.Formed) : i.operands.countP Operand.isMemory ≤ 1 := by
  cases h <;> exact of_decide_eq_true rfl

/-- An extension by zeros is that of an access to a byte or to two of them. -/
theorem movzx_operands (h : i.Formed) (hop : i.opcode = .movzx) : ∃ (r : Reg) (m : Memory),
    i.operands = [r.whole, .mem m] ∧ (m.width = .byte ∨ m.width = .word) := by
  cases h with
  | extend r m hw => exact ⟨r, m, rfl, hw⟩
  | load | store | address | wide | base => cases hop
  | bare h | single h | registers h | shift h | immediate h | transfer h =>
      cases hop
      exact absurd h (by decide)

/-- A shift is by the lowest byte of `rcx`, the only register that the encoding has for it. -/
theorem shift_operands (h : i.Formed) (hop : i.opcode ∈ [.shl, .sar, .shr]) :
    ∃ d, i.operands = [d, .reg .rcx .byte] := by
  have hcases : i.opcode = .shl ∨ i.opcode = .sar ∨ i.opcode = .shr := by simpa using hop
  cases h with
  | shift h r => exact ⟨r.whole, rfl⟩
  | load | store | extend | address | wide | base => rcases hcases with hop | hop | hop <;> cases hop
  | bare h | single h | registers h | immediate h | transfer h =>
      rcases hcases with hop | hop | hop <;> (cases hop; exact absurd h (by decide))

/-- Of two operands with a width, both have the same, unless the opcode asks for something else. -/
theorem width_eq (h : i.Formed) (hop : i.opcode ∉ [.movzx, .shl, .sar, .shr]) {a b : Operand}
    (hab : i.operands = [a, b]) {v w : Width} (ha : a.width? = some v) (hb : b.width? = some w) :
    v = w := by
  -- both widths are that of the form, and other forms have at most one operand with a width
  cases h with
  | registers | load | store =>
      cases hab
      cases ha
      cases hb
      rfl
  | address r m hw =>
      cases hab
      cases ha
      cases hb
      exact hw.symm
  | immediate | wide | base =>
      cases hab
      cases hb
  | shift h r => exact absurd (List.mem_cons_of_mem _ h) hop
  | extend => exact absurd (List.mem_cons_self ..) hop
  | bare | single | transfer => cases hab

end Instruction.Formed

/-- What is emitted can be encoded, if a statement brings in no number that is too large. -/
theorem Emitted.encodable {extent : Nat} {i : Instruction} (h : Emitted extent i)
    (hextent : extent ≤ 2147483647) : i.Encodable := by
  have hformed := h.formed
  have hrange := h.inRange hextent
  refine ⟨hformed.countP_isMemory, fun m hm => ?_, fun hop v hv => ?_, hformed.movabs_operands,
    hformed.movzx_operands, hformed.shift_operands,
    fun hop a b hab v w ha hb => hformed.width_eq hop hab ha hb⟩
  · rcases hrange with hop | hrange
    · -- a full word is an immediate or an address, never in memory
      obtain ⟨r, o, hoperands, ⟨v, rfl⟩ | ⟨region, rfl⟩⟩ := hformed.movabs_operands hop
      · simp [hoperands, Reg.whole] at hm
      · simp [hoperands, Reg.whole] at hm
    · exact Operand.inRange_mem.mp (hrange _ hm)
  · exact Operand.inRange_imm.mp ((hrange.resolve_left hop) _ hv)

/-! ## Sources -/

/-- What a call brings in is limited by the number of its arguments. -/
theorem shadowSpace_le {n : Nat} (h : n < 2 ^ 27) : shadowSpace n ≤ 2147483647 := by
  show (32 + 8 * (n - 4) + 15) / 16 * 16 ≤ 2147483647
  omega

/--
The numbers that a statement of the grammar needs in its code are in range. Only a call could go
beyond, with more arguments than the bound allows.
-/
theorem Grammar.StatementOf.extent_le {ts : List Token} {s : Statement}
    (h : Grammar.StatementOf ts s)
    (hcalls : ∀ name arguments output, s = .syscall name arguments output →
      arguments.length < 2 ^ 27) : s.extent ≤ 2147483647 := by
  cases h with
  | align hn => rcases hn with rfl | rfl <;> decide
  | syscall name _ => exact shadowSpace_le (hcalls _ _ _ rfl)
  | syscallTo name _ _ => exact shadowSpace_le (hcalls _ _ _ rfl)
  | _ => exact Nat.zero_le _

/--
**Every instruction can be encoded.** In the text of a source, for every target, each instruction
has at most one operand in memory, keeps its numbers within the fields for them and has operands
whose widths agree, as long as no call has 2²⁷ arguments or more. So what an assembler puts into a
field is what the processor finds there.
-/
theorem Source.compile_encodable {src : Source} {t : Target} {text : String}
    (h : src.compile t = .ok text)
    (hcalls : ∀ p, src.parse = .ok p → ∀ s ∈ p.statements, ∀ name arguments output,
      s.value = .syscall name arguments output → arguments.length < 2 ^ 27) :
    ∃ p l, src.parse = .ok p ∧ p.lower t.addressing = .ok l ∧
      t.dialect.style.text t.annotate l = text ∧
      ∀ i, .instruction i ∈ l.code → i.Encodable ∧ i.encoded = i := by
  obtain ⟨p, l, hparse, hlower, htext⟩ := compile_eq_ok_iff.mp h
  refine ⟨p, l, hparse, hlower, htext, fun i hi => ?_⟩
  have hencodable : i.Encodable := by
    rcases Program.lower_emits hlower hi with ⟨s, hs, hemitted⟩ | hemitted
    · -- the tokens of a statement bound its numbers, apart from how many arguments there are
      obtain ⟨⟨ts, hof⟩, -⟩ := statementOf_of_parse hparse (List.mem_map_of_mem hs)
      exact hemitted.encodable (hof.extent_le (hcalls p hparse s hs))
    · exact hemitted.encodable (by decide)
  exact ⟨hencodable, hencodable.encoded_eq⟩

/--
The last offset there is, the first literal that takes a full word, and a call with arguments on the
stack.
-/
theorem Source.compile_encodable_limits :
    let src := Source.ofText
      "s[2147483647] = -(m8[sp] /s 0x80000000)\nalign 16\ns[8] = syscall Beep, 1, 2, 3, 4, c[8], data"
    let t : Target := ⟨.gas, .relative, true⟩
    ∃ text p l, src.compile t = .ok text ∧ src.parse = .ok p ∧
      (∀ s ∈ p.statements, ∀ name arguments output,
        s.value = .syscall name arguments output → arguments.length < 2 ^ 27) ∧
      p.lower t.addressing = .ok l ∧ ∀ i, .instruction i ∈ l.code → i.Encodable ∧ i.encoded = i := by
  intro src t
  have hpassed : Lexical.passed 200 (Text.stream
      "s[2147483647] = -(m8[sp] /s 0x80000000)\nalign 16\ns[8] = syscall Beep, 1, 2, 3, 4, c[8], data") =
      some [.id "s", .openSquare, .number 2147483647, .closeSquare, .assign, .binary .sub,
        .openParen, .id "m8", .openSquare, .keyword .sp, .closeSquare, .binary (.div .signed),
        .number 2147483648, .closeParen, .newline, .keyword .align, .number 16, .newline, .id "s",
        .openSquare, .number 8, .closeSquare, .assign, .keyword .syscall, .id "Beep", .comma,
        .number 1, .comma, .number 2, .comma, .number 3, .comma, .number 4, .comma, .id "c",
        .openSquare, .number 8, .closeSquare, .comma, .keyword .data, .newline] := by
    decide +kernel
  have hparsed : ∃ p, src.parse = .ok p ∧ p.data.map Located.value = [] ∧
      p.statements.map Located.value =
        [.assign (.slot ⟨.stack, 2147483647⟩) (.unary .neg
            (.binary (.div .signed) (.indirect .byte .sp) (.number 2147483648 false))),
          .align 16,
          .syscall "Beep" [.number 1 false, .number 2 false, .number 3 false, .number 4 false,
            .slot ⟨.region .const, 8⟩, .base .data] (some (.slot ⟨.stack, 8⟩))] :=
    Source.parse_of_passed hpassed (by decide +kernel) (by decide +kernel)
  obtain ⟨p, hparse, -, hss⟩ := hparsed
  have hcalls : ∀ s ∈ p.statements, ∀ name arguments output,
      s.value = .syscall name arguments output → arguments.length < 2 ^ 27 := by
    intro s hs name arguments output heq
    have hmem : s.value ∈ p.statements.map Located.value := List.mem_map_of_mem hs
    rw [hss, heq] at hmem
    simp only [List.mem_cons, List.not_mem_nil, reduceCtorEq, false_or, or_false] at hmem
    cases hmem
    decide
  -- the grammar accepts no operation where it could not be lowered, so the compiler succeeds
  obtain ⟨text, hcompile⟩ := Source.exists_compile hparse t
  obtain ⟨p', l, hparse', hlower, -, hencodable⟩ := compile_encodable hcompile fun q hq => by
    cases hparse.symm.trans hq
    exact hcalls
  cases hparse.symm.trans hparse'
  exact ⟨text, p, l, hcompile, hparse, hcalls, hlower, hencodable⟩

end Quadword
