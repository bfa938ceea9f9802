import Quadword.Proofs.Lowering.Emission

/-!
# The forms of instructions

Lowering makes use of few forms of instructions. They leave no choice of widths: what is loaded or
stored has the width of the register beside it, the two loads that extend take a byte or two, and an
address is computed from no access at all. A full immediate and the address of a region have an
opcode to themselves.

* **`Instruction.Formed`**: the forms.
* **`Emitted.formed`**: whatever lowering emits has one of them.
-/

namespace Quadword

/-- The forms that instructions have, by the kinds of their operands. -/
inductive Instruction.Formed : Instruction → Prop where
  | bare {op : Opcode} (h : op ∈ [.cqo, .nop]) : Formed ⟨op, []⟩
  | single {op : Opcode} (h : op ∈ [.neg, .not, .idiv, .div]) (r : Reg) : Formed ⟨op, [r.whole]⟩
  | registers {op : Opcode} (h : op ∈ [.mov, .add, .sub, .imul, .and, .or, .xor, .cmp])
      (r s : Reg) (w : Width) : Formed ⟨op, [.reg r w, .reg s w]⟩
  | shift {op : Opcode} (h : op ∈ [.shl, .sar, .shr]) (r : Reg) :
      Formed ⟨op, [r.whole, .reg .rcx .byte]⟩
  | immediate {op : Opcode} (h : op ∈ [.mov, .add, .sub, .and]) (r : Reg) (value : Word) :
      Formed ⟨op, [r.whole, .imm value]⟩
  | load (r : Reg) (m : Memory) : Formed ⟨.mov, [.reg r m.width, .mem m]⟩
  | store (m : Memory) (r : Reg) : Formed ⟨.mov, [.mem m, .reg r m.width]⟩
  /-- A load that fills the register up with zeros. -/
  | extend (r : Reg) (m : Memory) (h : m.width = .byte ∨ m.width = .word) :
      Formed ⟨.movzx, [r.whole, .mem m]⟩
  | address (r : Reg) (m : Memory) (h : m.width = .qword) : Formed ⟨.lea, [r.whole, .mem m]⟩
  | wide (r : Reg) (value : Word) : Formed ⟨.movabs, [r.whole, .imm value]⟩
  | base (r : Reg) (region : Region) : Formed ⟨.movabs, [r.whole, .address region]⟩
  | transfer {op : Opcode} (h : op.transfers = true) (s : Symbol) : Formed (jump op s)

namespace Instruction.Formed

variable {i : Instruction}

/-- The ordinary opcode for moves takes no address of a region. -/
theorem ne_address (h : i.Formed) (hop : i.opcode = .mov) {o : Operand} (ho : o ∈ i.operands)
    (region : Region) : o ≠ .address region := by
  rintro rfl
  cases h with
  | base r _ => cases hop
  | transfer h _ =>
      cases hop
      cases h
  | _ => simp [Reg.whole] at ho

/-- The opcode for full immediates takes nothing else but addresses of regions. -/
theorem movabs_operands (h : i.Formed) (hop : i.opcode = .movabs) : ∃ (r : Reg) (o : Operand),
    i.operands = [r.whole, o] ∧ ((∃ value, o = .imm value) ∨ ∃ region, o = .address region) := by
  cases h with
  | wide r value => exact ⟨r, .imm value, rfl, .inl ⟨value, rfl⟩⟩
  | base r region => exact ⟨r, .address region, rfl, .inr ⟨region, rfl⟩⟩
  | load | store | extend | address => cases hop
  | bare h | single h | registers h | shift h | immediate h | transfer h =>
      cases hop
      exact absurd h (by decide)

/-- An address is computed from no access that could have a width. -/
theorem lea_width (h : i.Formed) (hop : i.opcode = .lea) {m : Memory} (hm : .mem m ∈ i.operands) :
    m.width = .qword := by
  cases h with
  | address r m' hw =>
      simp [Reg.whole] at hm
      exact hm ▸ hw
  | load | store | extend => cases hop
  | _ => simp [Reg.whole, jump] at hm

end Instruction.Formed

open Instruction

/-! ## What is emitted -/

/--
What combines two operands has one of the forms. A division has an instruction in front that extends
or clears, and a remainder has a move behind.
-/
theorem BinOp.apply_formed (op : BinOp) : ∀ i ∈ op.apply, i.Formed := by
  have hwhole : ∀ {opcode : Opcode},
      opcode ∈ [Opcode.mov, .add, .sub, .imul, .and, .or, .xor, .cmp] →
        ∀ i ∈ [(⟨opcode, raxRcx⟩ : Instruction)], i.Formed := fun h =>
    List.forall_mem_singleton.mpr (.registers h .rax .rcx .qword)
  have hshift : ∀ {opcode : Opcode}, opcode ∈ [Opcode.shl, .sar, .shr] →
      ∀ i ∈ [(⟨opcode, raxCl⟩ : Instruction)], i.Formed := fun h =>
    List.forall_mem_singleton.mpr (.shift h .rax)
  have hdivide : ∀ s, ∀ i ∈ divide s, i.Formed := by
    intro s
    cases s with
    | signed =>
        exact List.forall_mem_cons.mpr ⟨.bare (by decide),
          List.forall_mem_singleton.mpr (.single (by decide) .rcx)⟩
    | unsigned =>
        exact List.forall_mem_cons.mpr ⟨.registers (by decide) .rdx .rdx .dword,
          List.forall_mem_singleton.mpr (.single (by decide) .rcx)⟩
  -- a remainder is the quotient's code and a move from `rdx`
  cases op with
  | div s => exact hdivide s
  | rem s =>
      exact List.forall_mem_append.mpr ⟨hdivide s,
        List.forall_mem_singleton.mpr (.registers (by decide) .rax .rdx .qword)⟩
  | shl => exact hshift (by decide)
  | shr s => cases s <;> exact hshift (by decide)
  | _ => exact hwhole (by decide)

theorem Frame.memory_width {f : Frame} {s : Slot} {m : Memory} (h : f.memory s = .ok m) :
    m.width = .qword := by
  rw [memory] at h
  split at h
  · split at h <;> (cases h; rfl)
  · cases h

theorem reserve_formed (space : Nat) : ∀ i ∈ reserve space, i.Formed := by
  simp only [reserve, List.forall_mem_cons]
  exact ⟨.registers (by decide) .rbx .rsp .qword, .immediate (by decide) .rbx _,
    .registers (by decide) .rsp .rbx .qword, .immediate (by decide) .rsp _, List.forall_mem_nil _⟩

theorem release_formed (space : Nat) : ∀ i ∈ release space, i.Formed := by
  simp only [release, List.forall_mem_cons]
  exact ⟨.immediate (by decide) .rsp _, .registers (by decide) .rsp .rbx .qword,
    List.forall_mem_nil _⟩

/--
Whatever lowering emits has one of the forms. This is what an assembler has to accept, and what the
readers of the two dialects can rely on.
-/
theorem Emitted.formed {extent : Nat} {i : Instruction} (h : Emitted extent i) : i.Formed := by
  cases h with
  | number value wide reg =>
      unfold loadNumber
      split
      · exact .wide reg value
      · exact .immediate (by decide) reg value
  | copy reg r => exact .registers (by decide) reg r .qword
  | base f r reg =>
      unfold Frame.loadBase
      split
      · exact .base reg r
      · exact .address reg _ rfl
  | @load f s m hm reg =>
      have hload := Formed.load reg m
      rw [Frame.memory_width hm] at hload
      exact hload
  -- only the two narrow widths need an extending move
  | loadIndirect w reg =>
      cases w with
      | byte => exact .extend reg _ (.inl rfl)
      | word => exact .extend reg _ (.inr rfl)
      | dword => exact .load reg ⟨.reg .r11, 0, .dword⟩
      | qword => exact .load reg ⟨.reg .r11, 0, .qword⟩
  | unary op reg =>
      refine .single ?_ reg
      cases op <;> decide
  | binary op hi => exact op.apply_formed i hi
  | @store f s m hm =>
      have hstore := Formed.store m .rax
      rw [Frame.memory_width hm] at hstore
      exact hstore
  | storeIndirect w => exact .store ⟨.reg .r11, 0, w⟩ .rax
  | compare => exact .registers (by decide) .rax .rcx .qword
  | reserve _ hi => exact reserve_formed _ i hi
  | release _ hi => exact release_formed _ i hi
  | argument _ => exact .store ⟨.reg .rsp, _, .qword⟩ .rax
  | align _ => exact .immediate (by decide) .rsp _
  | transfer h s => exact .transfer h s
  | nop => exact .bare (by decide)

theorem Program.lower_formed {p : Program} {mode : Addressing} {l : Listing}
    (h : p.lower mode = .ok l) {i : Instruction} (hi : .instruction i ∈ l.code) : i.Formed := by
  rcases lower_emits h hi with ⟨s, -, hemitted⟩ | hemitted
  · exact hemitted.formed
  · exact hemitted.formed

end Quadword
