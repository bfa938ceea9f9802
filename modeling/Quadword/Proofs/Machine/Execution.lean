import Quadword.Assembly.Lowering
import Quadword.Proofs.Machine.Arithmetic
import Quadword.Proofs.Machine.Memory

/-!
# Executing straight code

Code without jumps either comes to its end or faults. `Computes` says which of the two happens, in
terms of a value that may be missing: the code faults exactly if the value is missing, and else ends
in a machine that the value describes. `Keeps` says what such code leaves alone.

* **`Computes.bind`** follows code by code, as values follow each other in the meaning of programs.
* **`BinOp.apply_computes`**: the instructions of an operator compute what the operator means.

How instructions leave the flags is a parameter throughout, so nothing here depends on it.
-/

namespace Quadword

/-! ## Machines -/

namespace Machine

@[simp] theorem set_regs_self (m : Machine) (r : Reg) (v : Word) : (m.set r v).regs r = v :=
  if_pos rfl

theorem set_regs_of_ne (m : Machine) {r s : Reg} (v : Word) (h : s ≠ r) :
    (m.set r v).regs s = m.regs s :=
  if_neg h

@[simp] theorem set_ram (m : Machine) (r : Reg) (v : Word) : (m.set r v).ram = m.ram := rfl

/-- Gives the flags a value. -/
def setFlags (m : Machine) (fl : Flags) : Machine := { m with flags := fl }

@[simp] theorem setFlags_regs (m : Machine) (fl : Flags) : (m.setFlags fl).regs = m.regs := rfl

@[simp] theorem setFlags_flags (m : Machine) (fl : Flags) : (m.setFlags fl).flags = fl := rfl

/-- The state of a program whose stack pointer is in a register. -/
def state (m : Machine) (pointer : Reg) : State := ⟨m.regs pointer, m.ram⟩

end Machine

/-- Memory and all registers but the given ones are the same; flags do not count. -/
structure Keeps (clobbered : List Reg) (m m' : Machine) : Prop where
  regs : ∀ r, r ∉ clobbered → m'.regs r = m.regs r
  ram : m'.ram = m.ram

namespace Keeps

variable {clobbered more : List Reg} {m m' m'' : Machine}

theorem refl (clobbered : List Reg) (m : Machine) : Keeps clobbered m m :=
  ⟨fun _ _ => rfl, rfl⟩

theorem trans (h : Keeps clobbered m m') (h' : Keeps clobbered m' m'') :
    Keeps clobbered m m'' :=
  ⟨fun r hr => (h'.regs r hr).trans (h.regs r hr), h'.ram.trans h.ram⟩

theorem mono (h : Keeps clobbered m m') (hsub : clobbered ⊆ more) : Keeps more m m' :=
  ⟨fun r hr => h.regs r fun hmem => hr (hsub hmem), h.ram⟩

theorem set {r : Reg} (hr : r ∈ clobbered) (v : Word) : Keeps clobbered m (m.set r v) :=
  ⟨fun _ hs => m.set_regs_of_ne v fun heq => hs (heq ▸ hr), rfl⟩

theorem setFlags (h : Keeps clobbered m m') (fl : Flags) : Keeps clobbered m (m'.setFlags fl) :=
  ⟨h.regs, h.ram⟩

/--
The state of a program is kept as long as its stack pointer is in none of the registers that may
change.
-/
theorem state_eq {pointer : Reg} (h : Keeps clobbered m m') (hp : pointer ∉ clobbered) :
    m'.state pointer = m.state pointer := by
  unfold Machine.state
  rw [h.regs pointer hp, h.ram]

end Keeps

/-! ## Sequences -/

/-- Code in parts is executed part by part, and stops where the first part does not end. -/
theorem execAll_append (leftover : Leftover) (bases : Bases) (is js : List Instruction)
    (m : Machine) :
    execAll leftover bases (is ++ js) m =
      match execAll leftover bases is m with
      | .next m' => execAll leftover bases js m'
      | result => result := by
  induction is generalizing m with
  | nil => rfl
  | cons i is ih =>
      rw [List.cons_append, execAll, execAll]
      -- only a step to the next instruction goes on, and then the rest is by induction
      cases i.exec leftover bases m with
      | next m' => exact ih m'
      | _ => rfl

/-- The code faults if the value is missing, and else ends in a machine that goes with the value. -/
def Computes {α : Type} (leftover : Leftover) (bases : Bases) (code : List Instruction)
    (m : Machine) (result : Option α) (post : α → Machine → Prop) : Prop :=
  match result with
  | some v => ∃ m', execAll leftover bases code m = .next m' ∧ post v m'
  | none => execAll leftover bases code m = .fault

namespace Computes

variable {α β : Type} {leftover : Leftover} {bases : Bases} {code more : List Instruction}
  {m m' : Machine} {result : Option α} {post : α → Machine → Prop} {post' : β → Machine → Prop}

theorem nil {v : α} (h : post v m) : Computes leftover bases [] m (some v) post :=
  ⟨m, rfl, h⟩

/-- One instruction that is executed, and then the rest of the code. -/
theorem cons {i : Instruction} (hi : i.exec leftover bases m = .next m')
    (h : Computes leftover bases code m' result post) :
    Computes leftover bases (i :: code) m result post := by
  have hexec : execAll leftover bases (i :: code) m = execAll leftover bases code m' := by
    rw [execAll, hi]
  unfold Computes
  rw [hexec]
  exact h

theorem single {i : Instruction} {v : α} (hi : i.exec leftover bases m = .next m')
    (h : post v m') : Computes leftover bases [i] m (some v) post :=
  .cons hi (.nil h)

/--
**Code in parts computes what its parts do.** If the value of the first part is missing, all of the
code faults; else the second part goes on from any machine that goes with the value. In this way
code follows the meaning of expressions, in which values are missing in the same places.
-/
theorem bind {f : α → Option β} (h : Computes leftover bases code m result post)
    (hmore : ∀ v m', post v m' → Computes leftover bases more m' (f v) post') :
    Computes leftover bases (code ++ more) m (result >>= f) post' := by
  cases result with
  | none =>
      have hfault : execAll leftover bases code m = .fault := h
      show execAll leftover bases (code ++ more) m = .fault
      rw [execAll_append, hfault]
  | some v =>
      obtain ⟨m₁, hexec, hpost⟩ := h
      have hrest := hmore v m₁ hpost
      -- the first part has come to its end, so running both is running the second from there
      have happend : execAll leftover bases (code ++ more) m = execAll leftover bases more m₁ := by
        rw [execAll_append, hexec]
      show Computes leftover bases (code ++ more) m (f v) post'
      unfold Computes
      rw [happend]
      exact hrest

theorem mono {post₂ : α → Machine → Prop} (h : Computes leftover bases code m result post)
    (himp : ∀ v m', post v m' → post₂ v m') : Computes leftover bases code m result post₂ := by
  cases result with
  | none => exact h
  | some v =>
      obtain ⟨m₁, hexec, hpost⟩ := h
      exact ⟨m₁, hexec, himp v m₁ hpost⟩

/-- The code faults exactly if the value is missing. -/
theorem fault_iff (h : Computes leftover bases code m result post) :
    execAll leftover bases code m = .fault ↔ result = none := by
  cases result with
  | none => exact iff_of_true h rfl
  | some v =>
      obtain ⟨m₁, hexec, -⟩ := h
      rw [hexec]
      exact iff_of_false nofun nofun

end Computes

/-! ## Instructions -/

section Instructions

variable {leftover : Leftover} {bases : Bases} {m : Machine}

/--
A move reads one operand and writes another, and leaves the flags alone. It does not matter which of
the three opcodes for moves is used.
-/
theorem exec_move {op : Opcode} {d s : Operand} {v : Word} {m' : Machine}
    (hop : op ∈ [Opcode.mov, .movabs, .movzx]) (hs : m.value? bases s = some v)
    (hd : m.assign? bases v d = some m') :
    Instruction.exec ⟨op, [d, s]⟩ leftover bases m = .next m' := by
  have hcases : op = .mov ∨ op = .movabs ∨ op = .movzx := by simpa using hop
  have hresult : (m.value? bases s >>= fun v => m.assign? bases v d) = some m' := by
    rw [hs]
    exact hd
  have hexecute : m.execute bases ⟨op, [d, s]⟩ = .next m' := by
    rcases hcases with rfl | rfl | rfl <;> exact congrArg Result.ofOption hresult
  -- moves say what happens to the flags, so nothing is left over from before
  have hflags : op.definesFlags = true := by
    rcases hcases with rfl | rfl | rfl <;> rfl
  rw [Instruction.exec, hexecute]
  exact if_pos hflags

theorem exec_mov {s : Operand} {v : Word} (reg : Reg) (hs : m.value? bases s = some v) :
    Instruction.exec ⟨.mov, [reg.whole, s]⟩ leftover bases m = .next (m.set reg v) :=
  exec_move (by decide) hs rfl

theorem exec_movabs {s : Operand} {v : Word} (reg : Reg) (hs : m.value? bases s = some v) :
    Instruction.exec ⟨.movabs, [reg.whole, s]⟩ leftover bases m = .next (m.set reg v) :=
  exec_move (by decide) hs rfl

theorem value?_whole (r : Reg) : m.value? bases r.whole = some (m.regs r) := by
  rw [Reg.whole, Machine.value?, Word.low_qword]

theorem exec_mov_whole (reg r : Reg) :
    Instruction.exec ⟨.mov, [reg.whole, r.whole]⟩ leftover bases m = .next (m.set reg (m.regs r)) :=
  exec_mov reg (value?_whole r)

theorem exec_store (mem : Memory) (r : Reg) :
    Instruction.exec ⟨.mov, [.mem mem, .reg r mem.width]⟩ leftover bases m =
      .next { m with ram := m.ram.write mem.width (m.addressOf bases mem) (m.regs r) } := by
  rw [← Ram.write_low m.ram mem.width]
  exact exec_move (by decide) rfl rfl

/-- An instruction that combines a register with a literal. -/
theorem exec_combine_imm {f : Word → Word → Word} (op : Opcode) (reg : Reg) (v : Word)
    (hop : op.combine? = some f) :
    ∃ fl, Instruction.exec ⟨op, [reg.whole, .imm v]⟩ leftover bases m =
      .next ((m.set reg (f (m.regs reg) v)).setFlags fl) := by
  refine ⟨leftover ⟨op, [reg.whole, .imm v]⟩ m, ?_⟩
  rw [← Word.low_qword (m.regs reg)]
  cases op <;> cases hop <;> rfl

/-- An instruction that combines two registers. -/
theorem exec_combine_whole {f : Word → Word → Word} (op : Opcode) (reg r : Reg)
    (hop : op.combine? = some f) :
    ∃ fl, Instruction.exec ⟨op, [reg.whole, r.whole]⟩ leftover bases m =
      .next ((m.set reg (f (m.regs reg) (m.regs r))).setFlags fl) := by
  refine ⟨leftover ⟨op, [reg.whole, r.whole]⟩ m, ?_⟩
  rw [← Word.low_qword (m.regs reg), ← Word.low_qword (m.regs r)]
  cases op <;> cases hop <;> cases r <;> rfl

theorem exec_shift {f : Word → Word → Word} (op : Opcode) (reg : Reg)
    (hop : op.shift? = some f) :
    ∃ fl, Instruction.exec ⟨op, [reg.whole, .reg .rcx .byte]⟩ leftover bases m =
      .next ((m.set reg (f (m.regs reg) (Word.low (m.regs .rcx) .byte))).setFlags fl) := by
  refine ⟨leftover ⟨op, [reg.whole, .reg .rcx .byte]⟩ m, ?_⟩
  cases op <;> cases hop <;> rfl

theorem exec_cqo :
    Instruction.exec ⟨.cqo, []⟩ leftover bases m =
      .next (m.set .rdx (if (m.regs .rax).msb then -1 else 0)) := rfl

/-- Half a register combined with itself is cleared, and with it the whole register. -/
theorem exec_clear (reg : Reg) :
    ∃ fl, Instruction.exec ⟨.xor, [.reg reg .dword, .reg reg .dword]⟩ leftover bases m =
      .next ((m.set reg 0).setFlags fl) := by
  refine ⟨leftover ⟨.xor, [.reg reg .dword, .reg reg .dword]⟩ m, ?_⟩
  have hlow : Word.low (Word.low (m.regs reg) .dword ^^^ Word.low (m.regs reg) .dword) .dword = 0 := by
    rw [BitVec.xor_self]
    rfl
  rw [← hlow]
  cases reg <;> rfl

/--
A division ends in a fault or leaves its two results. It does not define the flags, so nothing is
said of them.
-/
theorem exec_divide {i : Instruction} {results : Option (Word × Word)}
    (hi : m.execute bases i = m.divided results) (hflags : i.opcode.definesFlags = false) :
    Computes leftover bases [i] m results fun r m' =>
      m'.regs .rax = r.1 ∧ m'.regs .rdx = r.2 ∧ Keeps [.rax, .rdx] m m' := by
  cases results with
  | none =>
      show execAll leftover bases [i] m = .fault
      rw [execAll, Instruction.exec, hi]
      rfl
  | some r =>
      -- the flags are what the division has left over, and no register but the two has changed
      have hexec : i.exec leftover bases m =
          .next (((m.set .rax r.1).set .rdx r.2).setFlags (leftover i m)) := by
        rw [Instruction.exec, hi]
        simp only [Machine.divided, hflags]
        rfl
      have hrax : Keeps [.rax, .rdx] m (m.set .rax r.1) := .set (by decide) r.1
      exact .single hexec ⟨rfl, rfl, (hrax.trans (.set (by decide) r.2)).setFlags _⟩

/-- A unary operator, applied to a register. -/
theorem exec_alter (op : UnOp) (reg : Reg) :
    ∃ fl, Instruction.exec ⟨op.opcode, [reg.whole]⟩ leftover bases m =
      .next ((m.set reg (op.eval (m.regs reg))).setFlags fl) := by
  rw [← Word.low_qword (m.regs reg)]
  cases op with
  | neg => exact ⟨leftover ⟨.neg, [reg.whole]⟩ m, rfl⟩
  | not => exact ⟨m.flags, rfl⟩

/--
A comparison sets the flags and nothing else. They are those of the manuals, as a difference leaves
them.
-/
theorem exec_cmp :
    Instruction.exec ⟨.cmp, raxRcx⟩ leftover bases m =
      .next (m.setFlags (.ofCompare (m.regs .rax) (m.regs .rcx))) := rfl

end Instructions

/-! ## Operators -/

section Operators

variable {leftover : Leftover} {bases : Bases}

/-- The count of a shift is taken from the low byte, which has all the bits that matter. -/
theorem Word.toNat_low_byte_mod (v : Word) : (Word.low v .byte).toNat % 64 = v.toNat % 64 := by
  have hv : v.toNat < 2 ^ 64 := v.isLt
  simp only [Word.low, Width.bits, BitVec.toNat_setWidth]
  omega

/-- An operator that is a single instruction computes its value in `rax`. -/
theorem combine_computes {f : Word → Word → Word} (op : Opcode) (hop : op.combine? = some f)
    (m : Machine) :
    Computes leftover bases [⟨op, raxRcx⟩] m (some (f (m.regs .rax) (m.regs .rcx))) fun v m' =>
      m'.regs .rax = v ∧ Keeps [.rax, .rdx] m m' := by
  obtain ⟨fl, hexec⟩ := exec_combine_whole op .rax .rcx hop
  exact .single hexec ⟨rfl, (Keeps.set (by decide) _).setFlags fl⟩

/-- A shift computes its value in `rax`, by the count in the lowest byte of `rcx`. -/
theorem shift_computes {f : Word → Word → Word} (op : Opcode) (hop : op.shift? = some f)
    (m : Machine) :
    Computes leftover bases [⟨op, raxCl⟩] m
      (some (f (m.regs .rax) (Word.low (m.regs .rcx) .byte))) fun v m' =>
      m'.regs .rax = v ∧ Keeps [.rax, .rdx] m m' := by
  obtain ⟨fl, hexec⟩ := exec_shift op .rax hop
  exact .single hexec ⟨rfl, (Keeps.set (by decide) _).setFlags fl⟩

/-- The quotient and the remainder of a division, or `none` if it faults. -/
def divisionResults : Signedness → Word → Word → Option (Word × Word)
  | .signed, a, b => if BinOp.divisionFaults a b then none else some (a.sdiv b, a.srem b)
  | .unsigned, a, b => if b = 0 then none else some (a.udiv b, a.umod b)

/--
**A division computes quotient and remainder**, or faults where they do not exist. The dividend of
the machine has two words, which the first instruction makes of the one in `rax`, by its sign or
with zeros.
-/
theorem divide_computes (sign : Signedness) (m : Machine) :
    Computes leftover bases (divide sign) m (divisionResults sign (m.regs .rax) (m.regs .rcx))
      fun r m' => m'.regs .rax = r.1 ∧ m'.regs .rdx = r.2 ∧ Keeps [.rax, .rdx] m m' := by
  -- `rdx` is set first, which changes neither operand
  have hset : ∀ v : Word, Keeps [.rax, .rdx] m (m.set .rdx v) := fun v => .set (by decide) v
  cases sign with
  | signed =>
      refine .cons exec_cqo ?_
      have hdivide := Machine.signedDivide?_extended (a := m.regs .rax) (m.regs .rcx)
        (m.set_regs_of_ne _ (by decide)) (m.set_regs_self .rdx _)
      rw [divisionResults, ← hdivide]
      refine (exec_divide rfl rfl).mono fun r m' hr => ⟨hr.1, hr.2.1, ?_⟩
      exact (hset _).trans hr.2.2
  | unsigned =>
      obtain ⟨fl, hexec⟩ := exec_clear .rdx
      refine .cons hexec ?_
      have hdivide := Machine.unsignedDivide?_extended (m := (m.set .rdx 0).setFlags fl)
        (a := m.regs .rax) (m.regs .rcx) rfl rfl
      rw [divisionResults, ← hdivide]
      refine (exec_divide rfl rfl).mono fun r m' hr => ⟨hr.1, hr.2.1, ?_⟩
      exact ((hset 0).setFlags fl).trans hr.2.2

theorem div_eval_eq (sign : Signedness) (a b : Word) :
    (BinOp.div sign).eval a b = divisionResults sign a b >>= fun r => some r.1 := by
  cases sign <;> rw [BinOp.eval, divisionResults] <;> split <;> rfl

theorem rem_eval_eq (sign : Signedness) (a b : Word) :
    (BinOp.rem sign).eval a b = divisionResults sign a b >>= fun r => some r.2 := by
  cases sign <;> rw [BinOp.eval, divisionResults] <;> split <;> rfl

/-- The instructions of an operator compute what the operator means, and fault where it does. -/
theorem BinOp.apply_computes (op : BinOp) (m : Machine) :
    Computes leftover bases op.apply m (op.eval (m.regs .rax) (m.regs .rcx)) fun v m' =>
      m'.regs .rax = v ∧ Keeps [.rax, .rdx] m m' := by
  -- one instruction combines, three shift by the low byte, and a division yields two results
  cases op with
  | add => exact combine_computes .add rfl m
  | sub => exact combine_computes .sub rfl m
  | mul => exact combine_computes .imul rfl m
  | and => exact combine_computes .and rfl m
  | or => exact combine_computes .or rfl m
  | xor => exact combine_computes .xor rfl m
  | shl =>
      rw [eval, ← Word.toNat_low_byte_mod]
      exact shift_computes .shl rfl m
  | shr sign =>
      cases sign with
      | signed =>
          rw [eval, ← Word.toNat_low_byte_mod]
          exact shift_computes .sar rfl m
      | unsigned =>
          rw [eval, ← Word.toNat_low_byte_mod]
          exact shift_computes .shr rfl m
  | div sign =>
      rw [div_eval_eq, apply, ← List.append_nil (divide sign)]
      exact (divide_computes sign m).bind fun r m' hr => .nil ⟨hr.1, hr.2.2⟩
  | rem sign =>
      rw [rem_eval_eq, apply]
      refine (divide_computes sign m).bind fun r m' hr => ?_
      obtain ⟨-, hrdx, hkeeps⟩ := hr
      refine .single (exec_mov_whole .rax .rdx) ⟨?_, hkeeps.trans (.set (by decide) _)⟩
      rw [Machine.set_regs_self, hrdx]

end Operators

end Quadword
