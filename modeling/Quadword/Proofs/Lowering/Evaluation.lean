import Quadword.Proofs.Lowering.Encoding
import Quadword.Proofs.Lowering.Expression
import Quadword.Proofs.Lowering.Lowerable

/-!
# Loaded expressions evaluate as they should

Whatever expression can be loaded, of any depth and with operators on operators, its code does what
the expression means. That is so of the code as the processor gets it, too: literals that a field
would cut off are moved as full words, so encoding changes nothing.

* **`Expr.clobbers_eq`**: which registers a load may change, by whether an operator occurs.
* **`Frame.load_evaluates`**: the code faults where evaluation does, and else computes the value.
-/

namespace Quadword

/-- The registers that loading an expression may change, where it can be loaded. -/
theorem Expr.clobbers_eq {e : Expr} {reg : Reg} (h : e.fits reg = true) :
    e.clobbers reg = if e.hasOperation then operationScratch else [reg, .r11] := by
  unfold clobbers
  by_cases hops : e.operations = 0
  · rw [if_pos hops, (operations_eq_zero_iff h).mp hops]
    rfl
  · have hoperation : e.hasOperation = true := by
      rw [operations_eq_zero_iff h] at hops
      exact eq_true_of_ne_false hops
    rw [if_neg hops, if_pos hoperation]

theorem Frame.load_encoded {f : Frame} {e : Expr} {reg : Reg} {code : List Instruction}
    (h : f.load e reg = .ok code) : ∀ i ∈ code, i.encoded = i := by
  intro i hi
  -- loading brings in no numbers beside those of literals and slots
  have hemitted : Emitted 0 i := load_emits h i hi
  exact (hemitted.encodable (by decide)).encoded_eq

/--
**Loading an expression evaluates it.** For every expression that can be loaded into a register, and
every machine: the code faults exactly if evaluating the expression in the state of the machine
does. Otherwise it comes to its end with the value in the register, and with memory, the stack
pointer and all registers unchanged but the register itself and `r11`, or, if an operator occurs in
the expression, but `rax`, `rcx`, `rdx`, `r10` and `r11`. All of the code reaches the processor as
it is.
-/
theorem Frame.load_evaluates {mode : Addressing} {e : Expr} {reg : Reg} {code : List Instruction}
    (hreg : reg ∈ [Reg.rax, .rcx, .rdx, .r8, .r9, .r11])
    (hload : Frame.load ⟨mode, .rsp⟩ e reg = .ok code) (leftover : Leftover) (bases : Bases)
    (m : Machine) :
    (execAll leftover bases code m = .fault ↔ e.eval bases (m.state .rsp) = none) ∧
    (∀ v, e.eval bases (m.state .rsp) = some v → ∃ m', execAll leftover bases code m = .next m' ∧
      m'.regs reg = v ∧ m'.ram = m.ram ∧ m'.regs .rsp = m.regs .rsp ∧
      (e.hasOperation = false → ∀ r, r ∉ [reg, .r11] → m'.regs r = m.regs r) ∧
      (e.hasOperation = true → ∀ r, r ∉ [Reg.rax, .rcx, .rdx, .r10, .r11] →
        m'.regs r = m.regs r)) ∧
    ∀ i ∈ code, i.encoded = i := by
  have hclobbers := Expr.clobbers_eq (fits_of_load hload)
  have hpointer : Reg.rsp ∉ e.clobbers reg := by
    rw [hclobbers]
    split
    · decide
    · -- neither the register nor `r11` is the stack pointer
      intro hrsp
      rcases List.mem_cons.mp hrsp with rfl | hrsp
      · exact absurd hreg (by decide)
      · exact absurd hrsp (by decide)
  have hcomputes : Computes leftover bases code m (e.eval bases (m.state .rsp)) _ :=
    load_computes hload hpointer m
  -- with a value the code runs to the end, and the registers that count are outside its clobbers
  refine ⟨hcomputes.fault_iff, fun v hv => ?_, load_encoded hload⟩
  rw [hv] at hcomputes
  obtain ⟨m', hexec, hvalue, hkeeps⟩ := hcomputes
  refine ⟨m', hexec, hvalue, hkeeps.ram, hkeeps.regs .rsp hpointer, fun hop r hr => ?_,
    fun hop r hr => ?_⟩
  · rw [hclobbers, hop] at hkeeps
    exact hkeeps.regs r hr
  · rw [hclobbers, hop] at hkeeps
    exact hkeeps.regs r hr

/--
A negated remainder of a product, with an access through an address that is itself in memory and a
literal too large for a field, and a quotient that faults.
-/
theorem Frame.load_evaluates_nested :
    let e : Expr := .unary .neg (.binary (.rem .signed)
      (.binary .mul (.indirect .word (.slot ⟨.stack, 8⟩)) .sp) (.unary .not (.number 4294967296 false)))
    let faulty : Expr := .binary (.div .signed) e (.number 0 false)
    let m : Machine := ⟨fun _ => 4096, ⟨false, false, false, false⟩, fun a => a.setWidth 8⟩
    ∃ code broken m', Frame.load ⟨.relative, .rsp⟩ e .rax = .ok code ∧
      execAll (fun _ m => m.flags) (fun _ => 0) code m = .next m' ∧
      m'.regs .rax = -9469952 ∧ m'.ram = m.ram ∧ m'.regs .rsp = 4096 ∧ m'.regs .r9 = 4096 ∧
      Frame.load ⟨.relative, .rsp⟩ faulty .rax = .ok broken ∧
      execAll (fun _ m => m.flags) (fun _ => 0) broken m = .fault := by
  intro e faulty m
  have hvalue : e.eval (fun _ => 0) (m.state .rsp) = some (-9469952) := by decide
  have hmissing : faulty.eval (fun _ => 0) (m.state .rsp) = none := by decide
  -- both expressions can be loaded, whether they have a value or not
  obtain ⟨code, hcode⟩ := isOk_iff.mp (Frame.load_isOk ⟨.relative, .rsp⟩ e .rax)
  obtain ⟨broken, hbroken⟩ := isOk_iff.mp (Frame.load_isOk ⟨.relative, .rsp⟩ faulty .rax)
  obtain ⟨-, hruns, -⟩ := load_evaluates (by decide) hcode (fun _ m => m.flags) (fun _ => 0) m
  obtain ⟨m', hexec, hrax, hram, hrsp, -, hregs⟩ := hruns _ hvalue
  obtain ⟨hfaults, -⟩ := load_evaluates (by decide) hbroken (fun _ m => m.flags) (fun _ => 0) m
  exact ⟨code, broken, m', hcode, hexec, hrax, hram, hrsp, hregs rfl .r9 (by decide), hbroken,
    hfaults.mpr hmissing⟩

end Quadword
