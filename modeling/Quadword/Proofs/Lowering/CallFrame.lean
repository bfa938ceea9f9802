import Quadword.Proofs.Lowering.Discipline
import Quadword.Proofs.Lowering.Lowerable

/-!
# The stack of the program during a call

While the arguments on the stack are stored, `r10` stands in for the stack pointer, which has moved.
An operator keeps its left operand in the same register. Lowering refuses operators in the arguments
that go to registers, but not in those on the stack, where the two uses of `r10` meet: after such an
argument the stack of the program can no longer be reached.

* **`Frame.load_keeps`**, **`Frame.load_writes_r10`**: loading writes `r10` exactly for operators.
* **`stackArguments_reads`**: without operators, arguments are read through the old stack pointer.
* **`Statement.syscall_keeps_frame_iff`**: the calls that keep `r10` to themselves.
* **`Statement.syscall_loses_frame`**: a call that does not, and passes the wrong word.
-/

namespace Quadword

/-! ## Registers that loading writes -/

/-- An instruction whose destination is a register writes no other, unless its opcode does. -/
theorem Instruction.writes_eq_false {op : Opcode} {reg r : Reg} {w : Width} {ds : List Operand}
    (himplicit : op.implicit = []) (hr : r ≠ reg) :
    writes ⟨op, .reg reg w :: ds⟩ r = false := by
  have hpart : (Operand.reg reg w).isPartOf r = false := decide_eq_false hr.symm
  unfold writes
  rw [himplicit]
  rcases destination?_cons op (.reg reg w) ds with h | h <;> simp [h, hpart]

namespace Frame

variable {f : Frame} {e : Expr} {reg r : Reg} {code : List Instruction}

/--
Without operators, loading writes the register and `r11` only. So arguments of that kind leave `r10`
alone, in which the stack pointer of the caller is kept.
-/
theorem load_keeps (h : f.load e reg = .ok code) (hop : e.hasOperation = false)
    (hr : r ∉ [reg, .r11]) : ∀ i ∈ code, i.writes r = false := by
  -- each form writes its own register last, and before it at most `r11`, for an address
  induction e generalizing reg code with
  | number value wide =>
      cases h
      refine List.forall_mem_singleton.mpr ?_
      unfold loadNumber
      split <;> exact Instruction.writes_eq_false rfl (List.ne_of_not_mem_cons hr)
  | sp =>
      cases h
      exact List.forall_mem_singleton.mpr
        (Instruction.writes_eq_false rfl (List.ne_of_not_mem_cons hr))
  | base region =>
      cases h
      refine List.forall_mem_singleton.mpr ?_
      unfold loadBase
      split <;> exact Instruction.writes_eq_false rfl (List.ne_of_not_mem_cons hr)
  | slot s =>
      obtain ⟨m, -, h⟩ := bind_eq_ok.mp h
      cases h
      exact List.forall_mem_singleton.mpr
        (Instruction.writes_eq_false rfl (List.ne_of_not_mem_cons hr))
  | indirect width address ih =>
      obtain ⟨code, hcode, h⟩ := bind_eq_ok.mp h
      cases h
      -- the address is loaded into `r11` whatever the register of the value is
      have hr11 : r ∉ [Reg.r11, .r11] := by simp_all
      refine List.forall_mem_append.mpr ⟨ih hcode hop hr11, List.forall_mem_singleton.mpr ?_⟩
      cases width <;> exact Instruction.writes_eq_false rfl (List.ne_of_not_mem_cons hr)
  | unary op operand ih =>
      obtain ⟨code, hcode, h⟩ := bind_eq_ok.mp h
      cases h
      refine List.forall_mem_append.mpr ⟨ih hcode hop hr, List.forall_mem_singleton.mpr ?_⟩
      cases op <;> exact Instruction.writes_eq_false rfl (List.ne_of_not_mem_cons hr)
  | binary op left right _ _ => cases hop

/--
An operator puts its left operand into `r10`, whatever surrounds it. This is where the stack pointer
of the caller is lost.
-/
theorem load_writes_r10 (h : f.load e reg = .ok code) (hop : e.hasOperation = true) :
    ∃ i ∈ code, i.writes .r10 = true := by
  induction e generalizing reg code with
  | indirect width address ih =>
      obtain ⟨code, hcode, h⟩ := bind_eq_ok.mp h
      cases h
      obtain ⟨i, hi, hwrites⟩ := ih hcode hop
      exact ⟨i, List.mem_append_left _ hi, hwrites⟩
  | unary op operand ih =>
      obtain ⟨code, hcode, h⟩ := bind_eq_ok.mp h
      cases h
      obtain ⟨i, hi, hwrites⟩ := ih hcode hop
      exact ⟨i, List.mem_append_left _ hi, hwrites⟩
  | binary op left right _ _ =>
      -- the left operand waits in `r10` while the right one is loaded
      rw [load] at h
      split at h
      · obtain ⟨l, -, h⟩ := bind_eq_ok.mp h
        obtain ⟨r, -, h⟩ := bind_eq_ok.mp h
        cases h
        exact ⟨⟨.mov, [Reg.r10.whole, Reg.rax.whole]⟩, by simp [BinOp.combine], by decide⟩
      · cases h
  | _ => cases hop

/--
The register arguments hold no operators, so loading them leaves `r10` alone. They do not fit their
registers otherwise.
-/
theorem loadArguments_keeps_r10 {arguments : List (Expr × Reg)}
    (h : f.loadArguments arguments = .ok code) (hregs : ∀ a ∈ arguments, a.2 ∈ Reg.arguments) :
    ∀ i ∈ code, i.writes .r10 = false := by
  induction arguments generalizing code with
  | nil =>
      cases h
      exact nofun
  | cons a arguments ih =>
      obtain ⟨ha, hregs⟩ := List.forall_mem_cons.mp hregs
      obtain ⟨first, hfirst, h⟩ := bind_eq_ok.mp h
      obtain ⟨more, hmore, h⟩ := bind_eq_ok.mp h
      cases h
      -- an argument register is neither `rax`, where operators fit, nor one that is written here
      have hother : ∀ r ∈ Reg.arguments, r ≠ .rax ∧ Reg.r10 ∉ [r, .r11] := by decide
      have hfits := Expr.fitsRegister_of_fits (fits_of_load hfirst) (hother a.2 ha).1
      exact List.forall_mem_append.mpr
        ⟨load_keeps hfirst hfits.operation (hother a.2 ha).2, ih hmore hregs⟩

/-- Storing arguments on the stack writes `r10` exactly if there is an operator in one of them. -/
theorem stackArguments_keeps_r10_iff {index : Nat} {arguments : List Expr}
    (h : f.stackArguments index arguments = .ok code) :
    (∀ i ∈ code, i.writes .r10 = false) ↔ ∀ a ∈ arguments, a.hasOperation = false := by
  induction arguments generalizing index code with
  | nil =>
      cases h
      exact iff_of_true nofun nofun
  | cons a arguments ih =>
      obtain ⟨first, hfirst, h⟩ := bind_eq_ok.mp h
      obtain ⟨more, hmore, h⟩ := bind_eq_ok.mp h
      cases h
      have ha : (∀ i ∈ first, i.writes .r10 = false) ↔ a.hasOperation = false := by
        constructor
        · intro hkeeps
          refine eq_false_of_ne_true fun hop => ?_
          obtain ⟨i, hi, hwrites⟩ := load_writes_r10 hfirst hop
          rw [hkeeps i hi] at hwrites
          cases hwrites
        · exact fun hop => load_keeps hfirst hop (by decide)
      rw [List.forall_mem_append, List.forall_mem_cons, List.forall_mem_cons, ha, ih hmore]
      -- the store itself writes memory
      exact and_congr_right fun _ => and_iff_right rfl

end Frame

/-! ## Reading through the old stack pointer -/

/--
Without operators, each argument on the stack is computed with the stack pointer that `r10` had at
the start, from memory as it is then.
-/
theorem stackArguments_reads {mode : Addressing} {index : Nat} {arguments : List Expr}
    {code : List Instruction} (hcode : Frame.stackArguments ⟨mode, .r10⟩ index arguments = .ok code)
    (hfits : ∀ a ∈ arguments, a.fits .r11 = true) {i : Nat} {a : Expr}
    (ha : arguments[i]? = some a) :
    ∃ earlier own later, code = earlier ++ own
        ++ ⟨.mov, [.mem ⟨.reg .rsp, homeSpace + 8 * ((index + i : Nat) : Int), .qword⟩,
          Reg.rax.whole]⟩ :: later ∧
      ∀ (leftover : Leftover) (bases : Bases) (m : Machine), ∃ m₁ m₂,
        execAll leftover bases earlier m = .next m₁ ∧ execAll leftover bases own m₁ = .next m₂ ∧
        a.eval bases ⟨m.regs .r10, m₁.ram⟩ = some (m₂.regs .rax) := by
  -- the argument is the first one, or it is in the rest, behind the store of the first
  induction arguments generalizing index code i with
  | nil => cases ha
  | cons b more ih =>
      obtain ⟨is, his, hcode⟩ := bind_eq_ok.mp hcode
      obtain ⟨js, hjs, hcode⟩ := bind_eq_ok.mp hcode
      cases hcode
      obtain ⟨hb, hmore⟩ := List.forall_mem_cons.mp hfits
      have hpointer : Reg.r10 ∉ [Reg.rax, .r11] := by decide
      cases i with
      | zero =>
          cases ha
          refine ⟨[], is, js, rfl, fun leftover bases m => ?_⟩
          obtain ⟨m₂, hexec, heval, -⟩ :
              Completes leftover bases is m _ := Frame.load_completes his hb hpointer m
          exact ⟨m, m₂, rfl, hexec, heval⟩
      | succ i =>
          obtain ⟨earlier, own, later, rfl, hruns⟩ := ih hjs hmore ha
          refine ⟨is ++ ⟨.mov, [.mem ⟨.reg .rsp, homeSpace + 8 * index, .qword⟩, Reg.rax.whole]⟩
            :: earlier, own, later, ?_, fun leftover bases m => ?_⟩
          · rw [show index + 1 + i = index + (i + 1) from by omega]
            simp
          · -- neither the argument before nor its store changes `r10`
            obtain ⟨m', hexec, -, hkeeps⟩ :
                Completes leftover bases is m _ := Frame.load_completes his hb hpointer m
            have hr10 : m'.regs .r10 = m.regs .r10 := hkeeps.regs .r10 hpointer
            obtain ⟨m₁, m₂, hearlier, hown, heval⟩ := hruns leftover bases { m' with
              ram := m'.ram.write .qword (slotAddress (m'.regs .rsp) index) (m'.regs .rax) }
            refine ⟨m₁, m₂, ?_, hown, ?_⟩
            · rw [execAll_append, hexec]
              simp only [execAll, exec_storeArgument]
              exact hearlier
            · rw [← hr10]
              exact heval

/-! ## Calls -/

section

variable {mode : Addressing} {name : String} {arguments : List Expr} {output : Option Place}

/-- With arguments on the stack, the code of a call keeps the stack pointer in `r10`. -/
theorem callHost_stacked {code : List Instruction}
    (h : callHost mode name arguments output = .ok code) (hstacked : 4 < arguments.length) :
    ∃ registers slots after, Frame.loadArguments ⟨mode, .rsp⟩ (arguments.zip Reg.arguments) =
        .ok registers ∧
      Frame.stackArguments ⟨mode, .r10⟩ 0 (arguments.drop 4) = .ok slots ∧
      code = registers ++ ⟨.mov, [Reg.r10.whole, Reg.rsp.whole]⟩ ::
        (reserve (shadowSpace arguments.length) ++ slots) ++ jump .call (.host name) :: after := by
  obtain ⟨registers, slots, after, hregisters, hslots, rfl, -⟩ := callHost_eq_ok h
  -- the frame is saved only if there are arguments for the stack
  have hsome : (arguments.drop Reg.arguments.length).isEmpty = false := by
    rw [List.isEmpty_eq_false_iff, List.ne_nil_iff_length_pos, List.length_drop]
    exact Nat.sub_pos_of_lt hstacked
  refine ⟨registers, slots, after, hregisters, hslots, ?_⟩
  rw [hsome]
  simp

/-- When the first argument on the stack is computed, the old stack pointer is in `r10`. -/
theorem saved_reserve_completes {leftover : Leftover} {bases : Bases} {registers : List Instruction}
    (hregisters : Frame.loadArguments ⟨mode, .rsp⟩ (arguments.zip Reg.arguments) = .ok registers)
    (hfits : ∀ a ∈ arguments, a.fits .r11 = true) (space : Nat) (m : Machine) :
    Completes leftover bases
      (registers ++ ⟨.mov, [Reg.r10.whole, Reg.rsp.whole]⟩ :: reserve space) m fun m' =>
        m'.regs .r10 = m.regs .rsp := by
  have hnodup := nodup_argumentRegisters arguments
  refine (Frame.loadArguments_completes hregisters
    (fun a ha => hfits a.1 (List.of_mem_zip ha).1) hnodup m).append fun m₁ h₁ => ?_
  have hrsp : m₁.regs .rsp = m.regs .rsp := h₁.2.regs .rsp (List.nodup_cons.mp hnodup).1
  refine .cons (exec_mov_whole .r10 .rsp) ((reserve_completes space _).mono fun m₂ h₂ => ?_)
  rw [h₂.2.2.regs .r10 (by decide), Machine.set_regs_self, hrsp]

/-- Without operators, the arguments on the stack are computed with the stack pointer as it was. -/
theorem reserved_stackArguments_reads {registers slots : List Instruction}
    (hregisters : Frame.loadArguments ⟨mode, .rsp⟩ (arguments.zip Reg.arguments) = .ok registers)
    (hslots : Frame.stackArguments ⟨mode, .r10⟩ 0 (arguments.drop 4) = .ok slots)
    (hfits : ∀ a ∈ arguments, a.fits .r11 = true) (space : Nat) {i : Nat} {a : Expr}
    (ha : arguments[4 + i]? = some a) :
    ∃ earlier own later, reserve space ++ slots = earlier ++ own
        ++ ⟨.mov, [.mem ⟨.reg .rsp, 32 + 8 * (i : Int), .qword⟩, Reg.rax.whole]⟩ :: later ∧
      ∀ (leftover : Leftover) (bases : Bases) (m : Machine), ∃ m₁ m₂,
        execAll leftover bases
          (registers ++ ⟨.mov, [Reg.r10.whole, Reg.rsp.whole]⟩ :: earlier) m = .next m₁ ∧
        execAll leftover bases own m₁ = .next m₂ ∧
        a.eval bases ⟨m.regs .rsp, m₁.ram⟩ = some (m₂.regs .rax) := by
  have hdrop : (arguments.drop 4)[i]? = some a := by
    rw [List.getElem?_drop]
    exact ha
  obtain ⟨earlier, own, later, rfl, hruns⟩ := stackArguments_reads hslots
    (fun a ha => hfits a (List.mem_of_mem_drop ha)) hdrop
  rw [Nat.zero_add]
  refine ⟨reserve space ++ earlier, own, later, ?_, fun leftover bases m => ?_⟩
  · simp only [List.append_assoc]
    rfl
  · -- behind the reservation `r10` still has the stack pointer of the caller
    obtain ⟨m₀, hsaved, hr10⟩ : Completes leftover bases _ m _ :=
      saved_reserve_completes hregisters hfits space m
    obtain ⟨m₁, m₂, hearlier, hown, heval⟩ := hruns leftover bases m₀
    refine ⟨m₁, m₂, ?_, hown, ?_⟩
    · rw [← List.cons_append, ← List.append_assoc, execAll_append, hsaved]
      exact hearlier
    · rw [← hr10]
      exact heval

/--
**Operators among the arguments on the stack take the frame away.** In the code of every call with
such arguments, the stack pointer is put into `r10` once the register arguments are loaded. What
stands from there to the call leaves `r10` alone exactly if there is no operator in an argument on
the stack. If so, each of these arguments is computed with the stack pointer from before the
statement, whatever the machine, and stored from `rax` into its slot.
-/
theorem Statement.syscall_keeps_frame_iff {fresh : Nat} {lines : List Line}
    (hlower : (Statement.syscall name arguments output).lower mode fresh = .ok lines)
    (hstacked : 4 < arguments.length) :
    ∃ before between after, lines = straight (before ++ ⟨.mov, [Reg.r10.whole, Reg.rsp.whole]⟩ ::
        between ++ jump .call (.host name) :: after) ∧
      (∀ i ∈ before, i.writes .r10 = false) ∧
      (∀ i ∈ before ++ between, i.opcode ≠ .call) ∧
      ((∀ i ∈ between, i.writes .r10 = false) ↔ ∀ a ∈ arguments.drop 4, a.hasOperation = false) ∧
      ((∀ a ∈ arguments.drop 4, a.hasOperation = false) →
        ∀ (i : Nat) (a : Expr), arguments[4 + i]? = some a → ∃ earlier own later,
          between = earlier ++ own
            ++ ⟨.mov, [.mem ⟨.reg .rsp, 32 + 8 * (i : Int), .qword⟩, Reg.rax.whole]⟩ :: later ∧
          ∀ (leftover : Leftover) (bases : Bases) (m : Machine), ∃ m₁ m₂,
            execAll leftover bases
              (before ++ ⟨.mov, [Reg.r10.whole, Reg.rsp.whole]⟩ :: earlier) m = .next m₁ ∧
            execAll leftover bases own m₁ = .next m₂ ∧
            a.eval bases ⟨m.regs .rsp, m₁.ram⟩ = some (m₂.regs .rax)) := by
  have hlowerable : (Statement.syscall name arguments output).Lowerable := by
    rw [← Statement.fits_iff_lowerable, ← Statement.lower_isOk mode fresh, hlower]
    rfl
  obtain ⟨hregister, hrax, -⟩ := hlowerable
  obtain ⟨code, hcode, h⟩ := bind_eq_ok.mp hlower
  cases h
  obtain ⟨registers, slots, after, hregisters, hslots, rfl⟩ := callHost_stacked hcode hstacked
  -- the frame is saved between the arguments in registers and those on the stack
  refine ⟨registers, reserve (shadowSpace arguments.length) ++ slots, after, rfl, ?_, ?_, ?_, ?_⟩
  · exact Frame.loadArguments_keeps_r10 hregisters fun a ha => (List.of_mem_zip ha).2
  · have hother : ∀ r ∈ Reg.arguments, r ≠ .rsp := by decide
    have hquiet : ∀ i ∈ registers, i.Quiet :=
      Frame.loadArguments_quiet hregisters fun a ha => hother a.2 (List.of_mem_zip ha).2
    simp only [List.forall_mem_append]
    exact ⟨fun i hi => (hquiet i hi).ne_call, fun i hi => (reserve_inLine _ i hi).1.ne_call,
      fun i hi => (Frame.stackArguments_quiet hslots i hi).ne_call⟩
  · have hreserve : ∀ i ∈ reserve (shadowSpace arguments.length), i.writes .r10 = false := by
      simp only [reserve, List.forall_mem_cons]
      exact ⟨rfl, rfl, rfl, rfl, List.forall_mem_nil _⟩
    rw [List.forall_mem_append, and_iff_right hreserve]
    exact Frame.stackArguments_keeps_r10_iff hslots
  · -- without an operation every argument can be loaded through any register
    intro hop i a ha
    have hfits : ∀ a ∈ arguments, a.fits .r11 = true := by
      intro a ha
      rw [← List.take_append_drop 4 arguments, List.mem_append] at ha
      rcases ha with ha | ha
      · exact (hregister a ha).fits .r11
      · exact ((hrax a ha).fitsRegister (hop a ha)).fits .r11
    exact reserved_stackArguments_reads hregisters hslots hfits _ ha

/-- Six arguments, the two on the stack read through the stack pointer, also inside an address. -/
theorem Statement.syscall_keeps_frame_plain :
    let arguments : List Expr := [.number 1 false, .number 2 false, .number 3 false,
      .number 4 false, .unary .neg (.slot ⟨.stack, 8⟩), .indirect .byte (.slot ⟨.stack, 0⟩)]
    ∃ lines, (Statement.syscall "Beep" arguments none).lower .relative 0 = .ok lines ∧
      4 < arguments.length ∧ (∀ a ∈ arguments.drop 4, a.hasOperation = false) ∧
      ∃ before between after, lines = straight (before ++
          ⟨.mov, [Reg.r10.whole, Reg.rsp.whole]⟩ :: between ++ jump .call (.host "Beep") :: after) ∧
        ∀ i ∈ between, i.writes .r10 = false := by
  intro arguments
  have hplain : ∀ a ∈ arguments.drop 4, a.hasOperation = false := by decide
  obtain ⟨lines, hlines⟩ := isOk_iff.mp
    (Statement.lower_isOk .relative 0 (.syscall "Beep" arguments none))
  obtain ⟨before, between, after, heq, -, -, hkeeps, -⟩ :=
    Statement.syscall_keeps_frame_iff hlines (by decide)
  exact ⟨lines, hlines, by decide, hplain, before, between, after, heq, hkeeps.mpr hplain⟩

/--
The sum of two slots as the fifth argument: the second slot is looked for at the value of the first
one, and 1 is passed instead of 3.
-/
theorem Statement.syscall_loses_frame :
    let sum : Expr := .binary .add (.slot ⟨.stack, 0⟩) (.slot ⟨.stack, 8⟩)
    let arguments : List Expr :=
      [.number 1 false, .number 2 false, .number 3 false, .number 4 false, sum]
    let m : Machine := ⟨fun _ => 4096, ⟨false, false, false, false⟩,
      fun a => if a = 4096 then 1 else if a = 4104 then 2 else 0⟩
    ∃ before between after m', (Statement.syscall "Beep" arguments none).lower .relative 0 =
        .ok (straight (before ++ ⟨.mov, [Reg.r10.whole, Reg.rsp.whole]⟩ :: between
          ++ jump .call (.host "Beep") :: after)) ∧
      (∃ i ∈ between, i.writes .r10 = true) ∧
      execAll (fun _ m => m.flags) (fun _ => 0)
        (before ++ ⟨.mov, [Reg.r10.whole, Reg.rsp.whole]⟩ :: between) m = .next m' ∧
      m'.regs .r10 ≠ m.regs .rsp ∧
      sum.eval (fun _ => 0) (m.state .rsp) = some 3 ∧
      m'.ram.read .qword (m'.regs .rsp + 32) = 1 := by
  intro sum arguments m
  -- the first slot goes to `r10`, so it is the frame when the second one is loaded
  refine ⟨[loadNumber 1 false .rcx, loadNumber 2 false .rdx, loadNumber 3 false .r8,
      loadNumber 4 false .r9], reserve 48 ++ BinOp.combine .add
        [⟨.mov, [Reg.rax.whole, .mem ⟨.reg .r10, 0, .qword⟩]⟩]
        [⟨.mov, [Reg.rcx.whole, .mem ⟨.reg .r10, 8, .qword⟩]⟩]
      ++ [⟨.mov, [.mem ⟨.reg .rsp, 32, .qword⟩, Reg.rax.whole]⟩], release 48, _, ?_, ?_, rfl, ?_⟩
  · decide
  · exact ⟨⟨.mov, [Reg.r10.whole, Reg.rax.whole]⟩, by decide, rfl⟩
  · decide

end

end Quadword
