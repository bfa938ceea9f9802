import Quadword.Program.Shape
import Quadword.Proofs.Lowering.Domain
import Quadword.Proofs.Machine.Execution

/-!
# Lowered expressions compute their values

Whatever an expression looks like, if it can be loaded at all then its code computes its value: it
faults where evaluation does, and else leaves the value in the register it was loaded into. The
other registers that the code may change are few, and memory is never changed.

* **`BinOp.combine_computes`**: an operation on two operands.
* **`Frame.load_computes`**: loading an expression.
* **`Frame.store_computes`**: storing `rax` into a place.
* **`Frame.move_computes`** and **`Frame.compare_computes`**: an assignment and a condition.
-/

namespace Quadword

/-! ## Clobbered registers -/

/-- The registers that an operation may change. -/
def operationScratch : List Reg := [.rax, .rcx, .rdx, .r10, .r11]

/-- The registers that loading an expression into a register may change. -/
def Expr.clobbers (e : Expr) (reg : Reg) : List Reg :=
  if e.operations = 0 then [reg, .r11] else operationScratch

theorem Expr.clobbers_of_operations_eq {e : Expr} (h : e.operations = 0) (reg : Reg) :
    e.clobbers reg = [reg, .r11] :=
  if_pos h

/-- What is loaded into a register other than `rax` holds no operation. -/
theorem Expr.operations_of_fits {e : Expr} {reg : Reg} (h : e.fits reg = true)
    (hreg : reg ≠ .rax) : e.operations = 0 := by
  induction e with
  | unary op operand ih => exact ih h
  | binary op left right _ _ => simp [fits, hreg] at h
  | _ => rfl

theorem Expr.clobbers_rax_subset (e : Expr) : e.clobbers .rax ⊆ operationScratch := by
  unfold clobbers
  split <;> decide

/--
Code that combines two operands. The left one waits in `r10` while the right one is loaded into
`rcx`, so loading the right one must leave `r10` alone.
-/
theorem BinOp.combine_computes {leftover : Leftover} {bases : Bases} {pointer : Reg}
    {l r : List Instruction} {left right : Expr} (op : BinOp)
    (hpointer : pointer ∉ operationScratch)
    (hl : ∀ m, Computes leftover bases l m (left.eval bases (m.state pointer)) fun a m' =>
      m'.regs .rax = a ∧ Keeps operationScratch m m')
    (hr : ∀ m, Computes leftover bases r m (right.eval bases (m.state pointer)) fun b m' =>
      m'.regs .rcx = b ∧ Keeps [.rcx, .r11] m m') (m : Machine) :
    Computes leftover bases (op.combine l r) m
      ((Expr.binary op left right).eval bases (m.state pointer))
      fun v m' => m'.regs .rax = v ∧ Keeps operationScratch m m' := by
  unfold BinOp.combine
  rw [List.append_assoc, Expr.eval]
  refine (hl m).bind fun a m₁ ha => .cons (exec_mov_whole .r10 .rax) ?_
  obtain ⟨hrax, hkeeps₁⟩ := ha
  have hkeeps₂ : Keeps operationScratch m (m₁.set .r10 (m₁.regs .rax)) :=
    hkeeps₁.trans (.set (by decide) _)
  -- both operands are evaluated in the state before the first of them
  rw [← hkeeps₂.state_eq hpointer]
  refine (hr _).bind fun b m₃ hb => .cons (exec_mov_whole .rax .r10) ?_
  obtain ⟨hrcx, hkeeps₃⟩ := hb
  have hkeeps₄ : Keeps operationScratch m (m₃.set .rax (m₃.regs .r10)) :=
    (hkeeps₂.trans (hkeeps₃.mono (by decide))).trans (.set (by decide) _)
  have hleft : (m₃.set .rax (m₃.regs .r10)).regs .rax = a := by
    rw [m₃.set_regs_self, hkeeps₃.regs .r10 (by decide), m₁.set_regs_self, hrax]
  have hright : (m₃.set .rax (m₃.regs .r10)).regs .rcx = b := by
    rw [m₃.set_regs_of_ne _ (by decide), hrcx]
  rw [← hleft, ← hright]
  exact (op.apply_computes _).mono fun v m' hv =>
    ⟨hv.1, hkeeps₄.trans (hv.2.mono (by decide))⟩

namespace Frame

variable {leftover : Leftover} {bases : Bases} {f : Frame}

/-- What has been loaded fits the register, so there is no case to consider in which it does not. -/
theorem fits_of_load {e : Expr} {reg : Reg} {code : List Instruction}
    (h : f.load e reg = .ok code) : e.fits reg = true := by
  rw [← load_isOk f e reg, h]
  rfl

/-! ## Slots and addresses -/

/--
The memory operand of a slot stands at the address of the slot, which is relative to the pointer of
the frame or to the start of a region.
-/
theorem addressOf_memory {s : Slot} {mem : Memory} (h : f.memory s = .ok mem) (bases : Bases)
    (m : Machine) :
    m.addressOf bases mem = s.address bases (m.regs f.pointer) ∧ mem.width = .qword := by
  have hoffset : BitVec.ofInt 64 (s.offset.toNat : Int) = s.offset := by simp
  unfold memory at h
  -- only an offset within the limit is lowered at all
  split at h
  · unfold Slot.address Machine.addressOf
    cases hspace : s.space with
    | stack =>
        rw [hspace] at h
        cases h
        exact ⟨congrArg (m.regs f.pointer + ·) hoffset, rfl⟩
    | region r =>
        rw [hspace] at h
        cases h
        exact ⟨congrArg (bases r + ·) hoffset, rfl⟩
  · cases h

theorem addressOf_r11 (m : Machine) (w : Width) :
    m.addressOf bases ⟨.reg .r11, 0, w⟩ = m.regs .r11 := by
  simp [Machine.addressOf]

/-! ## Expressions -/

/-- Loading a number puts it into the register, whichever of the two moves is used. -/
theorem exec_loadNumber (value : Word) (wide : Bool) (reg : Reg) (m : Machine) :
    (loadNumber value wide reg).exec leftover bases m = .next (m.set reg value) := by
  unfold loadNumber
  split
  · exact exec_movabs reg rfl
  · exact exec_mov reg rfl

/-- Loading a base puts the address of the region into the register, absolute or relative. -/
theorem exec_loadBase (r : Region) (reg : Reg) (m : Machine) :
    (f.loadBase r reg).exec leftover bases m = .next (m.set reg (bases r)) := by
  unfold loadBase
  split
  · exact exec_movabs reg rfl
  · rw [show bases r = bases r + BitVec.ofInt 64 0 from (BitVec.add_zero _).symm]
    rfl

/-- A load through an address fills the whole register. -/
theorem exec_loadIndirect (w : Width) (reg : Reg) (m : Machine) :
    (w.loadIndirect reg).exec leftover bases m =
      .next (m.set reg (m.ram.read w (m.regs .r11))) := by
  have hvalue : m.value? bases w.atAddress = some (m.ram.read w (m.regs .r11)) := by
    rw [Width.atAddress, Machine.value?, addressOf_r11]
  cases w with
  | byte => exact exec_move (by decide) hvalue rfl
  | word => exact exec_move (by decide) hvalue rfl
  | dword =>
      refine exec_move (by decide) hvalue ?_
      rw [Machine.assign?, Machine.setLow, Ram.read_low]
  | qword => exact exec_move (by decide) hvalue rfl

/--
Code that loads an expression computes its value into the register. The register that holds the
stack pointer must not be among those that the code makes use of.
-/
theorem load_computes {e : Expr} {reg : Reg} {code : List Instruction}
    (hload : f.load e reg = .ok code) (hpointer : f.pointer ∉ e.clobbers reg) (m : Machine) :
    Computes leftover bases code m (e.eval bases (m.state f.pointer)) fun v m' =>
      m'.regs reg = v ∧ Keeps (e.clobbers reg) m m' := by
  induction e generalizing reg code m with
  | number value wide =>
      cases hload
      exact .single (exec_loadNumber value wide reg m)
        ⟨m.set_regs_self reg _, .set (List.mem_cons_self ..) _⟩
  | sp =>
      cases hload
      exact .single (exec_mov_whole reg f.pointer)
        ⟨m.set_regs_self reg _, .set (List.mem_cons_self ..) _⟩
  | base r =>
      cases hload
      exact .single (exec_loadBase r reg m)
        ⟨m.set_regs_self reg _, .set (List.mem_cons_self ..) _⟩
  | slot s =>
      obtain ⟨mem, hmem, hcode⟩ := bind_eq_ok.mp hload
      cases hcode
      obtain ⟨haddress, hwidth⟩ := addressOf_memory hmem bases m
      have hvalue : m.value? bases (.mem mem) =
          some (m.ram.read .qword (s.address bases (m.regs f.pointer))) := by
        rw [Machine.value?, haddress, hwidth]
      exact .single (exec_mov reg hvalue)
        ⟨m.set_regs_self reg _, .set (List.mem_cons_self ..) _⟩
  | indirect width address ih =>
      obtain ⟨code', haddress, hcode⟩ := bind_eq_ok.mp hload
      cases hcode
      -- the address goes to `r11`, which an access may change in any case
      have hops := Expr.operations_of_fits (fits_of_load haddress) (by decide)
      rw [Expr.clobbers_of_operations_eq rfl] at hpointer ⊢
      have hsub : address.clobbers .r11 ⊆ [reg, .r11] := by
        rw [Expr.clobbers_of_operations_eq hops]
        simp
      refine (ih haddress (fun hmem => hpointer (hsub hmem)) m).bind fun a m' ha => ?_
      obtain ⟨hr11, hkeeps⟩ := ha
      refine .single (exec_loadIndirect width reg m') ⟨?_, ?_⟩
      · rw [m'.set_regs_self, hr11, hkeeps.ram]
        rfl
      · exact (hkeeps.mono hsub).trans (.set (List.mem_cons_self ..) _)
  | unary op operand ih =>
      obtain ⟨code', hoperand, hcode⟩ := bind_eq_ok.mp hload
      cases hcode
      refine (ih hoperand hpointer m).bind fun a m' ha => ?_
      obtain ⟨hreg, hkeeps⟩ := ha
      obtain ⟨fl, hexec⟩ := exec_alter op reg
      refine .single hexec ⟨?_, ?_⟩
      · rw [Machine.setFlags_regs, m'.set_regs_self, hreg]
      · -- the register is one that loading the operand may change
        have hmem : reg ∈ operand.clobbers reg := by
          unfold Expr.clobbers
          split
          · exact List.mem_cons_self ..
          · rename_i hops
            by_cases hrax : reg = .rax
            · rw [hrax]
              decide
            · exact absurd (Expr.operations_of_fits (fits_of_load hoperand) hrax) hops
        exact (hkeeps.trans (.set hmem _)).setFlags fl
  | binary op left right ihl ihr =>
      rw [load] at hload
      split at hload
      · rename_i hrax
        subst hrax
        obtain ⟨l, hl, hload⟩ := bind_eq_ok.mp hload
        obtain ⟨r, hr, hcode⟩ := bind_eq_ok.mp hload
        cases hcode
        have hclobbers : (Expr.binary op left right).clobbers .rax = operationScratch :=
          if_neg (by rw [Expr.operations]; omega)
        have hright := Expr.clobbers_of_operations_eq
          (Expr.operations_of_fits (fits_of_load hr) (by decide)) .rcx
        rw [hclobbers] at hpointer ⊢
        refine op.combine_computes hpointer (fun m => ?_) (fun m => ?_) m
        · have hleft : f.pointer ∉ left.clobbers .rax :=
            fun hmem => hpointer (left.clobbers_rax_subset hmem)
          exact (ihl hl hleft m).mono fun a m' ha => ⟨ha.1, ha.2.mono left.clobbers_rax_subset⟩
        · have hsub : [Reg.rcx, .r11] ⊆ operationScratch := by decide
          rw [← hright] at hsub ⊢
          exact ihr hr (fun hmem => hpointer (hsub hmem)) m
      · cases hload

/-! ## Places -/

/--
Code that stores into a place changes memory as the assignment does, and no register but `r11`.
-/
theorem store_computes {p : Place} {code : List Instruction} (hstore : f.store p = .ok code)
    (hpointer : f.pointer ≠ .r11) (m : Machine) :
    Computes leftover bases code m (p.assign bases (m.state f.pointer) (m.regs .rax))
      fun st m' => m'.state f.pointer = st ∧ ∀ r, r ≠ .r11 → m'.regs r = m.regs r := by
  -- a slot is stored to directly, any other place after its address is in `r11`
  cases p with
  | slot s =>
      rw [store] at hstore
      split at hstore
      · cases hstore
      · obtain ⟨mem, hmem, hcode⟩ := bind_eq_ok.mp hstore
        cases hcode
        obtain ⟨haddress, hwidth⟩ := addressOf_memory hmem bases m
        have hexec : Instruction.exec ⟨.mov, [.mem mem, .reg .rax mem.width]⟩ leftover bases m = _ :=
          exec_store mem .rax
        rw [hwidth, haddress] at hexec
        exact .single hexec ⟨rfl, fun _ _ => rfl⟩
  | indirect width address =>
      obtain ⟨code', haddress, hcode⟩ := bind_eq_ok.mp hstore
      cases hcode
      have hclobbers := Expr.clobbers_of_operations_eq
        (Expr.operations_of_fits (fits_of_load haddress) (by decide)) .r11
      refine (load_computes haddress (by simpa [hclobbers] using hpointer) m).bind
        fun a m' ha => ?_
      obtain ⟨hr11, hkeeps⟩ := ha
      rw [hclobbers] at hkeeps
      have hexec : Instruction.exec ⟨.mov, [width.atAddress, .reg .rax width]⟩ leftover bases m' = _ :=
        exec_store ⟨.reg .r11, 0, width⟩ .rax
      rw [addressOf_r11, hr11, hkeeps.ram, hkeeps.regs .rax (by decide)] at hexec
      -- only `r11` has changed, and the frame is not there
      have hregs : ∀ r, r ≠ .r11 → m'.regs r = m.regs r :=
        fun r hr => hkeeps.regs r (by simpa using hr)
      refine .single hexec ⟨?_, hregs⟩
      unfold Machine.state
      rw [hregs f.pointer hpointer]

/-! ## Assignments and conditions -/

/--
Code that moves a value into a place does what the assignment does, and faults exactly where that
does.
-/
theorem move_computes {target : Place} {value : Expr} {code : List Instruction}
    (hmove : f.move target value = .ok code) (hpointer : f.pointer ∉ operationScratch)
    (m : Machine) :
    Computes leftover bases code m
      (value.eval bases (m.state f.pointer) >>= fun v => target.assign bases (m.state f.pointer) v)
      fun st m' => m'.state f.pointer = st := by
  obtain ⟨l, hl, hmove⟩ := bind_eq_ok.mp hmove
  obtain ⟨s, hs, hcode⟩ := bind_eq_ok.mp hmove
  cases hcode
  -- the value is loaded without a change to the pointer, relative to which the place is then found
  have hvalue : f.pointer ∉ value.clobbers .rax :=
    fun hmem => hpointer (value.clobbers_rax_subset hmem)
  refine (load_computes hl hvalue m).bind fun v m' hv => ?_
  obtain ⟨hrax, hkeeps⟩ := hv
  rw [← hkeeps.state_eq hvalue, ← hrax]
  refine (store_computes hs ?_ m').mono fun st m'' hst => hst.1
  intro heq
  exact hpointer (by rw [heq]; decide)

/--
Code that compares leaves flags that decide the condition, and the state as it was. The comparison
comes last, so a jump may follow at once.
-/
theorem compare_computes {c : Condition} {code : List Instruction} (hcompare : f.compare c = .ok code)
    (hpointer : f.pointer ∉ operationScratch) (m : Machine) :
    Computes leftover bases code m (c.eval bases (m.state f.pointer)) fun holds m' =>
      c.comparison.cond.holds m'.flags = holds ∧ m'.state f.pointer = m.state f.pointer := by
  obtain ⟨l, hl, hcompare⟩ := bind_eq_ok.mp hcompare
  obtain ⟨r, hr, hcode⟩ := bind_eq_ok.mp hcompare
  cases hcode
  have hleft : f.pointer ∉ c.left.clobbers .rax :=
    fun hmem => hpointer (c.left.clobbers_rax_subset hmem)
  have hclobbers := Expr.clobbers_of_operations_eq
    (Expr.operations_of_fits (fits_of_load hr) (by decide)) .rcx
  have hsub : [Reg.rcx, .r11] ⊆ operationScratch := by decide
  have hright : f.pointer ∉ c.right.clobbers .rcx := by
    rw [hclobbers]
    exact fun hmem => hpointer (hsub hmem)
  unfold Condition.eval
  rw [List.append_assoc]
  refine (load_computes hl hleft m).bind fun a m₁ ha => ?_
  obtain ⟨hrax, hkeeps₁⟩ := ha
  rw [← hkeeps₁.state_eq hleft]
  refine (load_computes hr hright m₁).bind fun b m₂ hb => ?_
  obtain ⟨hrcx, hkeeps₂⟩ := hb
  -- loading the right side into `rcx` leaves `rax` alone
  have hrax₂ : m₂.regs .rax = a := by
    rw [hkeeps₂.regs .rax (by rw [hclobbers]; decide), hrax]
  refine .single exec_cmp ⟨?_, hkeeps₂.state_eq hright⟩
  rw [Machine.setFlags_flags, hrax₂, hrcx, Comparison.cond_holds]

end Frame

end Quadword
