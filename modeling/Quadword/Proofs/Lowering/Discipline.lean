import Quadword.Assembly.Target
import Quadword.Proofs.Lowering.HostCall
import Quadword.Proofs.Simulation.Listing

/-!
# Where code moves the stack pointer

The stack pointer of a program is the register `rsp`, so an instruction with that destination moves
the stack of the program. Only the statements that are about the stack pointer have one, and calls,
which give the stack pointer back the value that it had. And no instruction writes to the region of
constants. This holds of whatever can be lowered, also of programs that no text parses to.

* **`Instruction.exec_regs`**: an instruction leaves the registers alone that it does not write, so
  one with another destination leaves the stack pointer alone (**`Instruction.exec_rsp`**), and so
  does a run through lines that hold only such instructions (**`Within.rsp`**).
* **`Frame.load_quiet`** and **`Frame.store_quiet`**: loading and storing is neither about the stack
  pointer nor about constants.
* **`Program.assemble_discipline`**: the discipline of all code of a program.
-/

namespace Quadword

/-! ## Destinations -/

/--
The operand that an instruction writes. Divisions and the extension of a sign write registers that
are no operands of theirs, `rax` and `rdx`.
-/
def Instruction.destination? (i : Instruction) : Option Operand :=
  match i.opcode with
  | .cqo | .idiv | .div | .cmp | .jmp | .j _ | .call | .nop => none
  | _ => i.operands.head?

/-- Whether the operand is the stack pointer or a part of it. -/
def Operand.isStackPointer : Operand → Bool
  | .reg .rsp _ => true
  | _ => false

/-- Whether the operand is memory that is reached from the start of the constants. -/
def Operand.isConst : Operand → Bool
  | .mem ⟨.region _ .const, _, _⟩ => true
  | _ => false

namespace Instruction

theorem destination?_cons (op : Opcode) (d : Operand) (ds : List Operand) :
    destination? ⟨op, d :: ds⟩ = none ∨ destination? ⟨op, d :: ds⟩ = some d := by
  cases op <;> simp [destination?]

def movesStack (i : Instruction) : Bool := i.destination?.any Operand.isStackPointer

def writesConst (i : Instruction) : Bool := i.destination?.any Operand.isConst

end Instruction

/-- Whether the operand is a register or a part of it. -/
def Operand.isPartOf (r : Reg) : Operand → Bool
  | .reg s _ => s = r
  | _ => false

/-- The registers that an opcode writes without naming them. -/
def Opcode.implicit : Opcode → List Reg
  | .cqo => [.rdx]
  | .idiv | .div => [.rax, .rdx]
  | _ => []

/-- Whether an instruction writes a register, as its destination or without naming it. -/
def Instruction.writes (i : Instruction) (r : Reg) : Bool :=
  i.destination?.any (Operand.isPartOf r) || decide (r ∈ i.opcode.implicit)

theorem Operand.isPartOf_rsp (o : Operand) : o.isPartOf .rsp = o.isStackPointer := by
  cases o with
  | reg r w => cases r <;> rfl
  | _ => rfl

namespace Machine

variable {m m' : Machine} {bases : Bases} {v : Word} {d : Operand} {r : Reg}

theorem setLow_regs_of_ne (m : Machine) {r s : Reg} (w : Width) (v : Word) (h : s ≠ r) :
    (m.setLow r w v).regs s = m.regs s := by
  cases w <;> exact set_regs_of_ne m _ h

/--
Assigning to a destination changes no register but the one that it is a part of. Assigning to memory
changes none.
-/
theorem assign?_regs (h : m.assign? bases v d = some m') (hd : d.isPartOf r = false) :
    m'.regs r = m.regs r := by
  cases d with
  | reg s w =>
      cases h
      have hne : s ≠ r := of_decide_eq_false hd
      exact setLow_regs_of_ne m w v hne.symm
  | mem mem =>
      cases h
      rfl
  | _ => cases h

/-- A division leaves its results in `rax` and `rdx`, and nothing in any other register. -/
theorem divided_regs {results : Option (Word × Word)} (h : m.divided results = .next m')
    (hr : r ∉ [Reg.rax, .rdx]) : m'.regs r = m.regs r := by
  cases results with
  | none => cases h
  | some results =>
      cases h
      simp only [List.mem_cons, List.not_mem_nil, or_false, not_or] at hr
      rw [set_regs_of_ne _ _ hr.2, set_regs_of_ne _ _ hr.1]

end Machine

theorem Result.ofOption_eq_next {x : Option Machine} {m : Machine} (h : ofOption x = .next m) :
    x = some m := by
  cases x with
  | none => cases h
  | some m' =>
      cases h
      rfl

namespace Instruction

variable {i : Instruction} {r : Reg}

/-- The destination of an instruction that computes something is its first operand. -/
theorem isPartOf_of_writes {op : Opcode} {d : Operand} {ds : List Operand}
    (h : op = .mov ∨ op = .movabs ∨ op = .movzx ∨ op = .lea ∨ op.alter?.isSome ∨ op.shift?.isSome ∨
      op.combine?.isSome) (hi : writes ⟨op, d :: ds⟩ r = false) : d.isPartOf r = false := by
  have hd := (Bool.or_eq_false_iff.mp hi).1
  cases op <;> first | exact hd | simp [Opcode.alter?, Opcode.shift?, Opcode.combine?] at h

/--
A register that an instruction does not write is not among those that it writes without naming them.
-/
theorem not_mem_implicit (hi : i.writes r = false) : r ∉ i.opcode.implicit :=
  of_decide_eq_false (Bool.or_eq_false_iff.mp hi).2

end Instruction

/--
The same of the machine alone, before anything is left over. The proof follows the definition, whose
lines fall into those that assign to the first operand, those with registers of their own, and those
that change no register.
-/
theorem Machine.execute_regs {i : Instruction} {bases : Bases} {m m' : Machine} {r : Reg}
    (h : m.execute bases i = .next m') (hi : i.writes r = false) : m'.regs r = m.regs r := by
  obtain ⟨op, operands⟩ := i
  have himplicit := Instruction.not_mem_implicit hi
  have hmove : ∀ {d s : Operand}, operands = [d, s] → (op = .mov ∨ op = .movabs ∨ op = .movzx) →
      (m.value? bases s).bind (fun v => m.assign? bases v d) = some m' →
        m'.regs r = m.regs r := by
    rintro d s rfl hop hassign
    obtain ⟨v, -, hassign⟩ := Option.bind_eq_some_iff.mp hassign
    refine assign?_regs hassign (Instruction.isPartOf_of_writes ?_ hi)
    rcases hop with hop | hop | hop <;> simp [hop]
  -- one case for each line of the definition
  unfold execute at h
  split at h
  · next hop hds => exact hmove hds (.inl hop) (Result.ofOption_eq_next h)
  · next hop hds => exact hmove hds (.inr (.inl hop)) (Result.ofOption_eq_next h)
  · next hop hds => exact hmove hds (.inr (.inr hop)) (Result.ofOption_eq_next h)
  · next hop hds =>
    cases hop
    cases hds
    exact assign?_regs (Result.ofOption_eq_next h) (Instruction.isPartOf_of_writes (by simp) hi)
  · next hop _ =>
    cases hop
    cases h
    exact set_regs_of_ne m _ fun heq => himplicit (List.mem_singleton.mpr heq)
  · next hop _ =>
    cases hop
    exact divided_regs h himplicit
  · next hop _ =>
    cases hop
    exact divided_regs h himplicit
  · cases h
    rfl
  · cases h
  · split at h
    · cases h
    · cases h
      rfl
  · cases h
  · cases h
    rfl
  · next hds _ _ _ _ _ =>
    cases hds
    obtain ⟨f, hf, hassign⟩ := Option.bind_eq_some_iff.mp (Result.ofOption_eq_next h)
    obtain ⟨v, -, hassign⟩ := Option.bind_eq_some_iff.mp hassign
    refine assign?_regs hassign (Instruction.isPartOf_of_writes ?_ hi)
    have hop : op.alter? = some f := hf
    simp [hop]
  · next s hds _ _ _ =>
    cases hds
    obtain ⟨f, hf, hset⟩ := Option.bind_eq_some_iff.mp (Result.ofOption_eq_next h)
    have hop : op.shift? = some f := hf
    have hne : s ≠ r := of_decide_eq_false (Instruction.isPartOf_of_writes (by simp [hop]) hi)
    cases hset
    exact set_regs_of_ne m _ hne.symm
  · next hds _ _ _ _ _ =>
    cases hds
    obtain ⟨f, hf, hassign⟩ := Option.bind_eq_some_iff.mp (Result.ofOption_eq_next h)
    obtain ⟨a, -, hassign⟩ := Option.bind_eq_some_iff.mp hassign
    obtain ⟨b, -, hassign⟩ := Option.bind_eq_some_iff.mp hassign
    refine assign?_regs hassign (Instruction.isPartOf_of_writes ?_ hi)
    have hop : op.combine? = some f := hf
    simp [hop]
  · cases h

namespace Instruction

variable {i : Instruction} {leftover : Leftover} {bases : Bases} {m m' : Machine} {r : Reg}

/-- An instruction leaves a register alone that it does not write. -/
theorem exec_regs (h : i.exec leftover bases m = .next m') (hi : i.writes r = false) :
    m'.regs r = m.regs r := by
  unfold exec at h
  split at h
  · next m'' hexecute =>
    have hregs := Machine.execute_regs hexecute hi
    split at h <;> (cases h; exact hregs)
  · next hnext => exact absurd h (hnext m')

/--
No instruction writes the stack pointer without naming it, so what writes it has it as its
destination.
-/
theorem writes_rsp (i : Instruction) : i.writes .rsp = i.movesStack := by
  have himplicit : Reg.rsp ∉ i.opcode.implicit := by
    cases i.opcode <;> simp [Opcode.implicit]
  have hparts : Operand.isPartOf .rsp = Operand.isStackPointer := funext Operand.isPartOf_rsp
  rw [writes, movesStack, decide_eq_false himplicit, Bool.or_false, hparts]

theorem exec_rsp (h : i.exec leftover bases m = .next m') (hi : i.movesStack = false) :
    m'.regs .rsp = m.regs .rsp :=
  exec_regs h (by rw [writes_rsp, hi])

end Instruction

theorem Result.ofOption_ne_jump {x : Option Machine} {s : Symbol} {m : Machine} :
    ofOption x ≠ .jump s m := by
  cases x <;> exact nofun

theorem Machine.divided_ne_jump {m m' : Machine} {results : Option (Word × Word)} {s : Symbol} :
    m.divided results ≠ .jump s m' := by
  cases results <;> exact nofun

/--
A jump takes the machine along as it is. So control moves to another line with the same stack
pointer, wherever that line is.
-/
theorem Instruction.exec_jump {i : Instruction} {leftover : Leftover} {bases : Bases}
    {m m' : Machine} {s : Symbol} (h : i.exec leftover bases m = .jump s m') : m' = m := by
  have hexecute : m.execute bases i = .jump s m' := by
    unfold exec at h
    split at h
    · split at h <;> cases h
    · exact h
  obtain ⟨op, operands⟩ := i
  -- one case for each line of the definition again; only those of the two jumps can be
  unfold Machine.execute at hexecute
  split at hexecute
  · exact absurd hexecute Result.ofOption_ne_jump
  · exact absurd hexecute Result.ofOption_ne_jump
  · exact absurd hexecute Result.ofOption_ne_jump
  · exact absurd hexecute Result.ofOption_ne_jump
  · cases hexecute
  · exact absurd hexecute Machine.divided_ne_jump
  · exact absurd hexecute Machine.divided_ne_jump
  · cases hexecute
  · cases hexecute
    rfl
  · split at hexecute
    · cases hexecute
      rfl
    · cases hexecute
  · cases hexecute
  · cases hexecute
  · exact absurd hexecute Result.ofOption_ne_jump
  · exact absurd hexecute Result.ofOption_ne_jump
  · exact absurd hexecute Result.ofOption_ne_jump
  · cases hexecute

/-! ### Runs -/

section

variable {code : List Line} {leftover : Leftover} {bases : Bases} {c c' : CodePoint}

/-- A step leaves the stack pointer alone unless it executes an instruction that moves it. -/
theorem CodePoint.step_rsp (h : c.step code leftover bases = .point c')
    (hstill : ∀ i, code[c.index]? = some (.instruction i) → i.movesStack = false) :
    c'.machine.regs .rsp = c.machine.regs .rsp := by
  unfold step at h
  split at h
  · cases h
  · cases h
    rfl
  · next i hline =>
    split at h
    · next m hexec =>
      cases h
      exact Instruction.exec_rsp hexec (hstill i hline)
    · next s m hexec =>
      -- a jump leaves the whole machine as it is, a move between lines only the index
      have hsame := Instruction.exec_jump hexec
      split at h
      · cases h
        exact congrArg (Machine.regs · .rsp) hsame
      · cases h
    all_goals cases h

/-- So does a run through lines that hold no such instruction, wherever it jumps among them. -/
theorem Within.rsp {lo hi n : Nat} (h : Within code leftover bases lo hi n c c')
    (hstill : ∀ k, lo ≤ k → k < hi → ∀ i, code[k]? = some (.instruction i) →
      i.movesStack = false) :
    c'.machine.regs .rsp = c.machine.regs .rsp := by
  induction h with
  | refl c => rfl
  | step hlo hhi hstep _ ih =>
      exact ih.trans (CodePoint.step_rsp hstep (hstill _ hlo hhi))

end

/-! ## Quiet code -/

/-- Whether an instruction can lead elsewhere than to the next one. -/
def Opcode.transfers : Opcode → Bool
  | jmp | j _ | call => true
  | _ => false

def Operand.isTarget : Operand → Bool
  | .target _ => true
  | _ => false

namespace Instruction

/-- The instruction has nothing to do with other places of the code. -/
structure InLine (i : Instruction) : Prop where
  opcode : i.opcode.transfers = false
  operands : i.operands.any Operand.isTarget = false

/-- The instruction moves no stack pointer and writes no constant. -/
structure Still (i : Instruction) : Prop where
  stack : i.movesStack = false
  const : i.writesConst = false

/-- What loading and storing consists of. -/
structure Quiet (i : Instruction) : Prop extends InLine i, Still i

theorem InLine.isTarget {i : Instruction} (h : i.InLine) {o : Operand}
    (ho : o ∈ i.operands) : o.isTarget = false := by
  have hall := List.any_eq_false.mp h.operands o ho
  simpa using hall

theorem InLine.ne_call {i : Instruction} (h : i.InLine) : i.opcode ≠ .call := by
  intro heq
  have htransfers := h.opcode
  rw [heq] at htransfers
  cases htransfers

instance (i : Instruction) : Decidable i.Quiet :=
  decidable_of_iff ((i.opcode.transfers = false ∧ i.operands.any Operand.isTarget = false) ∧
    i.movesStack = false ∧ i.writesConst = false)
    ⟨fun ⟨⟨ho, hd⟩, hs, hc⟩ => ⟨⟨ho, hd⟩, ⟨hs, hc⟩⟩,
      fun h => ⟨⟨h.opcode, h.operands⟩, h.stack, h.const⟩⟩

/--
An instruction with a register in front is quiet, as long as the register is not the stack pointer.
All instructions that load something are of this kind.
-/
theorem quiet_reg {op : Opcode} {r : Reg} {w : Width} {ds : List Operand} (hr : r ≠ .rsp)
    (hop : op.transfers = false) (hds : ds.any Operand.isTarget = false) :
    Quiet ⟨op, .reg r w :: ds⟩ := by
  have hpointer : (Operand.reg r w).isStackPointer = false := by
    cases r with
    | rsp => exact absurd rfl hr
    | _ => rfl
  have hdestination := destination?_cons op (.reg r w) ds
  refine ⟨⟨hop, hds⟩, ⟨?_, ?_⟩⟩
  · rcases hdestination with h | h <;> simp [movesStack, h, hpointer]
  · rcases hdestination with h | h <;> simp [writesConst, h, Operand.isConst]

end Instruction

/--
Loading leaves the stack pointer and the constants alone, as long as it does not load into the stack
pointer itself.
-/
theorem Frame.load_quiet {f : Frame} {e : Expr} {reg : Reg} {code : List Instruction}
    (h : f.load e reg = .ok code) (hreg : reg ≠ .rsp) : ∀ i ∈ code, i.Quiet := by
  induction e generalizing reg code with
  | number value wide =>
      cases h
      refine List.forall_mem_singleton.mpr ?_
      unfold loadNumber
      split <;> exact Instruction.quiet_reg hreg rfl rfl
  | sp =>
      cases h
      exact List.forall_mem_singleton.mpr (Instruction.quiet_reg hreg rfl rfl)
  | base r =>
      cases h
      refine List.forall_mem_singleton.mpr ?_
      unfold loadBase
      split <;> exact Instruction.quiet_reg hreg rfl rfl
  | slot s =>
      obtain ⟨m, -, h⟩ := bind_eq_ok.mp h
      cases h
      exact List.forall_mem_singleton.mpr (Instruction.quiet_reg hreg rfl rfl)
  | indirect width address ih =>
      obtain ⟨code, hcode, h⟩ := bind_eq_ok.mp h
      cases h
      refine List.forall_mem_append.mpr ⟨ih hcode (by decide), List.forall_mem_singleton.mpr ?_⟩
      cases width <;> exact Instruction.quiet_reg hreg rfl rfl
  | unary op operand ih =>
      obtain ⟨code, hcode, h⟩ := bind_eq_ok.mp h
      cases h
      refine List.forall_mem_append.mpr ⟨ih hcode hreg, List.forall_mem_singleton.mpr ?_⟩
      cases op <;> exact Instruction.quiet_reg hreg rfl rfl
  -- the operands are loaded one after the other, and what combines them are registers too
  | binary op left right ihl ihr =>
      rw [load] at h
      split at h
      · obtain ⟨l, hl, h⟩ := bind_eq_ok.mp h
        obtain ⟨r, hr, h⟩ := bind_eq_ok.mp h
        cases h
        have happly : ∀ i ∈ op.apply, i.Quiet := by
          cases op with
          | div s | rem s | shr s => cases s <;> decide
          | _ => decide
        simp only [BinOp.combine, List.forall_mem_append, List.forall_mem_cons]
        exact ⟨⟨ihl hl (by decide), by decide, ihr hr (by decide)⟩, by decide, happly⟩
      · cases h

/--
Storing leaves the stack pointer alone, and nothing is stored to the constants, since such a place
is refused.
-/
theorem Frame.store_quiet {f : Frame} {place : Place} {code : List Instruction}
    (h : f.store place = .ok code) : ∀ i ∈ code, i.Quiet := by
  cases place with
  | slot s =>
      rw [store] at h
      split at h
      · cases h
      · next hspace =>
        obtain ⟨m, hm, h⟩ := bind_eq_ok.mp h
        cases h
        refine List.forall_mem_singleton.mpr ⟨⟨rfl, rfl⟩, ⟨rfl, ?_⟩⟩
        rw [memory] at hm
        split at hm
        · split at hm
          · cases hm
            rfl
          · next r hr =>
            cases hm
            cases r with
            | data => rfl
            -- a store to the constants is refused before any code is made
            | const => exact absurd hr hspace
        · cases hm
  | indirect width address =>
      obtain ⟨code, hcode, h⟩ := bind_eq_ok.mp h
      cases h
      refine List.forall_mem_append.mpr ⟨load_quiet hcode (by decide), ?_⟩
      exact List.forall_mem_singleton.mpr ⟨⟨rfl, rfl⟩, ⟨rfl, rfl⟩⟩

/-- Moving a value to a place is loading and then storing it. -/
theorem Frame.move_quiet {f : Frame} {target : Place} {value : Expr} {code : List Instruction}
    (h : f.move target value = .ok code) : ∀ i ∈ code, i.Quiet := by
  obtain ⟨l, hl, h⟩ := bind_eq_ok.mp h
  obtain ⟨s, hs, h⟩ := bind_eq_ok.mp h
  cases h
  exact List.forall_mem_append.mpr ⟨load_quiet hl (by decide), store_quiet hs⟩

/-- A comparison loads both of its sides and writes nothing but flags. -/
theorem Frame.compare_quiet {f : Frame} {c : Condition} {code : List Instruction}
    (h : f.compare c = .ok code) : ∀ i ∈ code, i.Quiet := by
  obtain ⟨l, hl, h⟩ := bind_eq_ok.mp h
  obtain ⟨r, hr, h⟩ := bind_eq_ok.mp h
  cases h
  simp only [List.forall_mem_append, List.forall_mem_singleton]
  exact ⟨⟨load_quiet hl (by decide), load_quiet hr (by decide)⟩, by decide⟩

/-- Loading arguments into registers is quiet if none of these is the stack pointer. -/
theorem Frame.loadArguments_quiet {f : Frame} {arguments : List (Expr × Reg)}
    {code : List Instruction} (h : f.loadArguments arguments = .ok code)
    (hregs : ∀ a ∈ arguments, a.2 ≠ .rsp) : ∀ i ∈ code, i.Quiet := by
  induction arguments generalizing code with
  | nil =>
      cases h
      exact fun _ hi => nomatch hi
  | cons a arguments ih =>
      obtain ⟨hreg, hregs⟩ := List.forall_mem_cons.mp hregs
      obtain ⟨first, hfirst, h⟩ := bind_eq_ok.mp h
      obtain ⟨more, hmore, h⟩ := bind_eq_ok.mp h
      cases h
      exact List.forall_mem_append.mpr ⟨load_quiet hfirst hreg, ih hmore hregs⟩

/-- Arguments that go to the stack are stored through `rsp`, which does not move it. -/
theorem Frame.stackArguments_quiet {f : Frame} {index : Nat} {arguments : List Expr}
    {code : List Instruction} (h : f.stackArguments index arguments = .ok code) :
    ∀ i ∈ code, i.Quiet := by
  induction arguments generalizing index code with
  | nil =>
      cases h
      exact fun _ hi => nomatch hi
  | cons a arguments ih =>
      obtain ⟨first, hfirst, h⟩ := bind_eq_ok.mp h
      obtain ⟨more, hmore, h⟩ := bind_eq_ok.mp h
      cases h
      -- the store writes to a slot, and so no register and no constant
      simp only [List.forall_mem_append, List.forall_mem_cons]
      exact ⟨load_quiet hfirst (by decide), ⟨⟨rfl, rfl⟩, ⟨rfl, rfl⟩⟩, ih hmore⟩

/-! ## The discipline -/

/-- The instructions that have the stack pointer as their destination, in order. -/
def stackMoves (code : List Instruction) : List Instruction := code.filter Instruction.movesStack

theorem stackMoves_append (a b : List Instruction) :
    stackMoves (a ++ b) = stackMoves a ++ stackMoves b := List.filter_append a b

theorem stackMoves_eq_nil {code : List Instruction} (h : ∀ i ∈ code, i.Still) :
    stackMoves code = [] := by
  refine List.filter_eq_nil_iff.mpr fun i hi => ?_
  rw [(h i hi).stack]
  exact Bool.false_ne_true

/-- The instructions among lines of code. -/
def instructions (code : List Line) : List Instruction :=
  code.filterMap fun
    | .instruction i => some i
    | .label _ => none

/-- An instruction among the lines of code is one of its instructions. -/
theorem mem_instructions {i : Instruction} {code : List Line} :
    i ∈ instructions code ↔ .instruction i ∈ code := by
  simp only [instructions, List.mem_filterMap]
  constructor
  · rintro ⟨line, hline, heq⟩
    cases line with
    | label sym => cases heq
    | instruction i' =>
        cases heq
        exact hline
  · exact fun h => ⟨_, h, rfl⟩

theorem instructions_append (a b : List Line) :
    instructions (a ++ b) = instructions a ++ instructions b := List.filterMap_append

theorem instructions_label (sym : Symbol) (code : List Line) :
    instructions (.label sym :: code) = instructions code := rfl

theorem instructions_straight (code : List Instruction) : instructions (straight code) = code := by
  rw [instructions, straight, List.filterMap_map]
  exact List.filterMap_some

/-- A run through a piece of code without stack moves leaves the stack pointer alone. -/
theorem Within.rsp_of_stackMoves {code piece : List Line} {leftover : Leftover} {bases : Bases}
    {lo n : Nat} {c c' : CodePoint} (hcode : Holds code lo piece)
    (hmoves : stackMoves (instructions piece) = [])
    (h : Within code leftover bases lo (lo + piece.length) n c c') :
    c'.machine.regs .rsp = c.machine.regs .rsp := by
  refine h.rsp fun k hlo hhi i hline => ?_
  -- the line with this index is one of the piece
  obtain ⟨front, back, rfl, rfl⟩ := hcode
  rw [List.append_assoc, List.getElem?_append_right hlo,
    List.getElem?_append_left (by omega)] at hline
  have hmem := mem_instructions.mpr (List.mem_of_getElem? hline)
  simpa using List.filter_eq_nil_iff.mp hmoves i hmem

/--
How a call moves the stack pointer: down to where it is aligned and by the space for the call before
the call, and back by the same amounts after it, if there is an after.
-/
def CallMoves (name : String) (arguments : Nat) (code : List Instruction) : Prop :=
  let space := Operand.imm (BitVec.ofNat 64 (shadowSpace arguments))
  ∃ before after, code = before ++ jump .call (.host name) :: after ∧
    (∀ i ∈ before ++ after, i.opcode ≠ .call) ∧
    stackMoves before = [⟨.sub, [Reg.rsp.whole, Reg.rbx.whole]⟩, ⟨.sub, [Reg.rsp.whole, space]⟩] ∧
    stackMoves after =
      if name ∈ nonReturning then []
      else [⟨.add, [Reg.rsp.whole, space]⟩, ⟨.add, [Reg.rsp.whole, Reg.rbx.whole]⟩]

/-- How the code of a statement may move the stack pointer. -/
def Statement.Moves : Statement → List Instruction → Prop
  | .setSp _ _, code => ∃ before, stackMoves before = [] ∧
      code = before ++ [⟨.mov, [Reg.rsp.whole, Reg.rax.whole]⟩]
  | .align boundary, code =>
      stackMoves code = [⟨.and, [Reg.rsp.whole, .imm (-BitVec.ofNat 64 boundary)]⟩]
  | .syscall name arguments _, code => CallMoves name arguments.length code
  | _, code => stackMoves code = []

theorem reserve_inLine (space : Nat) : ∀ i ∈ reserve space, i.InLine ∧ i.writesConst = false := by
  simp only [reserve, List.forall_mem_cons]
  exact ⟨⟨⟨rfl, rfl⟩, rfl⟩, ⟨⟨rfl, rfl⟩, rfl⟩, ⟨⟨rfl, rfl⟩, rfl⟩, ⟨⟨rfl, rfl⟩, rfl⟩, nofun⟩

theorem release_inLine (space : Nat) : ∀ i ∈ release space, i.InLine ∧ i.writesConst = false := by
  simp only [release, List.forall_mem_cons]
  exact ⟨⟨⟨rfl, rfl⟩, rfl⟩, ⟨⟨rfl, rfl⟩, rfl⟩, nofun⟩

/--
What surrounds the call itself in the code of a call. It stays in line, and the stack pointer is
moved where the space for arguments is reserved and released and nowhere else.
-/
theorem callHost_inLine {mode : Addressing} {name : String} {arguments : List Expr}
    {output : Option Place} {code : List Instruction}
    (h : callHost mode name arguments output = .ok code) :
    ∃ before after, code = before ++ jump .call (.host name) :: after ∧
      (∀ i ∈ before ++ after, i.InLine ∧ i.writesConst = false) ∧
      stackMoves before = stackMoves (reserve (shadowSpace arguments.length)) ∧
      stackMoves after = if name ∈ nonReturning then []
        else stackMoves (release (shadowSpace arguments.length)) := by
  obtain ⟨registers, slots, after, hregisters, hslots, rfl, hend, hreturn⟩ := callHost_eq_ok h
  have hquiet : ∀ {is : List Instruction}, (∀ i ∈ is, i.Quiet) →
      ∀ i ∈ is, i.InLine ∧ i.writesConst = false := fun h i hi =>
    ⟨(h i hi).toInLine, (h i hi).const⟩
  have hnone : ∀ {is : List Instruction}, (∀ i ∈ is, i.Quiet) → stackMoves is = [] := fun h =>
    stackMoves_eq_nil fun i hi => (h i hi).toStill
  generalize hsaved : (if (arguments.drop Reg.arguments.length).isEmpty then []
    else [(⟨.mov, [Reg.r10.whole, Reg.rsp.whole]⟩ : Instruction)]) = saved
  have hregisters : ∀ i ∈ registers, i.Quiet := by
    have hall : ∀ r ∈ Reg.arguments, r ≠ .rsp := by decide
    exact Frame.loadArguments_quiet hregisters fun a ha => hall a.2 (List.of_mem_zip ha).2
  have hsaved : ∀ i ∈ saved, i.Quiet := by
    rw [← hsaved]
    split <;> decide
  have hslots := Frame.stackArguments_quiet hslots
  -- the part behind the call is empty for a procedure that does not return
  have hafter : name ∉ nonReturning →
      ∃ result, after = release (shadowSpace arguments.length) ++ result ∧
        ∀ i ∈ result, i.Quiet := by
    intro hname
    obtain ⟨result, rfl, hresult⟩ := hreturn hname
    refine ⟨result, rfl, ?_⟩
    cases output with
    | none =>
        cases hresult
        exact nofun
    | some place => exact Frame.store_quiet hresult
  -- the loads around the two adjustments of the stack pointer are quiet, so the moves are theirs
  refine ⟨_, after, rfl, ?_, ?_, ?_⟩
  · simp only [List.forall_mem_append]
    refine ⟨⟨⟨⟨hquiet hregisters, hquiet hsaved⟩, reserve_inLine _⟩, hquiet hslots⟩, ?_⟩
    by_cases hname : name ∈ nonReturning
    · rw [hend hname]
      exact nofun
    · obtain ⟨result, rfl, hresult⟩ := hafter hname
      exact List.forall_mem_append.mpr ⟨release_inLine _, hquiet hresult⟩
  · simp only [stackMoves_append, hnone hregisters, hnone hsaved, hnone hslots, List.nil_append,
      List.append_nil]
  · split
    · next hname =>
      rw [hend hname]
      rfl
    · next hname =>
      obtain ⟨result, rfl, hresult⟩ := hafter hname
      rw [stackMoves_append, hnone hresult, List.append_nil]

/--
A call moves the stack pointer as calls do, and writes no constant: its result is stored to a place,
which is never among these.
-/
theorem callHost_moves {mode : Addressing} {name : String} {arguments : List Expr}
    {output : Option Place} {code : List Instruction}
    (h : callHost mode name arguments output = .ok code) :
    CallMoves name arguments.length code ∧ ∀ i ∈ code, i.writesConst = false := by
  obtain ⟨before, after, rfl, hinLine, hbefore, hafter⟩ := callHost_inLine h
  refine ⟨⟨before, after, rfl, fun i hi => (hinLine i hi).1.ne_call, hbefore, hafter⟩, ?_⟩
  simp only [List.forall_mem_append, List.forall_mem_cons] at hinLine ⊢
  exact ⟨fun i hi => (hinLine.1 i hi).2, rfl, fun i hi => (hinLine.2 i hi).2⟩

/-- Setting the stack pointer is loading something into `rax` and moving it from there. -/
theorem Statement.lower_setSp {mode : Addressing} {fresh : Nat} {op : Option BinOp} {value : Expr}
    {code : List Line} (h : (Statement.setSp op value).lower mode fresh = .ok code) :
    ∃ is e, Frame.load ⟨mode, .rsp⟩ e .rax = .ok is ∧
      code = straight (is ++ [⟨.mov, [Reg.rsp.whole, Reg.rax.whole]⟩]) := by
  cases op with
  | none =>
      obtain ⟨is, his, h⟩ := bind_eq_ok.mp h
      cases h
      exact ⟨is, value, his, rfl⟩
  -- an update is an operation on the stack pointer, which is loaded like any other
  | some op =>
      obtain ⟨is, his, h⟩ := bind_eq_ok.mp h
      cases h
      exact ⟨is, .binary op .sp value, his, rfl⟩

/-- The code of a statement moves the stack pointer as it may, and writes no constant. -/
theorem Statement.lower_moves {s : Statement} {mode : Addressing} {fresh : Nat} {code : List Line}
    (h : s.lower mode fresh = .ok code) :
    s.Moves (instructions code) ∧ ∀ i ∈ instructions code, i.writesConst = false := by
  -- most statements have code that does not move the stack at all
  have hstill : ∀ {is : List Instruction}, (∀ i ∈ is, i.Still) →
      stackMoves is = [] ∧ ∀ i ∈ is, i.writesConst = false := fun h =>
    ⟨stackMoves_eq_nil h, fun i hi => (h i hi).const⟩
  have hquiet : ∀ {is : List Instruction}, (∀ i ∈ is, i.Quiet) → ∀ i ∈ is, i.Still :=
    fun h i hi => (h i hi).toStill
  cases s with
  | label name =>
      cases h
      exact hstill nofun
  | assign target value =>
      obtain ⟨is, his, h⟩ := bind_eq_ok.mp h
      cases h
      rw [instructions_straight]
      exact hstill (hquiet (Frame.move_quiet his))
  | assignIf target value condition =>
      obtain ⟨cs, hcs, h⟩ := bind_eq_ok.mp h
      obtain ⟨is, his, h⟩ := bind_eq_ok.mp h
      cases h
      rw [instructions_append, instructions_straight]
      refine hstill ?_
      simp only [List.forall_mem_append, List.forall_mem_cons]
      exact ⟨⟨hquiet (Frame.compare_quiet hcs), ⟨rfl, rfl⟩, hquiet (Frame.move_quiet his)⟩, nofun⟩
  | select target condition yes no =>
      obtain ⟨cs, hcs, h⟩ := bind_eq_ok.mp h
      obtain ⟨ys, hys, h⟩ := bind_eq_ok.mp h
      obtain ⟨ns, hns, h⟩ := bind_eq_ok.mp h
      cases h
      rw [instructions_append, instructions_append, instructions_label, instructions_straight,
        instructions_straight]
      refine hstill ?_
      simp only [List.forall_mem_append, List.forall_mem_cons]
      exact ⟨⟨⟨⟨hquiet (Frame.compare_quiet hcs), ⟨rfl, rfl⟩, hquiet (Frame.move_quiet hys)⟩,
        ⟨rfl, rfl⟩, nofun⟩, hquiet (Frame.move_quiet hns)⟩, nofun⟩
  | update target op value =>
      obtain ⟨is, his, h⟩ := bind_eq_ok.mp h
      obtain ⟨ss, hss, h⟩ := bind_eq_ok.mp h
      cases h
      rw [instructions_straight]
      exact hstill (List.forall_mem_append.mpr
        ⟨hquiet (Frame.load_quiet his (by decide)), hquiet (Frame.store_quiet hss)⟩)
  | goto target =>
      cases h
      exact hstill (List.forall_mem_singleton.mpr ⟨rfl, rfl⟩)
  | gotoIf target condition =>
      obtain ⟨cs, hcs, h⟩ := bind_eq_ok.mp h
      cases h
      rw [instructions_straight]
      refine hstill (List.forall_mem_append.mpr ⟨hquiet (Frame.compare_quiet hcs), ?_⟩)
      exact List.forall_mem_singleton.mpr ⟨rfl, rfl⟩
  | pass count =>
      cases h
      rw [instructions_straight]
      refine hstill fun i hi => ?_
      rw [List.eq_of_mem_replicate hi]
      exact ⟨rfl, rfl⟩
  | setSp op value =>
      obtain ⟨is, e, his, rfl⟩ := lower_setSp h
      obtain ⟨hmoves, hconst⟩ := hstill (hquiet (Frame.load_quiet his (by decide)))
      rw [instructions_straight]
      exact ⟨⟨is, hmoves, rfl⟩,
        List.forall_mem_append.mpr ⟨hconst, List.forall_mem_singleton.mpr rfl⟩⟩
  | align boundary =>
      cases h
      exact ⟨rfl, List.forall_mem_singleton.mpr rfl⟩
  | syscall name arguments output =>
      obtain ⟨is, his, h⟩ := bind_eq_ok.mp h
      cases h
      rw [instructions_straight]
      exact callHost_moves his

/-! ## Programs -/

namespace Program

/--
The blocks of a program have its statements in order, and each has code that moves the stack pointer
as its statement may.
-/
theorem lowerStatements_moves {mode : Addressing} {fresh : Nat} {ss : List (Located Statement)}
    {blocks : List Block} (h : lowerStatements mode fresh ss = .ok blocks) :
    blocks.map Block.statement = ss.map Located.value ∧
      ∀ b ∈ blocks, b.statement.Moves (instructions b.code) ∧
        ∀ i ∈ instructions b.code, i.writesConst = false := by
  induction ss generalizing fresh blocks with
  | nil =>
      cases h
      exact ⟨rfl, nofun⟩
  | cons s ss ih =>
      obtain ⟨code, more, hs, hmore, rfl⟩ := lowerStatements_cons h
      obtain ⟨hstatements, hmoves⟩ := ih hmore
      -- the first block is that of the first statement, and the others follow by induction
      exact ⟨congrArg (List.cons s.value) hstatements,
        List.forall_mem_cons.mpr ⟨Statement.lower_moves hs, hmoves⟩⟩

/--
**The stack pointer and the constants are left alone.** In the code of a program, each statement
that sets the stack pointer ends with the only instruction that does, each alignment and each call
moves it by the instructions given, and no other instruction moves it. So a run through the code of
any other statement ends with the stack pointer that it started with. No instruction writes to the
region of constants. This is so for every program that can be lowered and every target.
-/
theorem assemble_discipline {p : Program} {t : Target} {text : String}
    (h : p.assemble t = .ok text) :
    ∃ l exit, p.lower t.addressing = .ok l ∧ text = t.dialect.style.text t.annotate l ∧
      l.blocks.map Block.statement = p.statements.map Located.value ∧
      (∀ b ∈ l.blocks, b.statement.Moves (instructions b.code)) ∧
      (∀ k b, l.blocks[k]? = some b → stackMoves (instructions b.code) = [] →
        ∀ leftover bases n c c',
          Within l.code leftover bases (l.start k) (l.start k + b.code.length) n c c' →
            c'.machine.regs .rsp = c.machine.regs .rsp) ∧
      l.exit = .label .finish :: straight exit ∧ CallMoves exitProcedure 1 exit ∧
      ∀ i, .instruction i ∈ l.code → i.writesConst = false := by
  obtain ⟨l, hl, htext⟩ := bind_eq_ok.mp h
  cases htext
  obtain ⟨hblocks, exit, hexit, heq⟩ := lower_eq_ok hl
  obtain ⟨hstatements, hmoves⟩ := lowerStatements_moves hblocks
  obtain ⟨hcall, hconst⟩ := callHost_moves hexit
  refine ⟨l, exit, hl, rfl, hstatements, fun b hb => (hmoves b hb).1,
    fun k b hb hstill _ _ _ _ _ hrun => hrun.rsp_of_stackMoves (l.holds_block hb).1 hstill,
    heq, hcall, fun i hi => ?_⟩
  rw [Listing.code, heq] at hi
  -- a line of a block, or of the exit
  rcases List.mem_append.mp hi with hi | hi
  · rcases List.mem_cons.mp hi with hi | hi
    · cases hi
    · obtain ⟨b, hb, hi⟩ := List.mem_flatMap.mp hi
      exact (hmoves b hb).2 i (mem_instructions.mpr hi)
  · rw [← mem_instructions, instructions_label, instructions_straight] at hi
    exact hconst i hi

/--
A program that no text parses to: an access inside an address, and a boundary of three. Calls of a
procedure that returns and of one that does not.
-/
theorem assemble_discipline_mixed :
    let ss : List Statement :=
      [.setSp (some .sub) (.unary .neg (.indirect .byte (.indirect .word .sp))), .align 3,
        .syscall "Beep" [.number 1 false, .sp, .sp, .sp, .base .const] (some (.slot ⟨.stack, 8⟩)),
        .syscall "ExitThread" [] none, .update (.slot ⟨.region .data, 0⟩) (.div .signed) .sp]
    let p : Program := ⟨[], ss.map fun s => ⟨s, .first⟩, .first⟩
    ∃ text l exit, p.assemble ⟨.gas, .relative, true⟩ = .ok text ∧ p.lower .relative = .ok l ∧
      text = Gas.style.text true l ∧ l.blocks.map Block.statement = ss ∧
      (∀ b ∈ l.blocks, b.statement.Moves (instructions b.code)) ∧
      (∀ k b, l.blocks[k]? = some b → stackMoves (instructions b.code) = [] →
        ∀ leftover bases n c c',
          Within l.code leftover bases (l.start k) (l.start k + b.code.length) n c c' →
            c'.machine.regs .rsp = c.machine.regs .rsp) ∧
      l.exit = .label .finish :: straight exit ∧ CallMoves exitProcedure 1 exit ∧
      ∀ i, .instruction i ∈ l.code → i.writesConst = false := by
  intro ss p
  obtain ⟨l, exit, hl, htext, hstatements, hrest⟩ :=
    assemble_discipline (p := p) (t := ⟨.gas, .relative, true⟩) rfl
  exact ⟨_, l, exit, rfl, hl, htext, hstatements, hrest⟩

end Program

end Quadword
