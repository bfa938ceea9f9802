import Quadword.Proofs.Lowering.Discipline

/-!
# What lowering emits

Code is put together from few kinds of instructions, each with a fixed choice of opcode, registers
and widths. The kinds are listed once here, together with what is known of the numbers in them, so
that whatever is to hold of all code need only be shown for each kind.

* **`Emitted`**: the kinds of instructions.
* **`Frame.load_emits`**, **`callHost_emits`**, **`Statement.lower_emits`**: code consists of these.
* **`Program.lower_emits`**: so does the code of a whole program.

Literals and slots bring numbers of their own into the code, and these are limited wherever they
occur. The numbers that a statement adds to them are limited by its `extent`.
-/

namespace Quadword

/--
The largest number that a statement brings into its code by itself: the space that a call reserves,
or the boundary of an alignment.
-/
def Statement.extent : Statement → Nat
  | .align boundary => boundary
  | .syscall _ arguments _ => shadowSpace arguments.length
  | _ => 0

/-- The instructions that lowering emits where a statement adds no number beyond `extent`. -/
inductive Emitted (extent : Nat) : Instruction → Prop where
  | number (value : Word) (wide : Bool) (reg : Reg) : Emitted extent (loadNumber value wide reg)
  | copy (reg r : Reg) : Emitted extent ⟨.mov, [reg.whole, r.whole]⟩
  | base (f : Frame) (r : Region) (reg : Reg) : Emitted extent (f.loadBase r reg)
  | load {f : Frame} {s : Slot} {m : Memory} (h : f.memory s = .ok m) (reg : Reg) :
      Emitted extent ⟨.mov, [reg.whole, .mem m]⟩
  | loadIndirect (w : Width) (reg : Reg) : Emitted extent (w.loadIndirect reg)
  | unary (op : UnOp) (reg : Reg) : Emitted extent ⟨op.opcode, [reg.whole]⟩
  /-- One of the instructions that apply an operator. -/
  | binary (op : BinOp) {i : Instruction} (h : i ∈ op.apply) : Emitted extent i
  | store {f : Frame} {s : Slot} {m : Memory} (h : f.memory s = .ok m) :
      Emitted extent ⟨.mov, [.mem m, Reg.rax.whole]⟩
  | storeIndirect (w : Width) : Emitted extent ⟨.mov, [w.atAddress, .reg .rax w]⟩
  | compare : Emitted extent ⟨.cmp, raxRcx⟩
  | reserve {space : Nat} (h : space ≤ extent) {i : Instruction} (hi : i ∈ reserve space) :
      Emitted extent i
  | release {space : Nat} (h : space ≤ extent) {i : Instruction} (hi : i ∈ release space) :
      Emitted extent i
  /-- A store of an argument on the stack, which lies within the space of the call. -/
  | argument {index : Nat} (h : homeSpace + 8 * index ≤ extent) :
      Emitted extent ⟨.mov, [.mem ⟨.reg .rsp, homeSpace + 8 * index, .qword⟩, Reg.rax.whole]⟩
  | align {boundary : Nat} (h : boundary ≤ extent) :
      Emitted extent ⟨.and, [Reg.rsp.whole, .imm (-BitVec.ofNat 64 boundary)]⟩
  | transfer {op : Opcode} (h : op.transfers = true) (s : Symbol) : Emitted extent (jump op s)
  | nop : Emitted extent ⟨.nop, []⟩

/-- All of the code was emitted by lowering. -/
def Emits (extent : Nat) (code : List Instruction) : Prop := ∀ i ∈ code, Emitted extent i

namespace Emits

variable {extent : Nat} {code code' : List Instruction} {i : Instruction}

theorem nil : Emits extent [] := nofun

theorem append (h : Emits extent code) (h' : Emits extent code') : Emits extent (code ++ code') :=
  List.forall_mem_append.mpr ⟨h, h'⟩

theorem cons (hi : Emitted extent i) (h : Emits extent code) : Emits extent (i :: code) :=
  List.forall_mem_cons.mpr ⟨hi, h⟩

theorem single (hi : Emitted extent i) : Emits extent [i] := cons hi nil

end Emits

/-! ## Expressions and places -/

namespace Frame

variable {extent : Nat} {f : Frame} {code : List Instruction}

/--
Loading an expression emits nothing else, whatever the expression looks like. What is said of each
kind of instruction is therefore said of all that loading emits.
-/
theorem load_emits {e : Expr} {reg : Reg} (h : f.load e reg = .ok code) : Emits extent code := by
  -- one instruction for the outermost form, behind those of its operands
  induction e generalizing reg code with
  | number value wide =>
      cases h
      exact .single (.number value wide reg)
  | sp =>
      cases h
      exact .single (.copy reg f.pointer)
  | base r =>
      cases h
      exact .single (.base f r reg)
  | slot s =>
      obtain ⟨m, hm, h⟩ := bind_eq_ok.mp h
      cases h
      exact .single (.load hm reg)
  | indirect width address ih =>
      obtain ⟨code, hcode, h⟩ := bind_eq_ok.mp h
      cases h
      exact (ih hcode).append (.single (.loadIndirect width reg))
  | unary op operand ih =>
      obtain ⟨code, hcode, h⟩ := bind_eq_ok.mp h
      cases h
      exact (ih hcode).append (.single (.unary op reg))
  | binary op left right ihl ihr =>
      rw [load] at h
      split at h
      · obtain ⟨l, hl, h⟩ := bind_eq_ok.mp h
        obtain ⟨r, hr, h⟩ := bind_eq_ok.mp h
        cases h
        have happly : Emits extent op.apply := fun i hi => .binary op hi
        exact ((ihl hl).append (.cons (.copy .r10 .rax) (ihr hr))).append
          (.cons (.copy .rax .r10) happly)
      · cases h

/-- Storing emits the load of an address, if there is one, and then a move. -/
theorem store_emits {place : Place} (h : f.store place = .ok code) : Emits extent code := by
  cases place with
  | slot s =>
      rw [store] at h
      -- a store to a constant is refused
      split at h
      · cases h
      · obtain ⟨m, hm, h⟩ := bind_eq_ok.mp h
        cases h
        exact .single (.store hm)
  | indirect width address =>
      obtain ⟨code, hcode, h⟩ := bind_eq_ok.mp h
      cases h
      exact (load_emits hcode).append (.single (.storeIndirect width))

theorem move_emits {target : Place} {value : Expr} (h : f.move target value = .ok code) :
    Emits extent code := by
  obtain ⟨l, hl, h⟩ := bind_eq_ok.mp h
  obtain ⟨s, hs, h⟩ := bind_eq_ok.mp h
  cases h
  exact (load_emits hl).append (store_emits hs)

theorem compare_emits {c : Condition} (h : f.compare c = .ok code) : Emits extent code := by
  obtain ⟨l, hl, h⟩ := bind_eq_ok.mp h
  obtain ⟨r, hr, h⟩ := bind_eq_ok.mp h
  cases h
  exact ((load_emits hl).append (load_emits hr)).append (.single .compare)

/-! ## Calls -/

/-- Arguments are loaded one after the other. -/
theorem loadArguments_emits {arguments : List (Expr × Reg)}
    (h : f.loadArguments arguments = .ok code) : Emits extent code := by
  induction arguments generalizing code with
  | nil =>
      cases h
      exact .nil
  | cons a arguments ih =>
      obtain ⟨first, hfirst, h⟩ := bind_eq_ok.mp h
      obtain ⟨more, hmore, h⟩ := bind_eq_ok.mp h
      cases h
      exact (load_emits hfirst).append (ih hmore)

/-- The slots of all arguments on the stack have to lie within the space of the call. -/
theorem stackArguments_emits {index : Nat} {arguments : List Expr}
    (h : f.stackArguments index arguments = .ok code)
    (hspace : homeSpace + 8 * (index + arguments.length) ≤ extent) : Emits extent code := by
  induction arguments generalizing index code with
  | nil =>
      cases h
      exact .nil
  | cons a arguments ih =>
      obtain ⟨first, hfirst, h⟩ := bind_eq_ok.mp h
      obtain ⟨more, hmore, h⟩ := bind_eq_ok.mp h
      cases h
      rw [List.length_cons] at hspace
      -- each argument has a slot of its own within the space that is reserved for all
      have hslot : homeSpace + 8 * index ≤ extent := by omega
      exact (load_emits hfirst).append (.cons (.argument hslot) (ih hmore (by omega)))

end Frame

/--
A call emits what makes room for it and gives that back. How far this moves the stack pointer is the
extent, which comes from the number of arguments.
-/
theorem callHost_emits {mode : Addressing} {name : String} {arguments : List Expr}
    {output : Option Place} {code : List Instruction}
    (h : callHost mode name arguments output = .ok code) :
    Emits (shadowSpace arguments.length) code := by
  obtain ⟨registers, slots, after, hregisters, hslots, rfl, hend, hreturn⟩ := callHost_eq_ok h
  -- the space of the call has room for the arguments on the stack
  have hspace : homeSpace + 8 * (0 + (arguments.drop Reg.arguments.length).length) ≤
      shadowSpace arguments.length := by
    rw [List.length_drop, Nat.zero_add]
    exact (shadowSpace_isLeast arguments.length).1.2
  have hafter : Emits (shadowSpace arguments.length) after := by
    by_cases hname : name ∈ nonReturning
    · rw [hend hname]
      exact .nil
    · obtain ⟨result, rfl, hresult⟩ := hreturn hname
      refine .append (fun i hi => .release (Nat.le_refl _) hi) ?_
      cases output with
      | none =>
          cases hresult
          exact .nil
      | some place => exact Frame.store_emits hresult
  have hreserve : Emits (shadowSpace arguments.length) (reserve (shadowSpace arguments.length)) :=
    fun i hi => .reserve (Nat.le_refl _) hi
  refine ((((Frame.loadArguments_emits hregisters).append ?_).append hreserve).append
    (Frame.stackArguments_emits hslots hspace)).append (.cons (.transfer rfl _) hafter)
  split
  · exact .nil
  · exact .single (.copy .r10 .rsp)

/-! ## Statements and programs -/

/--
Everything that a statement is lowered to is of one of the kinds, so what is said of each kind is
said of all code.
-/
theorem Statement.lower_emits {s : Statement} {mode : Addressing} {fresh : Nat} {code : List Line}
    (h : s.lower mode fresh = .ok code) : Emits s.extent (instructions code) := by
  -- the lines of labels emit nothing, so only the straight parts count
  cases s with
  | label name =>
      cases h
      exact .nil
  | assign target value =>
      obtain ⟨is, his, h⟩ := bind_eq_ok.mp h
      cases h
      rw [instructions_straight]
      exact Frame.move_emits his
  | assignIf target value condition =>
      obtain ⟨cs, hcs, h⟩ := bind_eq_ok.mp h
      obtain ⟨is, his, h⟩ := bind_eq_ok.mp h
      cases h
      rw [instructions_append, instructions_straight]
      exact ((Frame.compare_emits hcs).append
        (.cons (.transfer rfl _) (Frame.move_emits his))).append .nil
  | select target condition yes no =>
      obtain ⟨cs, hcs, h⟩ := bind_eq_ok.mp h
      obtain ⟨ys, hys, h⟩ := bind_eq_ok.mp h
      obtain ⟨ns, hns, h⟩ := bind_eq_ok.mp h
      cases h
      rw [instructions_append, instructions_append, instructions_label, instructions_straight,
        instructions_straight]
      exact ((((Frame.compare_emits hcs).append
        (.cons (.transfer rfl _) (Frame.move_emits hys))).append (.single (.transfer rfl _))).append
        (Frame.move_emits hns)).append .nil
  | update target op value =>
      obtain ⟨is, his, h⟩ := bind_eq_ok.mp h
      obtain ⟨ss, hss, h⟩ := bind_eq_ok.mp h
      cases h
      rw [instructions_straight]
      exact (Frame.load_emits his).append (Frame.store_emits hss)
  | goto target =>
      cases h
      exact .single (.transfer rfl _)
  | gotoIf target condition =>
      obtain ⟨cs, hcs, h⟩ := bind_eq_ok.mp h
      cases h
      rw [instructions_straight]
      exact (Frame.compare_emits hcs).append (.single (.transfer rfl _))
  | pass count =>
      cases h
      rw [instructions_straight]
      intro i hi
      rw [List.eq_of_mem_replicate hi]
      exact .nop
  | setSp op value =>
      obtain ⟨is, e, his, rfl⟩ := lower_setSp h
      rw [instructions_straight]
      exact (Frame.load_emits his).append (.single (.copy .rsp .rax))
  | align boundary =>
      cases h
      exact .single (.align (Nat.le_refl boundary))
  | syscall name arguments output =>
      obtain ⟨is, his, h⟩ := bind_eq_ok.mp h
      cases h
      rw [instructions_straight]
      exact callHost_emits his

namespace Program

/--
The code of each block is emitted within the extent of its statement, which says how much space its
call reserves and how far it aligns.
-/
theorem lowerStatements_emits {mode : Addressing} {fresh : Nat} {ss : List (Located Statement)}
    {blocks : List Block} (h : lowerStatements mode fresh ss = .ok blocks) :
    ∀ b ∈ blocks, ∃ s ∈ ss, Emits s.value.extent (instructions b.code) := by
  induction ss generalizing fresh blocks with
  | nil =>
      cases h
      exact nofun
  | cons s ss ih =>
      obtain ⟨code, more, hs, hmore, rfl⟩ := lowerStatements_cons h
      intro b hb
      rcases List.mem_cons.mp hb with rfl | hb
      · exact ⟨s, List.mem_cons_self .., Statement.lower_emits hs⟩
      · obtain ⟨s', hs', hemits⟩ := ih hmore b hb
        exact ⟨s', List.mem_cons_of_mem _ hs', hemits⟩

/-- Every instruction of a listing comes from one of the statements or from the exit sequence. -/
theorem lower_emits {p : Program} {mode : Addressing} {l : Listing} (h : p.lower mode = .ok l)
    {i : Instruction} (hi : .instruction i ∈ l.code) :
    (∃ s ∈ p.statements, Emitted s.value.extent i) ∨ Emitted (shadowSpace 1) i := by
  obtain ⟨hblocks, exit, hexit, heq⟩ := lower_eq_ok h
  rw [Listing.code, heq] at hi
  -- a line of a block, or of the exit, which passes one argument
  rcases List.mem_append.mp hi with hi | hi
  · rcases List.mem_cons.mp hi with hi | hi
    · cases hi
    · obtain ⟨b, hb, hi⟩ := List.mem_flatMap.mp hi
      obtain ⟨s, hs, hemits⟩ := lowerStatements_emits hblocks b hb
      exact .inl ⟨s, hs, hemits i (mem_instructions.mpr hi)⟩
  · rw [← mem_instructions, instructions_label, instructions_straight] at hi
    exact .inr (callHost_emits hexit i hi)

end Program

end Quadword
