import Mathlib.Order.Bounds.Defs
import Quadword.Proofs.Lowering.Expression
import Quadword.Proofs.Lowering.Total

/-!
# Calls of the host pass their arguments

A call loads its first arguments into registers, moves the stack pointer down to a multiple of 16
with room for the rest, and stores the rest above it. All of them are computed from the state before
the call: the ones in registers because loading a register changes no other that matters, the ones
on the stack because they are reached through `r10`, which keeps the old stack pointer, and because
none of them reads the bytes in which they are stored.

* **`loadArguments_completes`**: the arguments in registers.
* **`reserve_completes`** and **`release_completes`**: the stack pointer before and after the call.
* **`stackArguments_completes`**: the arguments on the stack.
-/

namespace Quadword

/-! ## Code that cannot fault -/

/-- The code comes to its end in a machine with a property. -/
def Completes (leftover : Leftover) (bases : Bases) (code : List Instruction) (m : Machine)
    (post : Machine → Prop) : Prop :=
  ∃ m', execAll leftover bases code m = .next m' ∧ post m'

namespace Completes

variable {leftover : Leftover} {bases : Bases} {code more : List Instruction} {m m' : Machine}
  {post post' : Machine → Prop}

theorem nil (h : post m) : Completes leftover bases [] m post := ⟨m, rfl, h⟩

theorem cons {i : Instruction} (hi : i.exec leftover bases m = .next m')
    (h : Completes leftover bases code m' post) : Completes leftover bases (i :: code) m post := by
  obtain ⟨m₁, hexec, hpost⟩ := h
  exact ⟨m₁, by rw [execAll, hi]; exact hexec, hpost⟩

/--
Code in parts completes if the first part does, and the second part from wherever that may lead.
-/
theorem append (h : Completes leftover bases code m post)
    (hmore : ∀ m', post m' → Completes leftover bases more m' post') :
    Completes leftover bases (code ++ more) m post' := by
  obtain ⟨m₁, hexec, hpost⟩ := h
  obtain ⟨m₂, hexec', hpost'⟩ := hmore m₁ hpost
  exact ⟨m₂, by rw [execAll_append, hexec]; exact hexec', hpost'⟩

/--
An instruction that combines a register with an immediate goes on with any flags, since nothing is
said about these.
-/
theorem combine_imm {f : Word → Word → Word} {op : Opcode} {reg : Reg} {v : Word}
    (hop : op.combine? = some f)
    (h : ∀ fl, Completes leftover bases code ((m.set reg (f (m.regs reg) v)).setFlags fl) post) :
    Completes leftover bases (⟨op, [reg.whole, .imm v]⟩ :: code) m post := by
  obtain ⟨fl, hexec⟩ := exec_combine_imm op reg v hop
  exact .cons hexec (h fl)

theorem combine_whole {f : Word → Word → Word} {op : Opcode} {reg r : Reg}
    (hop : op.combine? = some f)
    (h : ∀ fl, Completes leftover bases code ((m.set reg (f (m.regs reg) (m.regs r))).setFlags fl)
      post) :
    Completes leftover bases (⟨op, [reg.whole, r.whole]⟩ :: code) m post := by
  obtain ⟨fl, hexec⟩ := exec_combine_whole op reg r hop
  exact .cons hexec (h fl)

theorem mono (h : Completes leftover bases code m post) (himp : ∀ m', post m' → post' m') :
    Completes leftover bases code m post' := by
  obtain ⟨m₁, hexec, hpost⟩ := h
  exact ⟨m₁, hexec, himp m₁ hpost⟩

end Completes

/-! ## Expressions without operators -/

namespace Expr

/--
Without a binary operator there is nothing to fault, so passing an argument of this kind cannot
fail.
-/
theorem eval_of_fits_r11 {e : Expr} (h : e.fits .r11 = true) (bases : Bases) (st : State) :
    ∃ v, e.eval bases st = some v := by
  induction e with
  | number value wide => exact ⟨_, rfl⟩
  | sp => exact ⟨_, rfl⟩
  | base r => exact ⟨_, rfl⟩
  | slot s => exact ⟨_, rfl⟩
  | indirect width address ih =>
      obtain ⟨a, ha⟩ := ih h
      exact ⟨_, by rw [eval, ha]; rfl⟩
  | unary op operand ih =>
      obtain ⟨a, ha⟩ := ih h
      exact ⟨_, by rw [eval, ha]; rfl⟩
  -- an operator fits `rax` only
  | binary op left right _ _ => simp [fits] at h

/-- The addresses of a run of bytes. -/
def bytesFrom (address : Word) (count : Nat) : List Word :=
  (List.range count).map fun i => address + BitVec.ofNat 64 i

/-- The addresses of the bytes that evaluating an expression reads. -/
def reads (bases : Bases) (st : State) : Expr → List Word
  | number .. | sp | base _ => []
  | slot s => bytesFrom (s.address bases st.sp) Width.qword.bytes
  | indirect width address =>
    address.reads bases st ++ ((address.eval bases st).elim [] fun a => bytesFrom a width.bytes)
  | binary _ left right => left.reads bases st ++ right.reads bases st
  | unary _ operand => operand.reads bases st

end Expr

/-- A number in memory depends on the bytes of it alone, as they are listed for an expression. -/
theorem Ram.read_congr_of_bytesFrom {m m' : Ram} {w : Width} {address : Word}
    (h : ∀ a ∈ Expr.bytesFrom address w.bytes, m' a = m a) :
    m'.read w address = m.read w address := by
  refine Ram.read_congr fun i hi => h _ ?_
  exact List.mem_map_of_mem (List.mem_range.mpr hi)

namespace Expr

variable {bases : Bases} {sp : Word} {ram ram' : Ram}

/-- The value of an expression, and what it reads, depend on the bytes that it reads only. -/
theorem eval_congr {e : Expr} (h : ∀ a ∈ e.reads bases ⟨sp, ram⟩, ram' a = ram a) :
    e.eval bases ⟨sp, ram'⟩ = e.eval bases ⟨sp, ram⟩ ∧
      e.reads bases ⟨sp, ram'⟩ = e.reads bases ⟨sp, ram⟩ := by
  -- an address is evaluated before the bytes there are read, so both lists of reads are needed
  induction e with
  | number value wide => exact ⟨rfl, rfl⟩
  | sp => exact ⟨rfl, rfl⟩
  | base r => exact ⟨rfl, rfl⟩
  | slot s => exact ⟨congrArg some (Ram.read_congr_of_bytesFrom h), rfl⟩
  | indirect width address ih =>
      rw [reads] at h
      obtain ⟨heval, hreads⟩ := ih fun a ha => h a (List.mem_append_left _ ha)
      rw [eval, eval, reads, reads, heval, hreads]
      refine ⟨?_, rfl⟩
      cases ha : address.eval bases ⟨sp, ram⟩ with
      | none => rfl
      | some a =>
          rw [ha] at h
          exact congrArg some (Ram.read_congr_of_bytesFrom fun b hb =>
            h b (List.mem_append_right _ hb))
  | binary op left right ihl ihr =>
      rw [reads] at h
      obtain ⟨hl, hlreads⟩ := ihl fun a ha => h a (List.mem_append_left _ ha)
      obtain ⟨hr, hrreads⟩ := ihr fun a ha => h a (List.mem_append_right _ ha)
      rw [eval, eval, reads, reads, hl, hr, hlreads, hrreads]
      exact ⟨rfl, rfl⟩
  | unary op operand ih =>
      obtain ⟨heval, hreads⟩ := ih h
      rw [eval, eval, reads, reads, heval, hreads]
      exact ⟨rfl, rfl⟩

end Expr

/-! ## Arguments in registers -/

section

variable {leftover : Leftover} {bases : Bases}

/--
Loading an expression without operators changes the register and `r11` only, and always comes to its
end with the value of the expression.
-/
theorem Frame.load_completes {f : Frame} {e : Expr} {reg : Reg} {code : List Instruction}
    (hload : f.load e reg = .ok code) (hfits : e.fits .r11 = true)
    (hpointer : f.pointer ∉ [reg, .r11]) (m : Machine) :
    Completes leftover bases code m fun m' =>
      e.eval bases (m.state f.pointer) = some (m'.regs reg) ∧ Keeps [reg, .r11] m m' := by
  have hclobbers := Expr.clobbers_of_operations_eq
    (Expr.operations_of_fits hfits (by decide)) reg
  rw [← hclobbers] at hpointer ⊢
  -- there is a value, so the code does not fault
  obtain ⟨v, hv⟩ := Expr.eval_of_fits_r11 hfits bases (m.state f.pointer)
  have hcomputes : Computes leftover bases code m _ _ := load_computes hload hpointer m
  rw [hv] at hcomputes ⊢
  obtain ⟨m', hexec, hreg, hkeeps⟩ := hcomputes
  exact ⟨m', hexec, by rw [hreg], hkeeps⟩

/-- Arguments that are loaded into different registers hold the values they had at the start. -/
theorem Frame.loadArguments_completes {f : Frame} {arguments : List (Expr × Reg)}
    {code : List Instruction} (hload : f.loadArguments arguments = .ok code)
    (hfits : ∀ a ∈ arguments, a.1.fits .r11 = true)
    (hregs : (f.pointer :: .r11 :: arguments.map Prod.snd).Nodup) (m : Machine) :
    Completes leftover bases code m fun m' =>
      (∀ a ∈ arguments, a.1.eval bases (m.state f.pointer) = some (m'.regs a.2)) ∧
        Keeps (.r11 :: arguments.map Prod.snd) m m' := by
  induction arguments generalizing code m with
  | nil =>
      cases hload
      exact .nil ⟨by simp, .refl _ m⟩
  | cons a more ih =>
      obtain ⟨is, his, hload⟩ := bind_eq_ok.mp hload
      obtain ⟨js, hjs, hcode⟩ := bind_eq_ok.mp hload
      cases hcode
      simp only [List.map_cons, List.nodup_cons, List.mem_cons, not_or] at hregs
      obtain ⟨⟨hp, hpa, hpmore⟩, ⟨ha, hmore⟩, hamore, hnodup⟩ := hregs
      have hpointer : f.pointer ∉ [a.2, .r11] := by simp [hp, hpa]
      refine (load_completes his (hfits a (List.mem_cons_self ..)) hpointer m).append fun m₁ h₁ => ?_
      obtain ⟨heval, hkeeps⟩ := h₁
      have hrest := ih hjs (fun b hb => hfits b (List.mem_cons_of_mem _ hb))
        (by simp [hp, hpmore, hmore, hnodup]) m₁
      refine hrest.mono fun m' h' => ?_
      obtain ⟨hevals, hkeeps'⟩ := h'
      rw [hkeeps.state_eq hpointer] at hevals
      refine ⟨fun b hb => ?_, ?_⟩
      · rcases List.mem_cons.mp hb with rfl | hb
        · -- the arguments after it leave its register alone
          rw [hkeeps'.regs b.2 (by simp [hamore, Ne.symm ha])]
          exact heval
        · exact hevals b hb
      · refine (hkeeps.mono ?_).trans (hkeeps'.mono ?_)
        · simp
        · intro r hr
          rcases List.mem_cons.mp hr with rfl | hr
          · simp
          · exact List.mem_cons_of_mem _ (List.mem_cons_of_mem _ hr)

/-! ## The stack pointer -/

/-- The stack pointer of a call: the old one rounded down to a multiple of 16, less the space. -/
def reserved (rsp : Word) (space : Nat) : Word := rsp - (rsp &&& 15) - BitVec.ofNat 64 space

/--
Making room for a call moves the stack pointer down to where it is aligned, and by the room. How far
the first move went is kept in `rbx`.
-/
theorem reserve_completes (space : Nat) (m : Machine) :
    Completes leftover bases (reserve space) m fun m' =>
      m'.regs .rsp = reserved (m.regs .rsp) space ∧ m'.regs .rbx = m.regs .rsp &&& 15 ∧
        Keeps [.rsp, .rbx] m m' := by
  refine .cons (exec_mov_whole .rbx .rsp) (.combine_imm rfl fun fl₁ => .combine_whole rfl fun fl₂ =>
    .combine_imm rfl fun fl₃ => .nil ⟨rfl, rfl, ?_⟩)
  have hset : ∀ (m : Machine) (r : Reg) (v : Word), r ∈ [Reg.rsp, .rbx] →
      Keeps [.rsp, .rbx] m (m.set r v) := fun m r v hr => .set hr v
  exact ((((hset _ .rbx _ (by decide)).trans ((hset _ .rbx _ (by decide)).setFlags fl₁)).trans
    ((hset _ .rsp _ (by decide)).setFlags fl₂)).trans
    ((hset _ .rsp _ (by decide)).setFlags fl₃))

/--
Giving the room back adds both amounts again. So the stack pointer is as before, since a procedure
keeps `rbx`.
-/
theorem release_completes (space : Nat) (m : Machine) :
    Completes leftover bases (release space) m fun m' =>
      m'.regs .rsp = m.regs .rsp + BitVec.ofNat 64 space + m.regs .rbx ∧ Keeps [.rsp] m m' := by
  refine .combine_imm rfl fun fl₁ => .combine_whole rfl fun fl₂ => .nil ⟨rfl, ?_⟩
  have hfirst : Keeps [.rsp] m ((m.set .rsp (m.regs .rsp + BitVec.ofNat 64 space)).setFlags fl₁) :=
    (Keeps.set (by decide) _).setFlags fl₁
  exact hfirst.trans ((Keeps.set (by decide) _).setFlags fl₂)

/-- Releasing what was reserved gives the old stack pointer back. -/
theorem reserved_add (rsp : Word) (space : Nat) :
    reserved rsp space + BitVec.ofNat 64 space + (rsp &&& 15) = rsp := by
  rw [reserved, BitVec.sub_add_cancel, BitVec.sub_add_cancel]

theorem toNat_and_fifteen (v : Word) : (v &&& 15).toNat = v.toNat % 16 := by
  rw [BitVec.toNat_and, show (15 : Word).toNat = 2 ^ 4 - 1 from rfl, Nat.and_two_pow_sub_one_eq_mod]

/-- Where the space is to be had, nothing wraps around. -/
theorem toNat_reserved {rsp : Word} {space : Nat} (h : space ≤ rsp.toNat / 16 * 16) :
    (reserved rsp space).toNat = rsp.toNat / 16 * 16 - space := by
  have hrsp : rsp.toNat < 2 ^ 64 := rsp.isLt
  have hand := toNat_and_fifteen rsp
  have hspace : (BitVec.ofNat 64 space).toNat = space := by
    rw [BitVec.toNat_ofNat, Nat.mod_eq_of_lt (by omega)]
  rw [reserved, BitVec.toNat_sub, BitVec.toNat_sub, hand, hspace]
  omega

/-- The space is the least multiple of 16 that holds the arguments. -/
theorem shadowSpace_isLeast (n : Nat) :
    IsLeast { k | 16 ∣ k ∧ 32 + 8 * (n - 4) ≤ k } (shadowSpace n) := by
  have hspace : shadowSpace n = (32 + 8 * (n - 4) + 15) / 16 * 16 := rfl
  rw [hspace]
  refine ⟨⟨Nat.dvd_mul_left .., by omega⟩, fun k hk => ?_⟩
  obtain ⟨⟨j, rfl⟩, hle⟩ := hk
  omega

/-! ## Arguments on the stack -/

/-- The address of an argument on the stack, the first one having the index 0. -/
def slotAddress (rsp : Word) (index : Nat) : Word := rsp + BitVec.ofNat 64 (homeSpace + 8 * index)

/-- The byte belongs to one of a number of arguments on the stack. -/
def InSlots (rsp : Word) (index count : Nat) (a : Word) : Prop :=
  (a - slotAddress rsp index).toNat < 8 * count

instance (rsp : Word) (index count : Nat) (a : Word) : Decidable (InSlots rsp index count a) :=
  inferInstanceAs (Decidable (_ < _))

theorem slotAddress_succ (rsp : Word) (index : Nat) :
    slotAddress rsp (index + 1) = slotAddress rsp index + 8 := by
  rw [slotAddress, slotAddress, BitVec.add_assoc, show (8 : Word) = BitVec.ofNat 64 8 from rfl,
    ← BitVec.ofNat_add, Nat.mul_add, Nat.add_assoc]

/-- An address is eight bytes less far from the next argument, counted around the address space. -/
theorem toNat_sub_slotAddress_succ (rsp a : Word) (index : Nat) :
    (a - slotAddress rsp (index + 1)).toNat =
      ((a - slotAddress rsp index).toNat + (2 ^ 64 - 8)) % 2 ^ 64 := by
  rw [slotAddress_succ]
  generalize slotAddress rsp index = x
  bv_omega

/-- The bytes of some arguments are those of the first one and those of the others. -/
theorem inSlots_succ {rsp a : Word} {index count : Nat} (hcount : 8 * (count + 1) ≤ 2 ^ 64) :
    InSlots rsp index (count + 1) a ↔
      (a - slotAddress rsp index).toNat < 8 ∨ InSlots rsp (index + 1) count a := by
  unfold InSlots
  have hlt : (a - slotAddress rsp index).toNat < 2 ^ 64 := (a - slotAddress rsp index).isLt
  rw [toNat_sub_slotAddress_succ]
  omega

/-- The bytes of the first argument are none of the others'. -/
theorem not_inSlots_of_lt {rsp a : Word} {index count : Nat} (hcount : 8 * (count + 1) ≤ 2 ^ 64)
    (h : (a - slotAddress rsp index).toNat < 8) : ¬ InSlots rsp (index + 1) count a := by
  unfold InSlots
  rw [toNat_sub_slotAddress_succ]
  omega

/-- Storing `rax` as an argument on the stack. -/
theorem exec_storeArgument (index : Nat) (m : Machine) :
    Instruction.exec ⟨.mov, [.mem ⟨.reg .rsp, homeSpace + 8 * index, .qword⟩, Reg.rax.whole]⟩ leftover
      bases m = .next { m with
        ram := m.ram.write .qword (slotAddress (m.regs .rsp) index) (m.regs .rax) } := by
  have haddress : m.addressOf bases ⟨.reg .rsp, homeSpace + 8 * index, .qword⟩ =
      slotAddress (m.regs .rsp) index := by
    rw [Machine.addressOf, slotAddress, ← BitVec.ofInt_natCast]
    simp
  rw [← haddress]
  exact exec_store ⟨.reg .rsp, homeSpace + 8 * index, .qword⟩ .rax

/--
Arguments are stored on the stack with the values they had at the start, if none of them reads a
byte in which one is stored. No other byte changes.
-/
theorem stackArguments_completes {mode : Addressing} {index : Nat} {arguments : List Expr}
    {code : List Instruction}
    (hcode : Frame.stackArguments ⟨mode, .r10⟩ index arguments = .ok code)
    (hfits : ∀ a ∈ arguments, a.fits .r11 = true) (hcount : 8 * arguments.length ≤ 2 ^ 64)
    (m : Machine)
    (hreads : ∀ a ∈ arguments, ∀ b ∈ a.reads bases (m.state .r10),
      ¬ InSlots (m.regs .rsp) index arguments.length b) :
    Completes leftover bases code m fun m' =>
      (∀ i a, arguments[i]? = some a → a.eval bases (m.state .r10) =
        some (m'.ram.read .qword (slotAddress (m.regs .rsp) (index + i)))) ∧
      (∀ b, ¬ InSlots (m.regs .rsp) index arguments.length b → m'.ram b = m.ram b) ∧
      ∀ r, r ∉ [Reg.rax, .r11] → m'.regs r = m.regs r := by
  induction arguments generalizing index code m with
  | nil =>
      cases hcode
      exact .nil ⟨by simp, fun _ _ => rfl, fun _ _ => rfl⟩
  | cons a more ih =>
      obtain ⟨is, his, hcode⟩ := bind_eq_ok.mp hcode
      obtain ⟨js, hjs, hcode⟩ := bind_eq_ok.mp hcode
      cases hcode
      rw [List.length_cons] at hcount hreads ⊢
      have hpointer : Reg.r10 ∉ [Reg.rax, .r11] := by decide
      refine (Frame.load_completes his (hfits a (List.mem_cons_self ..)) hpointer m).append
        fun m₁ h₁ => .cons (exec_storeArgument index m₁) ?_
      obtain ⟨heval, hkeeps⟩ := h₁
      have hrsp : m₁.regs .rsp = m.regs .rsp := hkeeps.regs .rsp (by decide)
      have hr10 : m₁.regs .r10 = m.regs .r10 := hkeeps.regs .r10 (by decide)
      rw [hrsp, hkeeps.ram]
      -- the store changes nothing that the other arguments read
      have hstored : ∀ b, 8 ≤ (b - slotAddress (m.regs .rsp) index).toNat →
          m.ram.write .qword (slotAddress (m.regs .rsp) index) (m₁.regs .rax) b = m.ram b :=
        fun b hb => Ram.write_of_apart _ hb
      generalize hram : m.ram.write .qword (slotAddress (m.regs .rsp) index) (m₁.regs .rax) = ram
        at hstored ⊢
      have hcongr : ∀ b ∈ more, b.eval bases ⟨m.regs .r10, ram⟩ = b.eval bases (m.state .r10) ∧
          b.reads bases ⟨m.regs .r10, ram⟩ = b.reads bases (m.state .r10) := by
        intro b hb
        refine Expr.eval_congr fun x hx => hstored x ?_
        have hnot := hreads b (List.mem_cons_of_mem _ hb) x hx
        rw [inSlots_succ hcount] at hnot
        omega
      have hstate : Machine.state { m₁ with ram := ram } .r10 = ⟨m.regs .r10, ram⟩ := by
        rw [Machine.state, hr10]
      have hrest := ih hjs (fun b hb => hfits b (List.mem_cons_of_mem _ hb)) (by omega)
        { m₁ with ram := ram }
      rw [hstate, hrsp] at hrest
      have hapart : ∀ b ∈ more, ∀ x ∈ b.reads bases ⟨m.regs .r10, ram⟩,
          ¬ InSlots (m.regs .rsp) (index + 1) more.length x := by
        intro b hb x hx hin
        rw [(hcongr b hb).2] at hx
        exact hreads b (List.mem_cons_of_mem _ hb) x hx ((inSlots_succ hcount).mpr (.inr hin))
      refine (hrest hapart).mono fun m' h' => ?_
      obtain ⟨hevals, hkept, hregs⟩ := h'
      refine ⟨fun i b hb => ?_, fun x hx => ?_, fun r hr => (hregs r hr).trans (hkeeps.regs r hr)⟩
      · cases i with
        | zero =>
            -- what was stored first is still there
            cases hb
            have hread : m'.ram.read .qword (slotAddress (m.regs .rsp) index) =
                ram.read .qword (slotAddress (m.regs .rsp) index) := by
              refine Ram.read_congr fun j hj => hkept _ (not_inSlots_of_lt hcount ?_)
              have hj' : j < 8 := hj
              rw [toNat_add_ofNat_sub _ (by omega)]
              exact hj'
            rw [Nat.add_zero, hread, ← hram, Ram.read_write, heval]
        | succ i =>
            rw [List.getElem?_cons_succ] at hb
            rw [← (hcongr b (List.mem_of_getElem? hb)).1, hevals i b hb,
              show index + 1 + i = index + (i + 1) from by omega]
      · rw [inSlots_succ hcount, not_or] at hx
        rw [hkept x hx.2]
        exact hstored x (by omega)

/-! ## Calls -/

/-- What a call comes down to: code before the call itself, and code after it. -/
theorem callHost_eq_ok {mode : Addressing} {name : String} {arguments : List Expr}
    {output : Option Place} {code : List Instruction}
    (h : callHost mode name arguments output = .ok code) :
    ∃ registers slots after, Frame.loadArguments ⟨mode, .rsp⟩ (arguments.zip Reg.arguments) =
        .ok registers ∧
      Frame.stackArguments ⟨mode, .r10⟩ 0 (arguments.drop Reg.arguments.length) = .ok slots ∧
      code = registers ++ (if (arguments.drop Reg.arguments.length).isEmpty then []
          else [⟨.mov, [Reg.r10.whole, Reg.rsp.whole]⟩]) ++ reserve (shadowSpace arguments.length)
        ++ slots ++ jump .call (.host name) :: after ∧
      (name ∈ nonReturning → after = []) ∧
      (name ∉ nonReturning → ∃ result, after = release (shadowSpace arguments.length) ++ result ∧
        output.elim (.ok []) (Frame.store ⟨mode, .rsp⟩) = .ok result) := by
  obtain ⟨registers, hregisters, h⟩ := bind_eq_ok.mp h
  obtain ⟨slots, hslots, h⟩ := bind_eq_ok.mp h
  -- behind a procedure that does not return nothing is emitted
  by_cases hname : name ∈ nonReturning
  · rw [if_pos hname] at h
    cases h
    exact ⟨registers, slots, [], hregisters, hslots, rfl, fun _ => rfl, fun hnot =>
      absurd hname hnot⟩
  · rw [if_neg hname] at h
    cases output with
    | none =>
        cases h
        refine ⟨registers, slots, _, hregisters, hslots, ?_, fun hin => absurd hin hname, fun _ =>
          ⟨[], (List.append_nil _).symm, rfl⟩⟩
        simp
    | some place =>
        obtain ⟨result, hresult, h⟩ := bind_eq_ok.mp h
        cases h
        refine ⟨registers, slots, _, hregisters, hslots, ?_, fun hin => absurd hin hname, fun _ =>
          ⟨result, rfl, hresult⟩⟩
        simp

/-- What holds when a call is reached, given the machine before the statement. -/
structure Marshalled (bases : Bases) (arguments : List Expr) (m m' : Machine) : Prop where
  /-- The first arguments are in registers. -/
  registers : ∀ (i : Nat) (a : Expr) (r : Reg), arguments[i]? = some a →
    Reg.arguments[i]? = some r →
    a.eval bases (m.state .rsp) = some (m'.regs r)
  /-- The others are on the stack, above the space for the callee. -/
  stacked : ∀ (i : Nat) (a : Expr), arguments[4 + i]? = some a → a.eval bases (m.state .rsp) =
    some (m'.ram.read .qword (m'.regs .rsp + BitVec.ofNat 64 (32 + 8 * i)))
  /-- The stack pointer is the old one, rounded down to a multiple of 16, less the space. -/
  rsp : (m'.regs .rsp).toNat = (m.regs .rsp).toNat / 16 * 16 - shadowSpace arguments.length
  aligned : 16 ∣ (m'.regs .rsp).toNat
  /-- Only the bytes of the arguments on the stack may have changed. -/
  ram : ∀ b, ¬ InSlots (m'.regs .rsp) 0 (arguments.length - 4) b → m'.ram b = m.ram b
  /-- What the stack pointer was rounded down by is kept where a callee preserves it. -/
  rbx : m'.regs .rbx = m.regs .rsp &&& 15

/-- The registers of the first arguments are different ones, and none is in other use. -/
theorem nodup_argumentRegisters (arguments : List Expr) :
    (Reg.rsp :: .r11 :: (arguments.zip Reg.arguments).map Prod.snd).Nodup := by
  have hsub : ((arguments.zip Reg.arguments).map Prod.snd).Sublist Reg.arguments := by
    generalize Reg.arguments = regs
    induction arguments generalizing regs with
    | nil => exact List.nil_sublist _
    | cons a arguments ih =>
        cases regs with
        | nil => exact List.nil_sublist _
        | cons r regs => exact (ih regs).cons_cons r
  have hall : (Reg.rsp :: .r11 :: Reg.arguments).Nodup := by decide
  exact hall.sublist ((hsub.cons_cons _).cons_cons _)

/-- Keeping the old stack pointer where the arguments on the stack look for it, if there are any. -/
theorem saved_completes (stacked : List Expr) (m : Machine) :
    Completes leftover bases
      (if stacked.isEmpty then [] else [⟨.mov, [Reg.r10.whole, Reg.rsp.whole]⟩]) m fun m' =>
        (stacked ≠ [] → m'.regs .r10 = m.regs .rsp) ∧ Keeps [.r10] m m' := by
  cases stacked with
  | nil => exact .nil ⟨fun h => absurd rfl h, .refl _ m⟩
  | cons a more =>
      exact .cons (exec_mov_whole .r10 .rsp)
        (.nil ⟨fun _ => m.set_regs_self .r10 _, .set (by decide) _⟩)

/--
The code before a call passes the arguments. They are all evaluated in the state in front of the
call, which needs that no stack argument reads the slots that are written before it.
-/
theorem marshal_completes {mode : Addressing} {arguments : List Expr}
    {registers slots : List Instruction}
    (hregisters : Frame.loadArguments ⟨mode, .rsp⟩ (arguments.zip Reg.arguments) = .ok registers)
    (hslots : Frame.stackArguments ⟨mode, .r10⟩ 0 (arguments.drop Reg.arguments.length) = .ok slots)
    (hfits : ∀ a ∈ arguments, a.fits .r11 = true) (m : Machine)
    (hspace : shadowSpace arguments.length ≤ (m.regs .rsp).toNat / 16 * 16)
    (hreads : ∀ a ∈ arguments.drop Reg.arguments.length, ∀ b ∈ a.reads bases (m.state .rsp),
      ¬ InSlots (reserved (m.regs .rsp) (shadowSpace arguments.length)) 0 (arguments.length - 4) b) :
    Completes leftover bases
      (registers ++ (if (arguments.drop Reg.arguments.length).isEmpty then []
        else [⟨.mov, [Reg.r10.whole, Reg.rsp.whole]⟩]) ++ reserve (shadowSpace arguments.length)
        ++ slots) m (Marshalled bases arguments m) := by
  obtain ⟨⟨hdvd, hfit⟩, -⟩ := shadowSpace_isLeast arguments.length
  have hlt : (m.regs .rsp).toNat < 2 ^ 64 := (m.regs .rsp).isLt
  have hlength : (arguments.drop Reg.arguments.length).length = arguments.length - 4 :=
    List.length_drop ..
  generalize hstacked : arguments.drop Reg.arguments.length = stacked at hslots hreads hlength ⊢
  rw [List.append_assoc, List.append_assoc]
  -- the arguments in registers
  have hnodup := nodup_argumentRegisters arguments
  refine (Frame.loadArguments_completes hregisters
    (fun a ha => hfits a.1 (List.of_mem_zip ha).1) hnodup m).append fun m₁ h₁ => ?_
  obtain ⟨hevals, hkeeps₁⟩ := h₁
  have hrsp₁ : m₁.regs .rsp = m.regs .rsp := hkeeps₁.regs .rsp (List.nodup_cons.mp hnodup).1
  -- the stack pointer
  refine (saved_completes stacked m₁).append fun m₂ h₂ => ?_
  obtain ⟨hr10, hkeeps₂⟩ := h₂
  have hrsp₂ : m₂.regs .rsp = m.regs .rsp := (hkeeps₂.regs .rsp (by decide)).trans hrsp₁
  refine (reserve_completes _ m₂).append fun m₃ h₃ => ?_
  obtain ⟨hrsp₃, hrbx₃, hkeeps₃⟩ := h₃
  rw [hrsp₂] at hrsp₃ hrbx₃
  have hram₃ : m₃.ram = m.ram := hkeeps₃.ram.trans (hkeeps₂.ram.trans hkeeps₁.ram)
  have hstate : stacked ≠ [] → m₃.state .r10 = m.state .rsp := by
    intro hne
    rw [Machine.state, Machine.state, hkeeps₃.regs .r10 (by decide), hr10 hne, hrsp₁, hram₃]
  -- the arguments on the stack
  have hreads₃ : ∀ a ∈ stacked, ∀ b ∈ a.reads bases (m₃.state .r10),
      ¬ InSlots (m₃.regs .rsp) 0 stacked.length b := by
    intro a ha b hb
    rw [hstate (List.ne_nil_of_mem ha)] at hb
    rw [hrsp₃, hlength]
    exact hreads a ha b hb
  have hfits₃ : ∀ a ∈ stacked, a.fits .r11 = true := by
    intro a ha
    rw [← hstacked] at ha
    exact hfits a (List.mem_of_mem_drop ha)
  refine (stackArguments_completes hslots hfits₃ (by omega) m₃ hreads₃).mono fun m₄ h₄ => ?_
  obtain ⟨hevals₄, hram₄, hregs₄⟩ := h₄
  rw [hrsp₃, hlength] at hram₄
  rw [hrsp₃] at hevals₄
  have hrsp₄ : m₄.regs .rsp = reserved (m.regs .rsp) (shadowSpace arguments.length) := by
    rw [hregs₄ .rsp (by decide), hrsp₃]
  refine ⟨fun i a r ha hr => ?_, fun i a ha => ?_, ?_, ?_, fun b hb => ?_, ?_⟩
  · -- nothing after the loads changes a register with an argument
    have hother : ∀ r ∈ Reg.arguments, r ∉ [Reg.rax, .r11] ∧ r ∉ [Reg.rsp, .rbx] ∧ r ∉ [Reg.r10] := by
      decide
    obtain ⟨h₄, h₃, h₂⟩ := hother r (List.mem_of_getElem? hr)
    rw [hregs₄ r h₄, hkeeps₃.regs r h₃, hkeeps₂.regs r h₂]
    exact hevals (a, r) (List.mem_of_getElem? (List.getElem?_zip_eq_some.mpr ⟨ha, hr⟩))
  · have ha' : stacked[i]? = some a := by
      rw [← hstacked, List.getElem?_drop]
      exact ha
    rw [← hstate (List.ne_nil_of_mem (List.mem_of_getElem? ha')), hevals₄ i a ha', hrsp₄,
      Nat.zero_add]
    rfl
  · rw [hrsp₄, toNat_reserved hspace]
  · rw [hrsp₄, toNat_reserved hspace]
    exact Nat.dvd_sub (Nat.dvd_mul_left ..) hdvd
  · rw [hrsp₄] at hb
    rw [hram₄ b hb, hram₃]
  · rw [hregs₄ .rbx (by decide), hrbx₃]

/-- Storing into a place that fits cannot fault. -/
theorem Place.assign_of_fits {p : Place} (h : p.fits = true) (bases : Bases) (st : State)
    (v : Word) : ∃ st', p.assign bases st v = some st' := by
  cases p with
  | slot s => exact ⟨_, rfl⟩
  | indirect width address =>
      obtain ⟨a, ha⟩ := Expr.eval_of_fits_r11 h bases st
      exact ⟨_, by rw [assign, ha]; rfl⟩

/-- The code after a call gives the stack pointer back and stores the result. -/
theorem return_completes {mode : Addressing} {output : Option Place} {space : Nat} {rsp : Word}
    {result : List Instruction}
    (hresult : output.elim (.ok []) (Frame.store ⟨mode, .rsp⟩) = .ok result) (r : Machine)
    (hrsp : r.regs .rsp = reserved rsp space) (hrbx : r.regs .rbx = rsp &&& 15) :
    Completes leftover bases (release space ++ result) r fun m' =>
      output.elim (some ⟨rsp, r.ram⟩) (Place.assign bases ⟨rsp, r.ram⟩ (r.regs .rax)) =
        some (m'.state .rsp) := by
  refine (release_completes space r).append fun m₁ h₁ => ?_
  obtain ⟨hrsp₁, hkeeps⟩ := h₁
  -- the release undoes the reservation, whatever the procedure left below
  have hstate : m₁.state .rsp = ⟨rsp, r.ram⟩ := by
    rw [Machine.state, hrsp₁, hrsp, hrbx, reserved_add, hkeeps.ram]
  cases output with
  | none =>
      cases hresult
      exact .nil (by rw [hstate]; rfl)
  | some place =>
      have hstore : Frame.store ⟨mode, .rsp⟩ place = .ok result := hresult
      -- the place was stored to by the same lowering, so the semantics assigns it as well
      have hfits : place.fits = true := by
        rw [← Frame.store_isOk ⟨mode, .rsp⟩ place, hstore]
        rfl
      obtain ⟨st, hst⟩ := Place.assign_of_fits hfits bases ⟨rsp, r.ram⟩ (r.regs .rax)
      have hpointer : Reg.rsp ≠ .r11 := by decide
      have hcomputes : Computes leftover bases result m₁
          (place.assign bases (m₁.state .rsp) (m₁.regs .rax)) _ :=
        Frame.store_computes hstore hpointer m₁
      rw [hstate, hkeeps.regs .rax (by decide), hst] at hcomputes
      obtain ⟨m', hexec, hm', -⟩ := hcomputes
      exact ⟨m', hexec, by rw [Option.elim_some, hst, ← hm']⟩

end

open Grammar

/-- The arguments of a call in the grammar have no operations, so any register can take them. -/
theorem Grammar.StatementOf.syscall_fits {ts : List Token} {name : String} {arguments : List Expr}
    {output : Option Place} (h : StatementOf ts (.syscall name arguments output)) :
    ∀ a ∈ arguments, a.fits .r11 = true := by
  intro a ha
  cases h with
  | syscall _ hargs => exact hargs.fits a ha .r11
  | syscallTo _ _ hargs => exact hargs.fits a ha .r11

/--
**A call passes its arguments.** For every call that can be written, and every machine that has the
space below its stack pointer: if no argument on the stack reads a byte in which one is stored, then
the call is reached with all arguments where the callee expects them, each with the value it has
before the statement, and with the stack pointer aligned. A call that returns with the stack pointer
and `rbx` as they were is followed by code that gives the old stack pointer back and stores what is
in `rax`.
-/
theorem syscall_passes_arguments {ts : List Token} {name : String} {arguments : List Expr}
    {output : Option Place} (hs : StatementOf ts (.syscall name arguments output))
    (mode : Addressing) (fresh : Nat) :
    ∃ before after, (Statement.syscall name arguments output).lower mode fresh =
        .ok (straight (before ++ jump .call (.host name) :: after)) ∧
      IsLeast { k | 16 ∣ k ∧ 32 + 8 * (arguments.length - 4) ≤ k }
        (shadowSpace arguments.length) ∧
      ∀ (leftover : Leftover) (bases : Bases) (m : Machine),
        shadowSpace arguments.length ≤ (m.regs .rsp).toNat / 16 * 16 →
        (∀ a ∈ arguments.drop 4, ∀ b ∈ a.reads bases (m.state .rsp),
          ¬ InSlots (reserved (m.regs .rsp) (shadowSpace arguments.length)) 0
            (arguments.length - 4) b) →
        ∃ m', execAll leftover bases before m = .next m' ∧ Marshalled bases arguments m m' ∧
          (name ∈ nonReturning → after = []) ∧
          (name ∉ nonReturning → ∀ r : Machine, r.regs .rsp = m'.regs .rsp →
            r.regs .rbx = m'.regs .rbx → ∃ m'', execAll leftover bases after r = .next m'' ∧
              output.elim (some ⟨m.regs .rsp, r.ram⟩)
                (Place.assign bases ⟨m.regs .rsp, r.ram⟩ (r.regs .rax)) =
                some (m''.state .rsp)) := by
  have hok : ((Statement.syscall name arguments output).lower mode fresh).isOk = true := by
    rw [Statement.lower_isOk]
    exact statementOf_fits hs
  -- what the grammar derives can be lowered
  obtain ⟨lines, hlines⟩ := isOk_iff.mp hok
  obtain ⟨code, hcode, hseg⟩ := bind_eq_ok.mp hlines
  cases hseg
  obtain ⟨registers, slots, after, hregisters, hslots, rfl, hend, hreturn⟩ := callHost_eq_ok hcode
  refine ⟨_, after, hlines, shadowSpace_isLeast _, fun leftover bases m hspace hreads => ?_⟩
  have hmarshal : Completes leftover bases _ m (Marshalled bases arguments m) :=
    marshal_completes hregisters hslots hs.syscall_fits m hspace hreads
  obtain ⟨m', hexec, hm'⟩ := hmarshal
  refine ⟨m', hexec, hm', hend, fun hname r hrsp hrbx => ?_⟩
  obtain ⟨result, rfl, hresult⟩ := hreturn hname
  -- the reservation does not wrap, which the hypothesis on the stack pointer excludes
  have hreserved : m'.regs .rsp = reserved (m.regs .rsp) (shadowSpace arguments.length) := by
    apply BitVec.eq_of_toNat_eq
    rw [hm'.rsp, toNat_reserved hspace]
  exact return_completes hresult r (hrsp.trans hreserved) (hrbx.trans hm'.rbx)

/--
Six arguments, two of them on the stack and read through the stack pointer, from a stack pointer
that is not aligned.
-/
theorem syscall_passes_arguments_six :
    let arguments : List Expr := [.number 1 false, .base .data, .sp, .slot ⟨.stack, 8⟩,
      .slot ⟨.stack, 16⟩, .indirect .byte .sp]
    let m : Machine := ⟨fun _ => 4104, ⟨false, false, false, false⟩, fun a => a.setWidth 8⟩
    ∃ before after m', (Statement.syscall "Write" arguments (some (.slot ⟨.stack, 0⟩))).lower
        .relative 0 = .ok (straight (before ++ jump .call (.host "Write") :: after)) ∧
      execAll (fun _ m => m.flags) (fun _ => 0) before m = .next m' ∧
      Marshalled (fun _ => 0) arguments m m' ∧ (m'.regs .rsp).toNat = 4048 := by
  intro arguments m
  -- the derivation of the argument list, one comma at a time
  have hargs : ArgumentsOf _ arguments :=
    .cons (.single (.plain (.number 1))) (.atom (.number 1 false)) <|
    .cons (.single (.plain .data)) (.atom (.base .data)) <|
    .cons (.single (.plain .sp)) (.atom .sp) <|
    .cons (.single (.plain (.slot (.letter .s (by decide))))) (.atom (.slot ⟨.stack, 8⟩)) <|
    .cons (.single (.plain (.slot (.letter .s (by decide))))) (.atom (.slot ⟨.stack, 16⟩)) <|
    .cons (.single (.plain (.indirect .m8 (.single (.plain .sp)) .sp))) (.indirect .byte .sp) .nil
  have hs : StatementOf _ (.syscall "Write" arguments (some (.slot ⟨.stack, 0⟩))) :=
    .syscallTo "Write" (.slot (.bare .sp) (by decide)) hargs
  have hreads : ((arguments.drop 4).all fun a => (a.reads (fun _ => 0) (m.state .rsp)).all fun b =>
      !decide (InSlots (reserved (m.regs .rsp) (shadowSpace arguments.length)) 0
        (arguments.length - 4) b)) = true := by
    decide
  obtain ⟨before, after, hlower, -, hcall⟩ := syscall_passes_arguments hs .relative 0
  obtain ⟨m', hexec, hm', -⟩ := hcall (fun _ m => m.flags) (fun _ => 0) m (by decide)
    fun a ha b hb => by simpa using List.all_eq_true.mp (List.all_eq_true.mp hreads a ha) b hb
  have hrsp : (m.regs .rsp).toNat / 16 * 16 - shadowSpace arguments.length = 4048 := by decide
  exact ⟨before, after, m', hlower, hexec, hm', hm'.rsp.trans hrsp⟩

end Quadword
