import Quadword.Proofs.Lowering.Layout

/-!
# What can be lowered

Lowering refuses an operation outside `rax`, an offset that no displacement holds, and a store to a
region that cannot be written. Whether it does is decided by the shape of a statement alone: not by
how the regions are reached, which register holds the stack pointer, or which labels are taken.

* **`Frame.load_isOk`**: an expression can be loaded into a register exactly if it fits there.
* **`Statement.lower_isOk`**: a statement can be lowered exactly if all its parts fit.
* **`Program.lower_isOk_iff`**: a program can be lowered exactly if its statements fit and its
  initial values do not overlap.
-/

namespace Quadword

/-! ## Computations that may fail -/

section Computation

variable {ε α β : Type}

theorem isOk_iff {x : Except ε α} : x.isOk = true ↔ ∃ a, x = .ok a := by
  cases x with
  | error e => simp [Except.isOk, Except.toBool]
  | ok a => simp [Except.isOk, Except.toBool]

/-- Where the second step fails or not whatever the first one gives, the two decide on their own. -/
theorem isOk_bind {x : Except ε α} {f : α → Except ε β} {b : Bool} (h : ∀ a, (f a).isOk = b) :
    (x >>= f).isOk = (x.isOk && b) := by
  cases x with
  | error e => rfl
  | ok a => exact (h a).trans (Bool.true_and b).symm

theorem isOk_bind_pure {x : Except ε α} {f : α → β} :
    (x >>= fun a => pure (f a)).isOk = x.isOk := by
  cases x <;> rfl

/--
A sequence results in something exactly if its first part does, and the second part with that
result. Code of several parts is taken apart with this everywhere.
-/
theorem bind_eq_ok {x : Except ε α} {f : α → Except ε β} {b : β} :
    x >>= f = .ok b ↔ ∃ a, x = .ok a ∧ f a = .ok b := by
  cases x with
  | error e => exact iff_of_false nofun fun ⟨_, h, _⟩ => nomatch h
  | ok a =>
      refine ⟨fun h => ⟨a, rfl, h⟩, fun h => ?_⟩
      obtain ⟨a', ha, hb⟩ := h
      cases ha
      exact hb

end Computation

/-! ## Shapes that fit -/

/-- Whether a displacement holds the offset of a slot. -/
def Slot.fits (s : Slot) : Bool := s.offset.toNat ≤ Slot.maxOffset

/--
Whether an expression can be loaded into a register: every slot in it is in reach, and what is not
loaded into `rax` holds no binary operator.
-/
def Expr.fits : Expr → Reg → Bool
  | .number .., _ | .sp, _ | .base _, _ => true
  | .slot s, _ => s.fits
  | .indirect _ address, _ => address.fits .r11
  | .unary _ operand, reg => operand.fits reg
  | .binary _ left right, reg => reg = .rax && (left.fits .rax && right.fits .rcx)

/-- Whether a value can be stored into a place. -/
def Place.fits : Place → Bool
  | .slot s => s.space ≠ .region .const && s.fits
  | .indirect _ address => address.fits .r11

/-- Whether the sides of a condition can be compared. -/
def Condition.fits (c : Condition) : Bool := c.left.fits .rax && c.right.fits .rcx

/-- Whether the arguments of a call fit the registers and the stack. -/
def argumentsFit (arguments : List Expr) : Bool :=
  (arguments.zip Reg.arguments).all (fun a => a.1.fits a.2)
    && (arguments.drop Reg.arguments.length).all (fun a => a.fits .rax)

/-- Whether a statement can be lowered. Where a call does not return, its output does not matter. -/
def Statement.fits : Statement → Bool
  | .label _ | .goto _ | .pass _ | .align _ => true
  | .assign target value => value.fits .rax && target.fits
  | .assignIf target value condition => condition.fits && (value.fits .rax && target.fits)
  | .select target condition yes no =>
    condition.fits && ((yes.fits .rax && target.fits) && (no.fits .rax && target.fits))
  | .update target _ value => (target.read.fits .rax && value.fits .rcx) && target.fits
  | .gotoIf _ condition => condition.fits
  | .setSp none value => value.fits .rax
  | .setSp (some _) value => value.fits .rcx
  | .syscall name arguments output =>
    argumentsFit arguments && (name ∈ nonReturning || output.all Place.fits)

/-! ## Expressions and places -/

namespace Frame

theorem memory_isOk (f : Frame) (s : Slot) : (f.memory s).isOk = s.fits := by
  unfold memory Slot.fits
  by_cases h : s.offset.toNat ≤ Slot.maxOffset
  · rw [if_pos h, decide_eq_true h]
    cases s.space <;> rfl
  · rw [if_neg h, decide_eq_false h]
    rfl

/--
An expression can be loaded into a register exactly if it fits there. Both are by recursion on the
expression, and the register matters only for operators.
-/
theorem load_isOk (f : Frame) (e : Expr) (reg : Reg) : (f.load e reg).isOk = e.fits reg := by
  induction e generalizing reg with
  | number value wide => rfl
  | sp => rfl
  | base r => rfl
  | slot s =>
      rw [load, isOk_bind_pure]
      exact memory_isOk f s
  | indirect width address ih =>
      rw [load, isOk_bind_pure]
      exact ih .r11
  | unary op operand ih =>
      rw [load, isOk_bind_pure]
      exact ih reg
  | binary op left right ihl ihr =>
      rw [load, Expr.fits]
      -- an operation is computed in `rax` and nowhere else
      by_cases h : reg = .rax
      · rw [if_pos h, decide_eq_true h, Bool.true_and, isOk_bind fun _ => isOk_bind_pure, ihl, ihr]
      · rw [if_neg h, decide_eq_false h]
        rfl

/--
A place can be stored to if it fits: a slot with an offset that does, outside of the constants, or
an access through an address that can be loaded.
-/
theorem store_isOk (f : Frame) (p : Place) : (f.store p).isOk = p.fits := by
  cases p with
  | slot s =>
      rw [store, Place.fits]
      by_cases h : s.space = .region .const
      · rw [if_pos h]
        simp [h, Except.isOk, Except.toBool]
      · rw [if_neg h, isOk_bind_pure, memory_isOk]
        simp [h]
  | indirect width address =>
      rw [store, isOk_bind_pure, load_isOk]
      rfl

theorem move_isOk (f : Frame) (target : Place) (value : Expr) :
    (f.move target value).isOk = (value.fits .rax && target.fits) := by
  rw [move, isOk_bind fun _ => isOk_bind_pure, load_isOk, store_isOk]

theorem compare_isOk (f : Frame) (c : Condition) : (f.compare c).isOk = c.fits := by
  rw [compare, isOk_bind fun _ => isOk_bind_pure, load_isOk, load_isOk]
  rfl

/-! ## Calls -/

/-- Arguments are loaded one by one, each for a register of its own. -/
theorem loadArguments_isOk (f : Frame) (arguments : List (Expr × Reg)) :
    (f.loadArguments arguments).isOk = arguments.all fun a => a.1.fits a.2 := by
  induction arguments with
  | nil => rfl
  | cons a more ih =>
      rw [loadArguments, isOk_bind fun _ => isOk_bind_pure, load_isOk, ih, List.all_cons]

theorem stackArguments_isOk (f : Frame) (index : Nat) (arguments : List Expr) :
    (f.stackArguments index arguments).isOk = arguments.all fun a => a.fits .rax := by
  induction arguments generalizing index with
  | nil => rfl
  | cons a more ih =>
      rw [stackArguments, isOk_bind fun _ => isOk_bind_pure, load_isOk, ih, List.all_cons]

end Frame

/--
A call needs arguments that fit, and a place that fits for its result if it has one. A procedure
that does not return stores no result, so its place may be anything.
-/
theorem callHost_isOk (mode : Addressing) (name : String) (arguments : List Expr)
    (output : Option Place) :
    (callHost mode name arguments output).isOk =
      (argumentsFit arguments && (name ∈ nonReturning || output.all Place.fits)) := by
  unfold callHost argumentsFit
  refine (isOk_bind fun registers =>
    isOk_bind (b := name ∈ nonReturning || output.all Place.fits) fun slots => ?_).trans ?_
  · -- what follows the arguments
    by_cases hname : name ∈ nonReturning
    · simp only [if_pos hname, decide_eq_true hname]
      rfl
    · simp only [if_neg hname, decide_eq_false hname, Bool.false_or]
      cases output with
      | none => rfl
      | some place => rw [isOk_bind_pure, Frame.store_isOk, Option.all_some]
  · rw [Frame.loadArguments_isOk, Frame.stackArguments_isOk, Bool.and_assoc]

/-! ## Statements and programs -/

/--
A statement can be lowered exactly if all its parts fit. The labels that it takes do not matter, nor
how regions are addressed.
-/
theorem Statement.lower_isOk (mode : Addressing) (fresh : Nat) (s : Statement) :
    (s.lower mode fresh).isOk = s.fits := by
  -- lowering runs the parts in order, and the test asks for all of them
  cases s with
  | label name => rfl
  | goto target => rfl
  | pass count => rfl
  | align boundary => rfl
  | assign target value => rw [lower, isOk_bind_pure, Frame.move_isOk, fits]
  | assignIf target value condition =>
      rw [lower, isOk_bind fun _ => isOk_bind_pure, Frame.compare_isOk, Frame.move_isOk, fits]
  | select target condition yes no =>
      rw [lower, isOk_bind fun _ => isOk_bind fun _ => isOk_bind_pure, Frame.compare_isOk,
        Frame.move_isOk, Frame.move_isOk, fits]
  | update target op value =>
      rw [lower, isOk_bind fun _ => isOk_bind_pure, Frame.operate, Frame.load_isOk,
        Frame.store_isOk, fits]
      rfl
  | gotoIf target condition => rw [lower, isOk_bind_pure, Frame.compare_isOk, fits]
  | setSp op value =>
      cases op with
      | none => rw [lower, isOk_bind_pure, Frame.load_isOk, fits]
      | some op => rw [lower, isOk_bind_pure, Frame.operate, Frame.load_isOk, fits]; rfl
  | syscall name arguments output => rw [lower, isOk_bind_pure, callHost_isOk, fits]

theorem exitSequence_isOk (mode : Addressing) : (exitSequence mode).isOk = true := by
  rw [exitSequence, callHost_isOk]
  decide

namespace Program

/-- Statements are lowered one by one, whatever numbers have been taken before. -/
theorem lowerStatements_isOk (mode : Addressing) (fresh : Nat) (ss : List (Located Statement)) :
    (lowerStatements mode fresh ss).isOk = ss.all fun s => s.value.fits := by
  induction ss generalizing fresh with
  | nil => rfl
  | cons s ss ih =>
      -- which labels are taken plays no part in whether a statement can be lowered
      rw [lowerStatements, List.all_cons, ← s.value.lower_isOk mode fresh]
      cases s.value.lower mode fresh with
      | error e => rfl
      | ok code =>
          rw [isOk_bind_pure, ih]
          rfl

theorem layout_isOk (p : Program) (r : Region) :
    (p.layout r).isOk = (Initializer.layout (p.initializers r)).isOk := by
  unfold layout
  cases Initializer.layout (p.initializers r) <;> rfl

theorem initializers_region {p : Program} {r : Region} {i : Initializer}
    (hi : i ∈ p.initializers r) : i.region = r := by
  unfold initializers at hi
  exact of_decide_eq_true (List.mem_filter.mp hi).2

/-- A program can be lowered exactly if its initial values do not overlap and its statements fit. -/
theorem lower_isOk_iff (p : Program) (mode : Addressing) :
    (p.lower mode).isOk = true ↔
      (∀ r, (p.initializers r).Pairwise fun i j => i.overlaps j = false) ∧
        ∀ s ∈ p.statements, s.value.fits = true := by
  have hparts : (p.lower mode).isOk =
      ((p.layout .data).isOk && ((p.layout .const).isOk &&
        (lowerStatements mode 0 p.statements).isOk)) := by
    -- the exit sequence is the same for all programs and never fails
    obtain ⟨exit, hexit⟩ := isOk_iff.mp (exitSequence_isOk mode)
    unfold lower
    rw [hexit]
    exact isOk_bind fun _ => isOk_bind fun _ => isOk_bind_pure
  have hlayout : ∀ r, (p.layout r).isOk = true ↔
      (p.initializers r).Pairwise fun i j => i.overlaps j = false := by
    intro r
    rw [layout_isOk]
    exact Initializer.layout_isOk_iff _ fun i hi j hj =>
      (initializers_region hi).trans (initializers_region hj).symm
  rw [hparts, lowerStatements_isOk, Bool.and_eq_true, Bool.and_eq_true, hlayout, hlayout,
    List.all_eq_true]
  refine ⟨fun h => ⟨fun r => ?_, h.2.2⟩, fun h => ⟨h.1 _, h.1 _, h.2⟩⟩
  cases r with
  | data => exact h.1
  | const => exact h.2.1

end Program

end Quadword
