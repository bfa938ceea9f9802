import Quadword.Assembly.Target
import Quadword.Program.Shape
import Quadword.Proofs.Lowering.Domain

/-!
# The programs that have an assembly text

Lowering works through a statement and refuses it at the first thing that it cannot do. Which
statements these are can be said without lowering anything, by what occurs in them: binary
operators, slots that are out of reach, and stores to the constants. This holds of every program,
also of those that no text parses to.

* **`Expr.FitsRegister`** and **`Expr.FitsRax`**: what can be loaded into any register, and what can
  be computed in `rax`.
* **`Statement.fits_iff_lowerable`**: the statements that can be lowered.
* **`Program.assemble_ok_iff_lowerable`**: the programs that have an assembly text.
-/

namespace Quadword

/-! ## Expressions -/

namespace Expr

/-- Whether a binary operator occurs in an expression, be it inside an address. -/
def hasOperation : Expr → Bool
  | .binary .. => true
  | .unary _ operand => operand.hasOperation
  | .indirect _ address => address.hasOperation
  | _ => false

/-- The slots in an expression, with those inside addresses. -/
def slots : Expr → List Slot
  | .slot s => [s]
  | .indirect _ address => address.slots
  | .unary _ operand => operand.slots
  | .binary _ left right => left.slots ++ right.slots
  | _ => []

/-- The expression can be loaded into any register. -/
structure FitsRegister (e : Expr) : Prop where
  operation : e.hasOperation = false
  slots : ∀ s ∈ e.slots, s.offset.toNat ≤ 2147483647

/-- The expression can be computed in `rax`. -/
inductive FitsRax : Expr → Prop where
  | register {e : Expr} (h : e.FitsRegister) : FitsRax e
  | unary (op : UnOp) {e : Expr} (h : FitsRax e) : FitsRax (.unary op e)
  /-- The left operand may hold operators in turn, the right one waits for none. -/
  | binary (op : BinOp) {left right : Expr} (hl : FitsRax left) (hr : right.FitsRegister) :
      FitsRax (.binary op left right)

/-- What fits a register by the rules can be loaded into any. -/
theorem FitsRegister.fits {e : Expr} (h : e.FitsRegister) (reg : Reg) : e.fits reg = true := by
  induction e generalizing reg with
  | number value wide => rfl
  | sp => rfl
  | base r => rfl
  | slot s => exact decide_eq_true (h.slots s (List.mem_singleton_self s))
  | indirect width address ih => exact ih ⟨h.operation, h.slots⟩ .r11
  | unary op operand ih => exact ih ⟨h.operation, h.slots⟩ reg
  | binary op left right _ _ => cases h.operation

/--
What can be loaded into a register other than `rax` has no operation, since those go through `rax`.
-/
theorem fitsRegister_of_fits {e : Expr} {reg : Reg} (h : e.fits reg = true) (hreg : reg ≠ .rax) :
    e.FitsRegister := by
  induction e generalizing reg with
  | number value wide => exact ⟨rfl, nofun⟩
  | sp => exact ⟨rfl, nofun⟩
  | base r => exact ⟨rfl, nofun⟩
  | slot s => exact ⟨rfl, List.forall_mem_singleton.mpr (of_decide_eq_true h)⟩
  | indirect width address ih =>
      -- an address is loaded into `r11`, so there the hypothesis on the register holds again
      have haddress := ih h (by decide)
      exact ⟨haddress.operation, haddress.slots⟩
  | unary op operand ih =>
      have hoperand := ih h hreg
      exact ⟨hoperand.operation, hoperand.slots⟩
  | binary op left right _ _ => simp [fits, hreg] at h

theorem fits_iff_fitsRegister {e : Expr} {reg : Reg} (hreg : reg ≠ .rax) :
    e.fits reg = true ↔ e.FitsRegister :=
  ⟨fun h => fitsRegister_of_fits h hreg, fun h => h.fits reg⟩

/--
What fits `rax` by the rules can be loaded into it. The right operand of an operation goes to `rcx`,
so it fits any register, and the left one fits `rax` in turn.
-/
theorem FitsRax.fits {e : Expr} (h : e.FitsRax) : e.fits .rax = true := by
  induction h with
  | register h => exact h.fits .rax
  | unary op _ ih => exact ih
  | binary op _ hr ih => simp [Expr.fits, ih, hr.fits .rcx]

/--
What can be loaded into `rax` fits it by the rules. The converse is easier, and the two together let
the rules stand for the recursion.
-/
theorem fitsRax_of_fits {e : Expr} (h : e.fits .rax = true) : e.FitsRax := by
  induction e with
  | number value wide => exact .register ⟨rfl, nofun⟩
  | sp => exact .register ⟨rfl, nofun⟩
  | base r => exact .register ⟨rfl, nofun⟩
  | slot s => exact .register ⟨rfl, List.forall_mem_singleton.mpr (of_decide_eq_true h)⟩
  | indirect width address =>
      -- the address goes to `r11`, wherever the value goes
      have haddress : address.FitsRegister := fitsRegister_of_fits h (by decide)
      exact .register ⟨haddress.operation, haddress.slots⟩
  | unary op operand ih => exact .unary op (ih h)
  | binary op left right ihl _ =>
      simp only [Expr.fits, decide_true, Bool.true_and, Bool.and_eq_true] at h
      exact .binary op (ihl h.1) (fitsRegister_of_fits h.2 (by decide))

theorem FitsRax.fitsRegister {e : Expr} (h : e.FitsRax) (hop : e.hasOperation = false) :
    e.FitsRegister := by
  induction h with
  | register h => exact h
  | unary op _ ih => exact ⟨hop, (ih hop).slots⟩
  | binary op _ _ _ => cases hop

theorem fits_rax_iff {e : Expr} : e.fits .rax = true ↔ e.FitsRax :=
  ⟨fitsRax_of_fits, FitsRax.fits⟩

instance (e : Expr) : Decidable e.FitsRegister :=
  decidable_of_iff (e.fits .rcx = true) (fits_iff_fitsRegister (by decide))

instance (e : Expr) : Decidable e.FitsRax := decidable_of_iff (e.fits .rax = true) fits_rax_iff

/--
Where an expression can be loaded, no operator hides inside an address. So counting operators and
looking for one come to the same.
-/
theorem operations_eq_zero_iff {e : Expr} {reg : Reg} (h : e.fits reg = true) :
    e.operations = 0 ↔ e.hasOperation = false := by
  induction e generalizing reg with
  | number value wide => exact iff_of_true rfl rfl
  | sp => exact iff_of_true rfl rfl
  | base r => exact iff_of_true rfl rfl
  | slot s => exact iff_of_true rfl rfl
  | indirect width address =>
      -- operators in an address are not counted, but then they must not be there
      have haddress : address.FitsRegister := fitsRegister_of_fits h (by decide)
      exact iff_of_true rfl haddress.operation
  | unary op operand ih => exact ih h
  | binary op left right _ _ =>
      rw [operations, hasOperation]
      exact iff_of_false (by omega) (by decide)

end Expr

/-! ## Statements -/

/-- The place can be stored into. -/
def Place.Storable : Place → Prop
  | .slot s => s.space ≠ .region .const ∧ s.offset.toNat ≤ 2147483647
  | .indirect _ address => address.FitsRegister

/-- The sides of the condition can be compared, the left one in `rax`. -/
structure Condition.Comparable (c : Condition) : Prop where
  left : c.left.FitsRax
  right : c.right.FitsRegister

/-- The statement can be lowered. -/
def Statement.Lowerable : Statement → Prop
  | .label _ | .goto _ | .pass _ | .align _ => True
  | .assign target value => value.FitsRax ∧ target.Storable
  | .assignIf target value condition => condition.Comparable ∧ value.FitsRax ∧ target.Storable
  | .select target condition yes no =>
    condition.Comparable ∧ yes.FitsRax ∧ no.FitsRax ∧ target.Storable
  | .update target _ value => value.FitsRegister ∧ target.Storable
  | .gotoIf _ condition => condition.Comparable
  | .setSp none value => value.FitsRax
  | .setSp (some _) value => value.FitsRegister
  | .syscall name arguments output =>
    (∀ a ∈ arguments.take 4, a.FitsRegister) ∧ (∀ a ∈ arguments.drop 4, a.FitsRax) ∧
      -- what a call would return that never does is not looked at
      (name ∉ nonReturning → ∀ place, output = some place → place.Storable)

/-- A place fits exactly if it can be stored to by the rules. -/
theorem Place.fits_iff_storable {p : Place} : p.fits = true ↔ p.Storable := by
  cases p with
  | slot s =>
      show (decide (s.space ≠ .region .const) && s.fits) = true ↔ _
      rw [Bool.and_eq_true, decide_eq_true_iff, Slot.fits, decide_eq_true_iff]
      exact Iff.rfl
  | indirect width address => exact Expr.fits_iff_fitsRegister (by decide)

/-- What a place holds can be loaded, if something can be stored there. -/
theorem Place.Storable.read_fits {p : Place} (h : p.Storable) (reg : Reg) :
    p.read.fits reg = true := by
  cases p with
  | slot s => exact decide_eq_true h.2
  | indirect width address => exact Expr.FitsRegister.fits h .r11

theorem Condition.fits_iff_comparable {c : Condition} : c.fits = true ↔ c.Comparable := by
  rw [fits, Bool.and_eq_true, Expr.fits_rax_iff, Expr.fits_iff_fitsRegister (by decide)]
  exact ⟨fun h => ⟨h.1, h.2⟩, fun h => ⟨h.left, h.right⟩⟩

/-- Each of the first arguments has a register of its own, and none of these is `rax`. -/
theorem all_zip_arguments_iff {arguments : List Expr} :
    ((arguments.zip Reg.arguments).all fun a => a.1.fits a.2) = true ↔
      ∀ a ∈ arguments.take 4, a.FitsRegister := by
  have hreg : ∀ r ∈ Reg.arguments, r ≠ .rax := by decide
  rw [List.all_eq_true]
  -- there are four argument registers, so the zip ends with the fourth argument
  constructor
  · intro h a ha
    obtain ⟨i, hi⟩ := List.mem_iff_getElem?.mp ha
    rw [List.getElem?_take] at hi
    split at hi
    · next hlt =>
      obtain ⟨r, hr⟩ : ∃ r, Reg.arguments[i]? = some r := ⟨_, List.getElem?_eq_getElem hlt⟩
      have hzip : (a, r) ∈ arguments.zip Reg.arguments :=
        List.mem_of_getElem? (List.getElem?_zip_eq_some.mpr ⟨hi, hr⟩)
      exact Expr.fitsRegister_of_fits (h _ hzip) (hreg r (List.mem_of_getElem? hr))
    · cases hi
  · intro h a ha
    obtain ⟨i, hi⟩ := List.mem_iff_getElem?.mp ha
    obtain ⟨harg, hr⟩ := List.getElem?_zip_eq_some.mp hi
    have hlt : i < 4 := (List.getElem?_eq_some_iff.mp hr).1
    have hmem : a.1 ∈ arguments.take 4 := by
      refine List.mem_iff_getElem?.mpr ⟨i, ?_⟩
      rw [List.getElem?_take, if_pos hlt, harg]
    exact (h _ hmem).fits a.2

/--
The first four arguments go to registers of their own, and the others through `rax`. So different
rules hold for them.
-/
theorem argumentsFit_iff {arguments : List Expr} : argumentsFit arguments = true ↔
    (∀ a ∈ arguments.take 4, a.FitsRegister) ∧ ∀ a ∈ arguments.drop 4, a.FitsRax := by
  rw [argumentsFit, Bool.and_eq_true, all_zip_arguments_iff, List.all_eq_true]
  exact and_congr_right fun _ => forall₂_congr fun a _ => Expr.fits_rax_iff

/--
The statements that can be lowered, by what occurs in them: the tests of lowering on one side, rules
about operators and places on the other.
-/
theorem Statement.fits_iff_lowerable {s : Statement} : s.fits = true ↔ s.Lowerable := by
  -- the first four cases lower no operand
  cases s with
  | label name => exact iff_of_true rfl trivial
  | goto target => exact iff_of_true rfl trivial
  | pass count => exact iff_of_true rfl trivial
  | align boundary => exact iff_of_true rfl trivial
  | assign target value =>
      rw [fits, Bool.and_eq_true, Expr.fits_rax_iff, Place.fits_iff_storable, Lowerable]
  | assignIf target value condition =>
      rw [fits, Bool.and_eq_true, Bool.and_eq_true, Condition.fits_iff_comparable,
        Expr.fits_rax_iff, Place.fits_iff_storable, Lowerable]
  | select target condition yes no =>
      simp only [fits, Bool.and_eq_true, Condition.fits_iff_comparable, Expr.fits_rax_iff,
        Place.fits_iff_storable, Lowerable]
      exact ⟨fun h => ⟨h.1, h.2.1.1, h.2.2.1, h.2.1.2⟩,
        fun h => ⟨h.1, ⟨h.2.1, h.2.2.2⟩, h.2.2.1, h.2.2.2⟩⟩
  | update target op value =>
      simp only [fits, Bool.and_eq_true, Expr.fits_iff_fitsRegister (show Reg.rcx ≠ .rax by decide),
        Place.fits_iff_storable, Lowerable]
      exact ⟨fun h => ⟨h.1.2, h.2⟩, fun h => ⟨⟨h.2.read_fits .rax, h.1⟩, h.2⟩⟩
  | gotoIf target condition => exact Condition.fits_iff_comparable
  | setSp op value =>
      cases op with
      | none => exact Expr.fits_rax_iff
      | some op => exact Expr.fits_iff_fitsRegister (by decide)
  | syscall name arguments output =>
      have houtput : (name ∈ nonReturning || output.all Place.fits) = true ↔
          (name ∉ nonReturning → ∀ place, output = some place → place.Storable) := by
        rw [Bool.or_eq_true, decide_eq_true_iff, Option.all_eq_true]
        simp only [Place.fits_iff_storable]
        exact Decidable.or_iff_not_imp_left
      rw [fits, Bool.and_eq_true, argumentsFit_iff, houtput, Lowerable, and_assoc]

instance (s : Statement) : Decidable s.Lowerable :=
  decidable_of_iff (s.fits = true) Statement.fits_iff_lowerable

/-! ## Programs -/

/--
Two initial values of one region meet: the one that starts later starts before the other one ends.
An end beyond the last offset is cut there.
-/
def Initializer.Meets (i j : Initializer) : Prop :=
  max i.offset.toNat j.offset.toNat < min (min i.offset.toNat j.offset.toNat + 8) lastOffset

/--
Initial values of one region overlap exactly if they meet. The ends that are compared saturate, but
no end is before its start for that.
-/
theorem Initializer.overlaps_eq_false_iff {i j : Initializer} (hregion : i.region = j.region) :
    i.overlaps j = false ↔ ¬ i.Meets j := by
  have hstop : ∀ k : Initializer, k.stop = min (k.offset.toNat + 8) lastOffset := fun _ => rfl
  unfold Meets
  rcases Nat.le_total i.offset.toNat j.offset.toNat with hle | hle
  · rw [overlaps_eq_false_of_le hregion hle, hstop, Nat.max_eq_right hle, Nat.min_eq_left hle]
    omega
  · rw [overlaps_comm, overlaps_eq_false_of_le hregion.symm hle, hstop, Nat.max_eq_left hle,
      Nat.min_eq_right hle]
    omega

/-- The program can be lowered: its initial values are apart, and so can its statements be. -/
structure Program.Lowerable (p : Program) : Prop where
  apart : ∀ r, (p.initializers r).Pairwise fun i j => ¬ i.Meets j
  statements : ∀ s ∈ p.statements, s.value.Lowerable

namespace Program

/-- The initial values of a region do not overlap exactly if no two of them meet. -/
theorem pairwise_overlaps_iff (p : Program) (r : Region) :
    ((p.initializers r).Pairwise fun i j => i.overlaps j = false) ↔
      (p.initializers r).Pairwise fun i j => ¬ i.Meets j :=
  List.Pairwise.iff_of_mem fun hi hj =>
    Initializer.overlaps_eq_false_iff ((initializers_region hi).trans (initializers_region hj).symm)

/--
**Which programs have an assembly text.** Whatever the target, a program has a text exactly if no
two initial values of a region meet and each of its statements can be lowered, which is a matter of
what occurs where: operators, slots out of reach, and stores to the constants.
-/
theorem assemble_ok_iff_lowerable (p : Program) (t : Target) :
    (∃ text, p.assemble t = .ok text) ↔ p.Lowerable := by
  have hassemble : (p.assemble t).isOk = (p.lower t.addressing).isOk := isOk_bind_pure
  rw [← isOk_iff, hassemble, lower_isOk_iff]
  simp only [pairwise_overlaps_iff, Statement.fits_iff_lowerable]
  exact ⟨fun h => ⟨h.1, h.2⟩, fun h => ⟨h.apart, h.statements⟩⟩

end Program

/-- An operation is accepted as an argument on the stack, but not as one in a register. -/
example :
    let sum : Expr := .binary .add (.number 1 false) .sp
    (Statement.syscall "Beep" [.sp, .sp, .sp, .sp, sum] none).Lowerable ∧
      ¬ (Statement.syscall "Beep" [.sp, .sp, .sp, sum] none).Lowerable := by
  decide

end Quadword
