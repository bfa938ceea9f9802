import Mathlib.Algebra.Group.Int.Defs
import Quadword.Proofs.Simulation.Statement

/-!
# Conditions decide by the order that they name

A comparison reads its operands as numbers with or without a sign, while a conditional jump sees
flags only. What the flags have to say is stated here as the manuals of the processor state it, in
terms of the difference of the two operands, and not as the model computes them.

* **`Flags.ofCompare_compares`** and **`Flags.Compares.eq_ofCompare`**: the flags of the model are
  the ones that the manuals describe, and no others are.
* **`Flags.jumps?_mnemonic`**: a jump is printed under the mnemonic that has its meaning.
* **`Comparison.holds_iff`**: a comparison holds exactly if the numbers are in its relation.
* **`Statement.exec_choose`**: a statement under a condition does what one of two statements
  without one does.
* **`Comparison.decides`**: jumps and statements all follow that one decision.
-/

namespace Quadword

/-! ## Flags -/

/-- The flags that comparing two words leaves, as the manuals describe them. -/
structure Flags.Compares (f : Flags) (a b : Word) : Prop where
  zero : f.zero = true ↔ a - b = 0
  /-- The difference of the unsigned numbers needs a borrow. -/
  carry : f.carry = true ↔ (a.toNat : Int) - b.toNat < 0
  sign : f.sign = true ↔ (a - b).msb = true
  /-- The difference of the signed numbers is out of range. -/
  overflow : f.overflow = true ↔ a.toInt - b.toInt < -2 ^ 63 ∨ 2 ^ 63 ≤ a.toInt - b.toInt

/--
The overflow of a difference, as it is computed from the signs, is the overflow of a subtraction
with signs.
-/
theorem Flags.ofCompare_overflow (a b : Word) :
    (Flags.ofCompare a b).overflow = a.ssubOverflow b := by
  -- both are said by the signs of the operands and of the difference
  show (decide (a.msb ≠ b.msb) && decide ((a - b).msb ≠ a.msb)) = a.ssubOverflow b
  rw [BitVec.ssubOverflow_eq]
  generalize a.msb = x
  generalize b.msb = y
  generalize (a - b).msb = z
  revert x y z
  decide

/-- The flags that a comparison leaves are as the description says. -/
theorem Flags.ofCompare_compares (a b : Word) : (Flags.ofCompare a b).Compares a b where
  zero := by
    rw [ofCompare, decide_eq_true_iff, BitVec.sub_eq_iff_eq_add]
    exact ⟨fun h => h.trans (BitVec.zero_add b).symm, fun h => h.trans (BitVec.zero_add b)⟩
  carry := by
    rw [ofCompare, BitVec.ult, decide_eq_true_iff]
    omega
  sign := Iff.rfl
  overflow := by
    rw [ofCompare_overflow, BitVec.ssubOverflow, Bool.or_eq_true, decide_eq_true_iff,
      decide_eq_true_iff]
    exact Or.comm

/-- The description leaves no flag open. -/
theorem Flags.Compares.eq_ofCompare {f : Flags} {a b : Word} (h : f.Compares a b) :
    f = .ofCompare a b := by
  have hmodel := Flags.ofCompare_compares a b
  obtain ⟨zero, carry, sign, overflow⟩ := f
  rw [ofCompare] at hmodel ⊢
  rw [mk.injEq]
  exact ⟨Bool.eq_iff_iff.mpr (h.zero.trans hmodel.zero.symm),
    Bool.eq_iff_iff.mpr (h.carry.trans hmodel.carry.symm),
    Bool.eq_iff_iff.mpr (h.sign.trans hmodel.sign.symm),
    Bool.eq_iff_iff.mpr (h.overflow.trans hmodel.overflow.symm)⟩

/-! ## Mnemonics -/

/--
Whether the processor takes a conditional jump, by the mnemonic in the text of a program: the flags
that its manuals list for each. An assembler knows no other meaning of a jump than this.
-/
def Flags.jumps? (f : Flags) (mnemonic : String) : Option Bool :=
  [("je", f.zero), ("jne", !f.zero),
    ("jl", f.sign ≠ f.overflow), ("jge", f.sign = f.overflow),
    ("jle", f.zero || f.sign ≠ f.overflow), ("jg", !f.zero && f.sign = f.overflow),
    ("jb", f.carry), ("jae", !f.carry),
    ("jbe", f.carry || f.zero), ("ja", !f.carry && !f.zero)].lookup mnemonic

/-- The jump that is printed for a condition is the one that is taken when the condition holds. -/
theorem Flags.jumps?_mnemonic (f : Flags) (c : Cond) :
    f.jumps? (Opcode.j c).mnemonic = some (c.holds f) := by
  cases c <;> rfl

/-! ## Relations -/

/-- The number that is read in a word. -/
def Signedness.value : Signedness → Word → Int
  | .signed, a => a.toInt
  | .unsigned, a => a.toNat

namespace Comparison

/-- Two words are in the relation that a comparison names, read as the numbers that it compares. -/
def Relates : Comparison → Word → Word → Prop
  | eq, a, b => a = b
  | ne, a, b => a ≠ b
  | lt s, a, b => s.value a < s.value b
  | le s, a, b => s.value a ≤ s.value b
  | gt s, a, b => s.value a > s.value b
  | ge s, a, b => s.value a ≥ s.value b

instance : (c : Comparison) → (a b : Word) → Decidable (c.Relates a b)
  | eq, a, b => inferInstanceAs (Decidable (a = b))
  | ne, a, b => inferInstanceAs (Decidable (a ≠ b))
  | lt s, a, b => inferInstanceAs (Decidable (s.value a < s.value b))
  | le s, a, b => inferInstanceAs (Decidable (s.value a ≤ s.value b))
  | gt s, a, b => inferInstanceAs (Decidable (s.value a > s.value b))
  | ge s, a, b => inferInstanceAs (Decidable (s.value a ≥ s.value b))

/--
A comparison of words holds exactly if the relation does, between the numbers that the words are
with or without signs.
-/
theorem holds_iff (c : Comparison) (a b : Word) : c.holds a b = true ↔ c.Relates a b := by
  cases c with
  | eq | ne => exact decide_eq_true_iff
  | lt s | gt s =>
      cases s with
      | signed => exact BitVec.slt_iff_toInt_lt
      | unsigned => exact BitVec.ult_iff_toNat_lt.trans Int.ofNat_lt.symm
  | le s | ge s =>
      cases s with
      | signed => exact BitVec.sle_iff_toInt_le
      | unsigned => exact BitVec.ule_iff_toNat_le.trans Int.ofNat_le.symm

theorem holds_eq_decide (c : Comparison) (a b : Word) : c.holds a b = decide (c.Relates a b) := by
  rw [Bool.eq_iff_iff, decide_eq_true_iff]
  exact c.holds_iff a b

/--
With flags that two words left, the condition of a comparison holds if they are in its relation.
-/
theorem cond_holds_eq_decide (c : Comparison) {f : Flags} {a b : Word} (h : f.Compares a b) :
    c.cond.holds f = decide (c.Relates a b) := by
  -- flags that fit the description are those of the model, so its conditions apply to them
  rw [h.eq_ofCompare, cond_holds, c.holds_eq_decide]

/-- So the printed jump is taken in that case, and the one for the inverse condition otherwise. -/
theorem jumps?_of_compares (c : Comparison) {f : Flags} {a b : Word} (h : f.Compares a b) :
    f.jumps? (Opcode.j c.cond).mnemonic = some (decide (c.Relates a b)) ∧
      f.jumps? (Opcode.j c.cond.inverse).mnemonic = some (decide (¬ c.Relates a b)) := by
  rw [Flags.jumps?_mnemonic, Flags.jumps?_mnemonic, Cond.inverse_holds, c.cond_holds_eq_decide h,
    decide_not]
  exact ⟨rfl, rfl⟩

end Comparison

/-! ## Decisions -/

/-- Whether the values of both sides are in the relation of a condition, if they have values. -/
def Condition.decision (bases : Bases) (st : State) (c : Condition) : Option Bool := do
  let a ← c.left.eval bases st
  let b ← c.right.eval bases st
  return decide (c.comparison.Relates a b)

/--
A condition means what its comparison decides about the values of its sides, and faults where one of
these does.
-/
theorem Condition.eval_eq_decision (bases : Bases) (st : State) (c : Condition) :
    c.eval bases st = c.decision bases st := by
  simp only [eval, decision, Comparison.holds_eq_decide]

namespace Statement

/-- The condition that a statement is under. -/
def condition? : Statement → Option Condition
  | assignIf _ _ c | select _ c _ _ | gotoIf _ c => some c
  | _ => none

/-- Where the code of a statement under a condition jumps, and upon which decision. -/
def branch? (fresh : Nat) : Statement → Option (Symbol × Bool)
  | gotoIf target _ => some (target.symbol, true)
  | assignIf .. | select .. => some (.numbered fresh, false)
  | _ => none

/-- What a statement under a condition comes down to, once it is known whether that holds. -/
def choose (holds : Bool) : Statement → Statement
  | assignIf target value _ => if holds then assign target value else pass 0
  | select target _ yes no => assign target (if holds then yes else no)
  | gotoIf target _ => if holds then goto target else pass 0
  | s => s

/-- A statement under a condition does what the condition chooses, and faults if that faults. -/
theorem exec_choose {s : Statement} {c : Condition} (h : s.condition? = some c) (bases : Bases)
    (st : State) :
    s.exec bases st =
      (c.eval bases st).elim .fault fun holds => (s.choose holds).exec bases st := by
  cases s with
  | assignIf target value condition =>
      cases h
      rw [exec, Effect.ofOption_bind]
      -- a statement that does nothing stands for the assignment that is left out
      congr 1
      funext holds
      cases holds <;> rfl
  | select target condition yes no =>
      cases h
      rw [exec, Effect.ofOption_bind]
      rfl
  | gotoIf target condition =>
      cases h
      rw [exec]
      cases c.eval bases st with
      | none => rfl
      | some holds => cases holds <;> rfl
  | _ => cases h

theorem callee?_of_condition {s : Statement} {c : Condition} (h : s.condition? = some c) :
    s.callee? = none := by
  cases s with
  | syscall => cases h
  | _ => rfl

end Statement

/--
A test comes to a decision and leaves the state as it was: it faults if there is no decision, jumps
to the symbol upon the given one, and goes on upon the other.
-/
def Branches (leftover : Leftover) (bases : Bases) (test : List Instruction) (target : Symbol)
    (upon : Bool) (m : Machine) : Option Bool → Prop
  | none => execAll leftover bases test m = .fault
  | some holds => ∃ m', m'.state .rsp = m.state .rsp ∧
      execAll leftover bases test m = if holds = upon then .jump target m' else .next m'

/-- The condition to test after comparing, for a jump upon the given decision. -/
def Comparison.condUpon (c : Comparison) (upon : Bool) : Cond :=
  if upon then c.cond else c.cond.inverse

/-- The condition of a jump upon either answer holds exactly if that is the answer. -/
theorem Comparison.condUpon_holds (c : Comparison) (upon : Bool) (f : Flags) :
    (c.condUpon upon).holds f = decide (c.cond.holds f = upon) := by
  cases upon with
  | true => exact Bool.decide_eq_true.symm
  | false => exact (Cond.inverse_holds f c.cond).trans Bool.decide_eq_false.symm

section

variable {leftover : Leftover} {bases : Bases} {mode : Addressing}

/-- A comparison and a jump on its condition, or on the inverse of it. -/
theorem Frame.compare_branches {c : Condition} {compared : List Instruction}
    (hcompared : Frame.compare ⟨mode, .rsp⟩ c = .ok compared) (upon : Bool) (target : Symbol)
    (m : Machine) :
    Branches leftover bases (compared ++ [jump (.j (c.comparison.condUpon upon)) target]) target
      upon m (c.decision bases (m.state .rsp)) := by
  have hcomputes : Computes leftover bases compared m (c.eval bases (m.state .rsp)) _ :=
    Frame.compare_computes hcompared rsp_not_mem_scratch m
  rw [c.eval_eq_decision] at hcomputes
  cases hdecision : c.decision bases (m.state .rsp) with
  | none =>
      rw [hdecision] at hcomputes
      have hfault : execAll leftover bases compared m = .fault := hcomputes
      rw [Branches, execAll_append, hfault]
  | some holds =>
      rw [hdecision] at hcomputes
      obtain ⟨m', hexec, hholds, hstate⟩ := hcomputes
      -- the jump is taken upon the outcome it was chosen for
      have hjump : execAll leftover bases [jump (.j (c.comparison.condUpon upon)) target] m' =
          if holds = upon then .jump target m' else .next m' := by
        rw [execAll, exec_j, c.comparison.condUpon_holds, hholds]
        by_cases h : holds = upon <;> simp [h, execAll]
      refine ⟨m', hstate, ?_⟩
      rw [execAll_append, hexec]
      exact hjump

theorem straight_begins {is js : List Instruction} (h : is <+: js) (more : List Line) :
    straight is <+: straight js ++ more :=
  (h.map Line.instruction).trans (List.prefix_append ..)

/-- The code of a statement under a condition starts with a test of that condition. -/
theorem Statement.lower_branches {s : Statement} {c : Condition} {fresh : Nat} {seg : List Line}
    (hs : s.condition? = some c) (hlower : s.lower mode fresh = .ok seg) :
    ∃ test target upon, straight test <+: seg ∧
      s.branch? fresh = some (target, upon) ∧
      ∀ m, Branches leftover bases test target upon m (c.decision bases (m.state .rsp)) := by
  cases s with
  | assignIf place value condition =>
      cases hs
      obtain ⟨compared, hcompared, hlower⟩ := bind_eq_ok.mp hlower
      obtain ⟨moved, hmoved, hseg⟩ := bind_eq_ok.mp hlower
      cases hseg
      -- the value is moved only if the jump on the inverse condition is not taken
      have htest : compared ++ [jump (.j c.comparison.cond.inverse) (.numbered fresh)] <+:
          compared ++ jump (.j c.comparison.cond.inverse) (.numbered fresh) :: moved :=
        ⟨moved, List.append_assoc ..⟩
      exact ⟨_, _, _, straight_begins htest _, rfl,
        Frame.compare_branches hcompared false (.numbered fresh)⟩
  | select place condition yes no =>
      cases hs
      obtain ⟨compared, hcompared, hlower⟩ := bind_eq_ok.mp hlower
      obtain ⟨yesCode, hyesCode, hlower⟩ := bind_eq_ok.mp hlower
      obtain ⟨noCode, hnoCode, hseg⟩ := bind_eq_ok.mp hlower
      cases hseg
      have htest : compared ++ [jump (.j c.comparison.cond.inverse) (.numbered fresh)] <+:
          compared ++ jump (.j c.comparison.cond.inverse) (.numbered fresh) :: yesCode
            ++ [jump .jmp (.numbered (fresh + 1))] :=
        ⟨yesCode ++ [jump .jmp (.numbered (fresh + 1))], by simp⟩
      exact ⟨_, _, _, (straight_begins htest _).trans (List.prefix_append ..), rfl,
        Frame.compare_branches hcompared false (.numbered fresh)⟩
  | gotoIf target condition =>
      cases hs
      obtain ⟨compared, hcompared, hseg⟩ := bind_eq_ok.mp hlower
      cases hseg
      exact ⟨_, _, _, List.prefix_refl _, rfl,
        Frame.compare_branches hcompared true target.symbol⟩
  | _ => cases hs

end

/--
**Comparisons decide by the order that they name, and all code follows the one decision.** Comparing
two registers sets the flags as described. With flags that are set so for two words, the jump on the
condition of a comparison is taken exactly if the words are in its relation, and the jump on the
inverse condition exactly if they are not, and the mnemonics that are printed for the two have just
this meaning. And a statement under a condition decides by nothing but
the condition and the state: its code starts with a test that branches upon this one decision, and
wherever the code stands it does what the statement that the decision chooses does.
-/
theorem Comparison.decides (leftover : Leftover) (bases : Bases) :
    (∀ m, ∃ f, Instruction.exec ⟨.cmp, raxRcx⟩ leftover bases m = .next (m.setFlags f) ∧
      f.Compares (m.regs .rax) (m.regs .rcx)) ∧
    (∀ (c : Comparison) (a b : Word) (m : Machine) (s : Symbol), m.flags.Compares a b →
      (jump (.j c.cond) s).exec leftover bases m =
          (if c.Relates a b then .jump s m else .next m) ∧
        (jump (.j c.cond.inverse) s).exec leftover bases m =
          (if c.Relates a b then .next m else .jump s m) ∧
        m.flags.jumps? (Opcode.j c.cond).mnemonic = some (decide (c.Relates a b)) ∧
        m.flags.jumps? (Opcode.j c.cond.inverse).mnemonic = some (decide (¬ c.Relates a b))) ∧
    (∀ (s : Statement) (c : Condition) (mode : Addressing) (fresh : Nat) (seg : List Line),
      s.condition? = some c → s.lower mode fresh = .ok seg →
        (∃ test target upon, straight test <+: seg ∧
          s.branch? fresh = some (target, upon) ∧
          ∀ m, Branches leftover bases test target upon m (c.decision bases (m.state .rsp))) ∧
        ∀ (code : List Line) (lo : Nat) (m : Machine), Holds code lo seg →
          (∀ g, fresh ≤ g → g < fresh + s.labels → Unseen code (.numbered g) lo) →
          (∀ d, s.jump? = some d → ∃ k, code.findIdx? (fun l => l = .label d.symbol) = some k) →
          Realizes code leftover bases lo (lo + seg.length) ⟨lo, m⟩
            ((c.decision bases (m.state .rsp)).elim .fault fun holds =>
              (s.choose holds).exec bases (m.state .rsp))) := by
  refine ⟨fun m => ⟨_, exec_cmp, Flags.ofCompare_compares _ _⟩, fun c a b m s h => ?_, ?_⟩
  · have hcond := c.cond_holds_eq_decide h
    have hprinted := c.jumps?_of_compares h
    -- the jump is taken in one case and its inverse in the other
    by_cases hrel : c.Relates a b
    · rw [decide_eq_true hrel] at hcond
      rw [if_pos hrel, if_pos hrel]
      exact ⟨exec_j_taken s hcond, exec_j_passed s (by rw [Cond.inverse_holds, hcond]; rfl),
        hprinted⟩
    · rw [decide_eq_false hrel] at hcond
      rw [if_neg hrel, if_neg hrel]
      exact ⟨exec_j_passed s hcond, exec_j_taken s (by rw [Cond.inverse_holds, hcond]; rfl),
        hprinted⟩
  · intro s c mode fresh seg hs hlower
    refine ⟨Statement.lower_branches hs hlower, fun code lo m hcode hfresh hlabel => ?_⟩
    rw [← c.eval_eq_decision, ← Statement.exec_choose hs]
    exact Statement.realizes hlower hcode hfresh (Statement.callee?_of_condition hs) hlabel m

/-- The least signed number is below one, although the sign flag is clear after comparing them. -/
theorem Comparison.decides_overflow :
    let least : Word := BitVec.intMin 64
    let m : Machine := ⟨fun _ => least, .ofCompare least 1, fun _ => 0⟩
    let leftover : Leftover := fun _ m => m.flags
    let bases : Bases := fun _ => 0
    let c : Condition := ⟨.sp, .lt .signed, .number 1 false⟩
    let target : Place := .slot ⟨.stack, 0⟩
    let comesTo (s t : Statement) : Prop := ∃ seg, s.lower .relative 0 = .ok seg ∧
      Realizes (seg ++ [.label .finish]) leftover bases 0 (0 + seg.length) ⟨0, m⟩
        (t.exec bases (m.state .rsp))
    m.flags.sign = false ∧
      (jump (.j .l) .finish).exec leftover bases m = .jump .finish m ∧
      (jump (.j .ge) .finish).exec leftover bases m = .next m ∧
      m.flags.jumps? "jge" = some false ∧
      comesTo (.gotoIf .finish c) (.goto .finish) ∧
      comesTo (.assignIf target (.number 7 false) c) (.assign target (.number 7 false)) ∧
      comesTo (.select target c (.number 7 false) (.number 8 false))
        (.assign target (.number 7 false)) := by
  intro least m leftover bases c target comesTo
  obtain ⟨-, hjumps, hstatements⟩ := Comparison.decides leftover bases
  obtain ⟨htaken, hpassed, -, hprinted⟩ :=
    hjumps (.lt .signed) least 1 m .finish (Flags.ofCompare_compares least 1)
  have hrel : Relates (.lt .signed) least 1 := by decide
  have hdecision : c.decision bases (m.state .rsp) = some true := by decide
  -- the three statements share the condition, and so the decision
  have hcomes : ∀ (s : Statement) (seg : List Line), s.condition? = some c →
      s.lower .relative 0 = .ok seg →
      (∀ d, s.jump? = some d →
        ∃ k, (seg ++ [Line.label .finish]).findIdx? (fun l => l = .label d.symbol) = some k) →
      comesTo s (s.choose true) := fun s seg hs hlower hlabel => by
    obtain ⟨-, hcode⟩ := hstatements s c .relative 0 seg hs hlower
    have h := hcode _ 0 m ⟨[], [Line.label .finish], rfl, rfl⟩
      (fun g _ _ => List.not_mem_nil) hlabel
    rw [hdecision] at h
    exact ⟨seg, hlower, h⟩
  refine ⟨by decide, htaken.trans (if_pos hrel), hpassed.trans (if_pos hrel), hprinted, ?_, ?_, ?_⟩
  · refine hcomes _ _ rfl rfl fun d hd => ?_
    cases hd
    exact ⟨4, by decide⟩
  · exact hcomes _ _ rfl rfl nofun
  · exact hcomes _ _ rfl rfl nofun

end Quadword
