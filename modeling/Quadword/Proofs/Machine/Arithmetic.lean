import Mathlib.Algebra.Group.Nat.Defs
import Quadword.Machine.Semantics

/-!
# Comparisons and divisions

What the flags say after a comparison, and what a division of the double word `rdx:rax` gives when
`rdx` only extends `rax`.

* **`Comparison.cond_holds`**: the condition of a comparison tests that comparison, and its inverse
  (`Cond.inverse_holds`) tests the opposite.
* **`Machine.signedDivide?_extended`** and **`Machine.unsignedDivide?_extended`**: a division faults
  exactly if the operator does, and else gives its quotient and remainder.
-/

namespace Quadword

/-! ## Comparisons -/

/-- The sign and overflow flags differ exactly if the first operand is the smaller one. -/
theorem Flags.ofCompare_slt (a b : Word) :
    ((Flags.ofCompare a b).sign ≠ (Flags.ofCompare a b).overflow) ↔ a.toInt < b.toInt := by
  have ha := BitVec.le_toInt a
  have ha' := BitVec.toInt_lt (x := a)
  have hb := BitVec.le_toInt b
  have hb' := BitVec.toInt_lt (x := b)
  -- the difference of the words is that of their values, but for one wrap to either side
  have hsub : (a - b).toInt = (a.toInt - b.toInt).bmod (2 ^ 64) := BitVec.toInt_sub ..
  rw [Int.bmod_def] at hsub
  simp only [ofCompare, BitVec.msb_eq_toInt]
  generalize a.toInt = x at *
  generalize b.toInt = y at *
  generalize (a - b).toInt = z at *
  grind

/-- The inverse of a condition holds exactly if the condition does not, whatever the flags are. -/
theorem Cond.inverse_holds (f : Flags) (c : Cond) : c.inverse.holds f = !c.holds f := by
  obtain ⟨zero, carry, sign, overflow⟩ := f
  revert zero carry sign overflow
  cases c <;> decide

/--
The condition of a comparison, tested after comparing two words, decides that comparison. Only here
the four flags of a comparison are worked out.
-/
theorem Comparison.cond_holds (c : Comparison) (a b : Word) :
    c.cond.holds (.ofCompare a b) = c.holds a b := by
  have hslt : decide ((Flags.ofCompare a b).sign ≠ (Flags.ofCompare a b).overflow) = a.slt b :=
    decide_eq_decide.mpr (Flags.ofCompare_slt a b)
  have hsge : decide ((Flags.ofCompare a b).sign = (Flags.ofCompare a b).overflow) = !a.slt b := by
    rw [← hslt, decide_not, Bool.not_not]
  have hzero : (Flags.ofCompare a b).zero = decide (a = b) := rfl
  have hcarry : (Flags.ofCompare a b).carry = a.ult b := rfl
  have heq : a = b ↔ a.toNat = b.toNat := BitVec.toNat_eq
  have heqInt : a = b ↔ a.toInt = b.toInt := BitVec.toInt_inj.symm
  -- four facts about the flags decide all comparisons, up to arithmetic on the operands
  cases c with
  | eq => exact hzero
  | ne =>
      rw [cond, Cond.holds, holds, hzero]
      exact (decide_not).symm
  | lt s =>
      cases s with
      | signed => exact hslt
      | unsigned => exact hcarry
  | le s =>
      cases s with
      | signed =>
          rw [cond, Cond.holds, holds, hzero, hslt, BitVec.slt, BitVec.sle, ← Bool.decide_or,
            decide_eq_decide, heqInt]
          omega
      | unsigned =>
          rw [cond, Cond.holds, holds, hzero, hcarry, BitVec.ult, BitVec.ule, ← Bool.decide_or,
            decide_eq_decide, heq]
          omega
  | gt s =>
      cases s with
      | signed =>
          rw [cond, Cond.holds, holds, hzero, hsge, BitVec.slt, BitVec.slt, ← decide_not,
            ← decide_not, ← Bool.decide_and, decide_eq_decide, heqInt]
          omega
      | unsigned =>
          rw [cond, Cond.holds, holds, hzero, hcarry, BitVec.ult, BitVec.ult, ← decide_not,
            ← decide_not, ← Bool.decide_and, decide_eq_decide, heq]
          omega
  | ge s =>
      cases s with
      | signed =>
          rw [cond, Cond.holds, holds, hsge, BitVec.slt, BitVec.sle, ← decide_not,
            decide_eq_decide]
          omega
      | unsigned =>
          rw [cond, Cond.holds, holds, hcarry, BitVec.ult, BitVec.ule, ← decide_not,
            decide_eq_decide]
          omega

/-! ## Divisions -/

/-- A double word as a number: the high half counts `2 ^ 64` times as much. -/
theorem toNat_doubleWord (hi lo : Word) : (hi ++ lo).toNat = hi.toNat * 2 ^ 64 + lo.toNat := by
  rw [BitVec.toNat_append, ← Nat.shiftLeft_add_eq_or_of_lt lo.isLt, Nat.shiftLeft_eq]

/-- Extending the sign of a word into the high half leaves its signed value. -/
theorem toInt_signExtended (a : Word) :
    ((if a.msb then -1 else 0 : Word) ++ a).toInt = a.toInt := by
  have ha : a.toNat < 2 ^ 64 := a.isLt
  rw [BitVec.toInt_eq_toNat_cond, BitVec.toInt_eq_toNat_cond, toNat_doubleWord, BitVec.msb_eq_decide]
  -- the high half has all bits set or none, and its value is that or zero
  by_cases hneg : 2 ^ (64 - 1) ≤ a.toNat
  · have hhigh : ((if decide (2 ^ (64 - 1) ≤ a.toNat) then -1 else 0 : Word)).toNat = 2 ^ 64 - 1 := by
      rw [decide_eq_true hneg]
      rfl
    rw [hhigh, if_neg (by omega), if_neg (by omega)]
    omega
  · have hhigh : ((if decide (2 ^ (64 - 1) ≤ a.toNat) then -1 else 0 : Word)).toNat = 0 := by
      rw [decide_eq_false hneg]
      rfl
    rw [hhigh, if_pos (by omega), if_pos (by omega)]
    omega

namespace Machine

variable {m : Machine}

/--
A signed division of a word, its sign extended into `rdx`. Apart from a divisor of zero there is one
case in which the quotient does not fit, and the operator faults in both.
-/
theorem signedDivide?_extended {a : Word} (b : Word) (hrax : m.regs .rax = a)
    (hrdx : m.regs .rdx = if a.msb then -1 else 0) :
    m.signedDivide? b =
      if BinOp.divisionFaults a b then none else some (a.sdiv b, a.srem b) := by
  unfold signedDivide? BinOp.divisionFaults
  simp only [hrax, hrdx, toInt_signExtended]
  by_cases hzero : b = 0
  · simp [hzero]
  · -- the one quotient that is too large, and all the others
    by_cases hover : a = BitVec.intMin 64 ∧ b = -1
    · obtain ⟨rfl, rfl⟩ := hover
      decide
    · -- the quotient is the value of a word, so it is in range
      have hne : a ≠ BitVec.intMin 64 ∨ b ≠ -1#64 := by
        by_cases ha : a = BitVec.intMin 64
        · exact .inr fun hb => hover ⟨ha, hb⟩
        · exact .inl ha
      have hquot := BitVec.toInt_sdiv_of_ne_or_ne a b hne
      have hlow := BitVec.le_toInt (a.sdiv b)
      have hhigh := BitVec.toInt_lt (x := a.sdiv b)
      rw [← hquot, ← BitVec.toInt_srem, BitVec.ofInt_toInt, BitVec.ofInt_toInt]
      simp only [hzero, decide_false, Bool.false_or]
      rw [if_neg (by simp; omega), if_neg (by simpa using hover)]

/--
An unsigned division of a word, the high half being zero. So the machine faults for a divisor of
zero and in no other case.
-/
theorem unsignedDivide?_extended {a : Word} (b : Word) (hrax : m.regs .rax = a)
    (hrdx : m.regs .rdx = 0) :
    m.unsignedDivide? b = if b = 0 then none else some (a.udiv b, a.umod b) := by
  have hvalue : ((0 : Word) ++ a).toNat = a.toNat := by
    rw [toNat_doubleWord]
    simp
  unfold unsignedDivide?
  simp only [hrax, hrdx, hvalue]
  by_cases hzero : b = 0
  · simp [hzero]
  · have hle : a.toNat / b.toNat ≤ a.toNat := Nat.div_le_self _ _
    have ha : a.toNat < 2 ^ 64 := a.isLt
    have hquot : BitVec.ofNat 64 (a.toNat / b.toNat) = a.udiv b := by
      apply BitVec.eq_of_toNat_eq
      rw [BitVec.toNat_ofNat, Nat.mod_eq_of_lt (by omega)]
      exact BitVec.toNat_udiv.symm
    have hrem : BitVec.ofNat 64 (a.toNat % b.toNat) = a.umod b := by
      apply BitVec.eq_of_toNat_eq
      rw [BitVec.toNat_ofNat, Nat.mod_eq_of_lt (Nat.lt_of_le_of_lt (Nat.mod_le _ _) ha)]
      exact BitVec.toNat_umod.symm
    -- the upper half of the dividend is zero, so the quotient always fits
    have hfits : ¬ 18446744073709551615 < a.toNat / b.toNat := by omega
    rw [hquot, hrem, decide_eq_false hzero, decide_eq_false hfits, if_neg hzero]
    rfl

end Machine

end Quadword
