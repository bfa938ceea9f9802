import Quadword.Assembly.Listing
import Mathlib.Data.List.Pairwise

/-!
# Which initial values can be laid out

A region is laid out value by value in ascending order of the offsets, and each value is compared
with the end of the one before it only. That is as good as comparing any two of them.

* **`layFrom_isOk_iff`**: ascending values can be laid out exactly if each one ends before the later
  ones start.
* **`layout_isOk_iff`**: values in any order can be laid out exactly if no two of them overlap.
-/

namespace Quadword

namespace Initializer

/-! ## Order -/

theorem before_iff {i j : Initializer} : before i j = true ↔ i.offset.toNat ≤ j.offset.toNat := by
  unfold before
  exact decide_eq_true_iff

theorem before_trans (i j k : Initializer) (hij : before i j = true) (hjk : before j k = true) :
    before i k = true := by
  rw [before_iff] at hij hjk ⊢
  exact Nat.le_trans hij hjk

theorem before_total (i j : Initializer) : (before i j || before j i) = true := by
  rw [Bool.or_eq_true, before_iff, before_iff]
  exact Nat.le_total _ _

theorem pairwise_before_mergeSort (is : List Initializer) :
    (is.mergeSort before).Pairwise fun i j => i.offset.toNat ≤ j.offset.toNat :=
  (List.pairwise_mergeSort before_trans before_total is).imp before_iff.mp

/-! ## Overlap -/

theorem offset_le_lastOffset (i : Initializer) : i.offset.toNat ≤ lastOffset := by
  have hlt : i.offset.toNat < 2 ^ 64 := i.offset.isLt
  unfold lastOffset
  omega

/-- Overlapping is symmetric, so it does not matter which of two initial values comes first. -/
theorem overlaps_comm (i j : Initializer) : i.overlaps j = j.overlaps i := by
  unfold overlaps
  rw [show decide (i.region = j.region) = decide (j.region = i.region) from by simp [eq_comm],
    Bool.and_assoc, Bool.and_assoc, Bool.and_comm (decide (i.offset.toNat < j.stop))]

/-- Of two values in ascending order, the first one alone decides whether they overlap. -/
theorem overlaps_eq_false_of_le {i j : Initializer} (hregion : i.region = j.region)
    (hle : i.offset.toNat ≤ j.offset.toNat) :
    i.overlaps j = false ↔ i.stop ≤ j.offset.toNat := by
  have hi := offset_le_lastOffset i
  have hj := offset_le_lastOffset j
  -- the end of a value is cut at the last offset, which a value may still start at
  have hend : ∀ k : Initializer, k.stop = min (k.offset.toNat + 8) lastOffset := fun _ => rfl
  unfold overlaps
  rw [hend i, hend j]
  simp only [hregion, decide_true, Bool.true_and, Bool.and_eq_false_iff, decide_eq_false_iff_not,
    Nat.not_lt]
  omega

/-! ## Layout -/

/-- Ascending values can be laid out exactly if each ends before any later one starts. -/
theorem layFrom_isOk_iff (is : List Initializer) (offset : Nat)
    (hsorted : is.Pairwise fun i j => i.offset.toNat ≤ j.offset.toNat) :
    (layFrom offset is).isOk = true ↔
      (∀ i ∈ is, offset ≤ i.offset.toNat) ∧ is.Pairwise fun i j => i.stop ≤ j.offset.toNat := by
  induction is generalizing offset with
  | nil => simp [layFrom, Except.isOk, Except.toBool]
  | cons i is ih =>
      obtain ⟨hfirst, hrest⟩ := List.pairwise_cons.mp hsorted
      rw [List.pairwise_cons, layFrom]
      by_cases hlt : i.offset.toNat < offset
      · rw [if_pos hlt]
        refine iff_of_false (by simp [Except.isOk, Except.toBool]) fun h => ?_
        have hge := h.1 i (List.mem_cons_self ..)
        omega
      · have hlay : (layFrom offset (i :: is)).isOk = (layFrom i.stop is).isOk := by
          rw [layFrom, if_neg hlt]
          cases layFrom i.stop is <;> rfl
        rw [layFrom] at hlay
        rw [hlay, ih i.stop hrest]
        refine ⟨fun h => ⟨fun j hj => ?_, h⟩, fun h => h.2⟩
        -- the later values start after `i` does
        rcases List.mem_cons.mp hj with rfl | hmem
        · omega
        · have hle := hfirst j hmem
          omega

/-- Values of one region can be laid out exactly if no two of them overlap. -/
theorem layout_isOk_iff (is : List Initializer) (hregion : ∀ i ∈ is, ∀ j ∈ is, i.region = j.region) :
    (layout is).isOk = true ↔ is.Pairwise fun i j => i.overlaps j = false := by
  unfold layout
  cases is with
  | nil => simp [Except.isOk, Except.toBool]
  | cons i is =>
      rw [if_neg (by simp)]
      generalize hall : i :: is = all at hregion ⊢
      -- sorting changes neither which values there are nor whether two of them overlap
      have hsorted := pairwise_before_mergeSort all
      have hperm := List.mergeSort_perm all before
      rw [layFrom_isOk_iff _ 0 hsorted, ← hperm.pairwise_iff (fun h => by rwa [overlaps_comm])]
      refine ⟨fun h => ?_, fun h => ⟨fun _ _ => Nat.zero_le _, ?_⟩⟩
      · refine (hsorted.and h.2).imp_of_mem fun hi hj hij => ?_
        exact (overlaps_eq_false_of_le
          (hregion _ (hperm.mem_iff.mp hi) _ (hperm.mem_iff.mp hj)) hij.1).mpr hij.2
      · refine (hsorted.and h).imp_of_mem fun hi hj hij => ?_
        exact (overlaps_eq_false_of_le
          (hregion _ (hperm.mem_iff.mp hi) _ (hperm.mem_iff.mp hj)) hij.1).mp hij.2

end Initializer

end Quadword
