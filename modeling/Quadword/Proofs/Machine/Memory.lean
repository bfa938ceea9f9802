import Mathlib.Algebra.Group.Nat.Defs
import Quadword.Machine.Semantics

/-!
# Reading and writing memory

Facts about the bytes of flat memory, bit by bit where numbers meet their bytes.

* **`Ram.read_low`** and **`Ram.write_low`**: reading or writing less than a word has no use for the
  rest of a register.
* **`Ram.read_write`**: what has been written as a word is read back.
* **`Ram.read_congr`**: a number depends on its own bytes only, and **`Ram.write_of_apart`**: a
  write leaves all other bytes alone.
-/

namespace Quadword

theorem Width.bits_eq (w : Width) : w.bits = 8 * w.bytes := by
  cases w <;> rfl

/-! ## Words -/

/-- The low part of a word has its bits up to the width, and zeros above. -/
theorem Word.getLsbD_low (v : Word) (w : Width) (i : Nat) :
    (Word.low v w).getLsbD i = (decide (i < w.bits) && v.getLsbD i) := by
  by_cases hi : i < 64
  · simp [Word.low, hi]
  · rw [BitVec.getLsbD_of_ge _ _ (by omega), BitVec.getLsbD_of_ge v _ (by omega), Bool.and_false]

@[simp] theorem Word.low_qword (v : Word) : Word.low v .qword = v := by
  simp [Word.low, Width.bits]

/-- The bits of a byte of a word are eight in a row of the word's. -/
theorem Word.getLsbD_byte (v : Word) (index i : Nat) :
    (Word.byte v index).getLsbD i = (decide (i < 8) && v.getLsbD (8 * index + i)) := by
  simp [Word.byte]

/-- A byte within the low part of a word is a byte of the word. -/
theorem Word.byte_low (v : Word) (w : Width) {index : Nat} (h : index < w.bytes) :
    Word.byte (Word.low v w) index = Word.byte v index := by
  apply BitVec.eq_of_getLsbD_eq
  intro i hi
  have hlow : 8 * index + i < w.bits := by
    rw [w.bits_eq]
    omega
  rw [getLsbD_byte, getLsbD_byte, getLsbD_low, decide_eq_true hlow, Bool.true_and]

/-! ## Distances -/

theorem toNat_add_ofNat_sub (a : Word) {n : Nat} (hn : n < 2 ^ 64) :
    (a + BitVec.ofNat 64 n - a).toNat = n := by
  rw [BitVec.add_comm, BitVec.add_sub_cancel, BitVec.toNat_ofNat, Nat.mod_eq_of_lt hn]

namespace Ram

variable {m m' : Ram} {w : Width} {address : Word}

/-! ## Reading -/

/--
Each bit of a number is a bit of one of its bytes, the lowest byte first. Numbers of different sizes
are compared through this.
-/
theorem getLsbD_load (m : Ram) (address : Word) (count : Nat) {i : Nat} (hi : i < 64) :
    (m.load address count).getLsbD i =
      (decide (i < 8 * count) && (m (address + BitVec.ofNat 64 (i / 8))).getLsbD (i % 8)) := by
  induction count generalizing address i with
  | zero => simp [load]
  | succ count ih =>
      rw [load, BitVec.getLsbD_or, BitVec.getLsbD_shiftLeft, BitVec.getLsbD_setWidth,
        decide_eq_true hi, Bool.true_and, Bool.true_and]
      by_cases hlow : i < 8
      · -- the first byte
        rw [decide_eq_true hlow, decide_eq_true (show i < 8 * (count + 1) by omega),
          show i / 8 = 0 by omega, show i % 8 = i by omega]
        simp
      · rw [ih (address + 1) (i := i - 8) (by omega), BitVec.getLsbD_of_ge (m address) _ (by omega),
          decide_eq_false hlow, Bool.or_false, Bool.not_false, Bool.true_and,
          show (i - 8) % 8 = i % 8 by omega, show i / 8 = (i - 8) / 8 + 1 by omega,
          BitVec.add_assoc, BitVec.ofNat_add, BitVec.add_comm (BitVec.ofNat 64 _)]
        congr 1
        rw [decide_eq_decide]
        omega

/-- A number depends on its own bytes only. -/
theorem read_congr (h : ∀ i < w.bytes, m (address + BitVec.ofNat 64 i) =
    m' (address + BitVec.ofNat 64 i)) : m.read w address = m'.read w address := by
  apply BitVec.eq_of_getLsbD_eq
  intro i hi
  rw [read, read, getLsbD_load _ _ _ hi, getLsbD_load _ _ _ hi]
  by_cases hlow : i < 8 * w.bytes
  · rw [h (i / 8) (by omega)]
  · rw [decide_eq_false hlow, Bool.false_and, Bool.false_and]

theorem read_low (m : Ram) (w : Width) (address : Word) :
    Word.low (m.read w address) w = m.read w address := by
  apply BitVec.eq_of_getLsbD_eq
  intro i hi
  rw [Word.getLsbD_low, read, getLsbD_load _ _ _ hi, w.bits_eq, ← Bool.and_assoc, Bool.and_self]

/-! ## Writing -/

/-- What is written is the low part of a word. -/
theorem write_low (m : Ram) (w : Width) (address v : Word) :
    m.write w address (Word.low v w) = m.write w address v := by
  funext a
  unfold write store
  split
  · rename_i hin
    exact Word.byte_low v w hin
  · rfl

theorem write_of_apart (v : Word) {a : Word} (h : w.bytes ≤ (a - address).toNat) :
    m.write w address v a = m a := by
  unfold write store
  rw [if_neg (by omega)]

/-- What has been written as a word is read back. -/
theorem read_write (m : Ram) (address v : Word) :
    (m.write .qword address v).read .qword address = v := by
  apply BitVec.eq_of_getLsbD_eq
  intro i hi
  have hbytes : i < 8 * Width.qword.bytes := by
    rw [Width.bytes]
    omega
  have hin : (address + BitVec.ofNat 64 (i / 8) - address).toNat = i / 8 :=
    toNat_add_ofNat_sub address (by omega)
  rw [read, getLsbD_load _ _ _ hi, decide_eq_true hbytes, Bool.true_and, write, store, hin,
    if_pos (by omega), Word.getLsbD_byte, decide_eq_true (show i % 8 < 8 by omega),
    Bool.true_and, show 8 * (i / 8) + i % 8 = i by omega]

end Ram

end Quadword
