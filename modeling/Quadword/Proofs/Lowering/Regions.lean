import Mathlib.Data.List.Permutation
import Quadword.Assembly.Error
import Quadword.Machine.Ram
import Quadword.Program.Parser
import Quadword.Proofs.Grammar.Reading
import Quadword.Proofs.Lowering.Layout

/-!
# The bytes of a region

What a layout stands for is a run of bytes. Each initial value is found at the offset that it names,
everything between the values is zero, and the run ends with the last of them. In which order the
values were given plays no part, neither in the bytes nor in which value is refused.

* **`layFrom_image`**: the bytes that are laid out from an offset on.
* **`layFrom_eq_error_iff`**: which value is refused.
* **`layout_exact`**: the layout of a region, whatever the order of its values.
* **`flags_iff_layout_refuses`**: the parser compares each value with those before it and finds the
  same conflicts as the layout, which compares neighbours only.
-/

namespace Quadword

/-! ## Bytes -/

/-- The bytes of a word, the least significant one first. -/
def Word.bytes (v : Word) : List (BitVec 8) := (List.range Initializer.size).map (Word.byte v)

def Chunk.bytes : Chunk → List (BitVec 8)
  | .zero count => List.replicate count 0
  | .quad value => Word.bytes value

/-- What a run of chunks stands for. -/
def regionBytes (chunks : List Chunk) : List (BitVec 8) := chunks.flatMap Chunk.bytes

@[simp] theorem Word.length_bytes (v : Word) : (Word.bytes v).length = 8 := by
  simp [Word.bytes, Initializer.size]

theorem Word.getElem?_bytes (v : Word) {k : Nat} (hk : k < 8) :
    (Word.bytes v)[k]? = some (Word.byte v k) := by
  have hsize : k < Initializer.size := hk
  simp [Word.bytes, hsize]

/-- A gap is filled with zeros, also if it is empty and nothing is written for it. -/
theorem Chunk.bytes_gap (count : Nat) : regionBytes (gap count) = List.replicate count 0 := by
  unfold gap
  split
  · next hzero => rw [hzero]; rfl
  · simp [regionBytes, bytes]

namespace Initializer

/-! ## The image of a region -/

/-- The byte at an offset belongs to the value. -/
def Covers (i : Initializer) (offset : Nat) : Prop :=
  i.offset.toNat ≤ offset ∧ offset < i.offset.toNat + 8

/--
The bytes of a region from `start` on hold each value at its offset, the least significant byte
first, and are zero elsewhere.
-/
structure Image (start : Nat) (is : List Initializer) (bytes : List (BitVec 8)) : Prop where
  value : ∀ i ∈ is, start ≤ i.offset.toNat ∧
    ∀ k < 8, bytes[i.offset.toNat + k - start]? = some (Word.byte i.value k)
  zero : ∀ offset, start ≤ offset → offset < start + bytes.length →
    (∀ i ∈ is, ¬ i.Covers offset) → bytes[offset - start]? = some 0

/-- The value ends within the address space, so that its end is not cut off. -/
def Fits (i : Initializer) : Prop := i.offset.toNat + 8 ≤ lastOffset

/-- The end of an initial value that fits is where its eight bytes end, without saturation. -/
theorem Fits.stop_eq {i : Initializer} (h : i.Fits) : i.stop = i.offset.toNat + 8 := Nat.min_eq_left h

/--
What is laid out from some place on: a gap up to the first value, the value, and the rest from its
end on.
-/
theorem layFrom_cons {start : Nat} {i : Initializer} {is : List Initializer} {chunks : List Chunk}
    (h : layFrom start (i :: is) = .ok chunks) :
    start ≤ i.offset.toNat ∧ ∃ more, layFrom i.stop is = .ok more ∧
      chunks = Chunk.gap (i.offset.toNat - start) ++ .quad i.value :: more := by
  rw [layFrom] at h
  split at h
  · cases h
  · next hle =>
    split at h
    · cases h
    · next more hmore =>
      cases h
      exact ⟨Nat.le_of_not_lt hle, more, hmore, rfl⟩

/-- The bytes of a gap and a value, and of what follows them. -/
theorem regionBytes_cons (count : Nat) (v : Word) (more : List Chunk) :
    regionBytes (Chunk.gap count ++ .quad v :: more) =
      List.replicate count 0 ++ (Word.bytes v ++ regionBytes more) := by
  rw [← Chunk.bytes_gap count]
  simp [regionBytes, Chunk.bytes]

/-- One value on: zeros up to it, its bytes, and the image of the values after it. -/
theorem Image.cons {start : Nat} {i : Initializer} {is : List Initializer}
    {bytes : List (BitVec 8)} (hstart : start ≤ i.offset.toNat)
    (h : Image (i.offset.toNat + 8) is bytes) :
    Image start (i :: is)
      (List.replicate (i.offset.toNat - start) 0 ++ (Word.bytes i.value ++ bytes)) := by
  have hgap : ∀ {n : Nat}, i.offset.toNat - start ≤ n →
      (List.replicate (i.offset.toNat - start) 0 ++ (Word.bytes i.value ++ bytes))[n]? =
        (Word.bytes i.value ++ bytes)[n - (i.offset.toNat - start)]? := by
    intro n hn
    rw [List.getElem?_append_right (by simpa using hn), List.length_replicate]
  have hlater : ∀ {offset : Nat}, i.offset.toNat + 8 ≤ offset →
      (List.replicate (i.offset.toNat - start) 0 ++ (Word.bytes i.value ++ bytes))[offset - start]? =
        bytes[offset - (i.offset.toNat + 8)]? := by
    intro offset hoffset
    rw [hgap (by omega), List.getElem?_append_right (by rw [Word.length_bytes]; omega),
      Word.length_bytes]
    congr 1
    omega
  refine ⟨fun j hj => ?_, fun offset hle hlt hfree => ?_⟩
  · rcases List.mem_cons.mp hj with rfl | hj
    · refine ⟨hstart, fun k hk => ?_⟩
      rw [hgap (by omega), List.getElem?_append_left (by rw [Word.length_bytes]; omega),
        show j.offset.toNat + k - start - (j.offset.toNat - start) = k from by omega]
      exact Word.getElem?_bytes j.value hk
    · obtain ⟨hbase, hvalue⟩ := h.value j hj
      refine ⟨by omega, fun k hk => ?_⟩
      rw [hlater (by omega)]
      exact hvalue k hk
  · obtain ⟨hfirst, hrest⟩ := List.forall_mem_cons.mp hfree
    -- the offset is below the first value or above it, not inside
    rcases Nat.lt_or_ge offset i.offset.toNat with hbelow | habove
    · rw [List.getElem?_append_left (by rw [List.length_replicate]; omega), List.getElem?_replicate,
        if_pos (by omega)]
    · have hend : i.offset.toNat + 8 ≤ offset := by
        by_contra hinside
        exact hfirst ⟨habove, by omega⟩
      rw [hlater hend]
      refine h.zero offset hend ?_ hrest
      simp only [List.length_append, List.length_replicate, Word.length_bytes] at hlt
      omega

/-- What is laid out from an offset on is the image of the values. -/
theorem layFrom_image {start : Nat} {is : List Initializer} {chunks : List Chunk}
    (hfits : ∀ i ∈ is, i.Fits) (h : layFrom start is = .ok chunks) :
    Image start is (regionBytes chunks) := by
  induction is generalizing start chunks with
  | nil =>
      cases h
      refine ⟨nofun, fun offset hle hlt _ => ?_⟩
      have hnone : start + (regionBytes []).length = start := rfl
      omega
  | cons i is ih =>
      obtain ⟨hfirst, hrest⟩ := List.forall_mem_cons.mp hfits
      obtain ⟨hstart, more, hmore, rfl⟩ := layFrom_cons h
      rw [regionBytes_cons]
      -- the gap and the word come first, and the image of the rest starts where they stop
      apply Image.cons hstart
      rw [← hfirst.stop_eq]
      exact ih hrest hmore

/-- A value of a list that no other one starts after. -/
def IsLast (is : List Initializer) (i : Initializer) : Prop :=
  i ∈ is ∧ ∀ j ∈ is, j.offset.toNat ≤ i.offset.toNat

/--
What is laid out ends where the last value does, which in a sorted list is the one with the greatest
offset.
-/
theorem layFrom_length {start : Nat} {is : List Initializer} {chunks : List Chunk}
    (hne : is ≠ []) (hsorted : is.Pairwise fun i j => i.offset.toNat ≤ j.offset.toNat)
    (hfits : ∀ i ∈ is, i.Fits) (h : layFrom start is = .ok chunks) :
    ∃ i, IsLast is i ∧ start + (regionBytes chunks).length = i.offset.toNat + 8 := by
  induction is generalizing start chunks with
  | nil => exact absurd rfl hne
  | cons i is ih =>
      obtain ⟨hfirst, hrest⟩ := List.forall_mem_cons.mp hfits
      obtain ⟨hbefore, hsorted⟩ := List.pairwise_cons.mp hsorted
      obtain ⟨hstart, more, hmore, rfl⟩ := layFrom_cons h
      have hlength : start + (regionBytes (Chunk.gap (i.offset.toNat - start) ++
          .quad i.value :: more)).length = i.offset.toNat + 8 + (regionBytes more).length := by
        rw [regionBytes_cons]
        simp only [List.length_append, List.length_replicate, Word.length_bytes]
        omega
      rw [hlength]
      -- only the last initializer ends the image, and the others are laid out before it
      cases is with
      | nil =>
          cases hmore
          exact ⟨i, ⟨List.mem_cons_self, by simp⟩, rfl⟩
      | cons j is =>
          obtain ⟨last, ⟨hmem, hlast⟩, heq⟩ := ih (by simp) hsorted hrest hmore
          rw [hfirst.stop_eq] at heq
          exact ⟨last, ⟨List.mem_cons_of_mem _ hmem,
            List.forall_mem_cons.mpr ⟨hbefore last hmem, hlast⟩⟩, heq⟩

/-- Gaps are written only where there is one, so no directive asks for zero bytes. -/
theorem layFrom_no_empty {start : Nat} {is : List Initializer} {chunks : List Chunk}
    (h : layFrom start is = .ok chunks) : .zero 0 ∉ chunks := by
  induction is generalizing start chunks with
  | nil =>
      cases h
      exact nofun
  | cons i is ih =>
      obtain ⟨-, more, hmore, rfl⟩ := layFrom_cons h
      -- a gap of no bytes is no chunk at all
      have hgap : .zero 0 ∉ Chunk.gap (i.offset.toNat - start) := by
        unfold Chunk.gap
        split
        · exact nofun
        · next hne =>
          rw [List.mem_singleton, Chunk.zero.injEq]
          exact fun heq => hne heq.symm
      simp only [List.mem_append, List.mem_cons, not_or]
      exact ⟨hgap, nofun, ih hmore⟩

/-! ## The value that is refused -/

/-- The first of ascending values that lies less than eight bytes above the one before it. -/
inductive FirstClose : List Initializer → Initializer → Prop where
  | here {i j : Initializer} {is : List Initializer}
      (h : j.offset.toNat < i.offset.toNat + 8) : FirstClose (i :: j :: is) j
  | later {i j k : Initializer} {is : List Initializer}
      (hapart : i.offset.toNat + 8 ≤ j.offset.toNat) (h : FirstClose (j :: is) k) :
      FirstClose (i :: j :: is) k

/-- The same values in ascending order of their offsets, those at one offset in the order given. -/
structure StableSort (is sorted : List Initializer) : Prop where
  perm : sorted.Perm is
  ascending : sorted.Pairwise fun i j => i.offset.toNat ≤ j.offset.toNat
  stable : ∀ i j, i.offset = j.offset → [i, j].Sublist is → [i, j].Sublist sorted

/--
Sorting by offsets keeps the order of initial values with one offset, which decides which of the two
is blamed.
-/
theorem stableSort_mergeSort (is : List Initializer) : StableSort is (is.mergeSort before) where
  perm := List.mergeSort_perm is before
  ascending := pairwise_before_mergeSort is
  stable i j heq hsub := by
    have hbefore : before i j = true := before_iff.mpr (Nat.le_of_eq (congrArg BitVec.toNat heq))
    exact List.pair_sublist_mergeSort before_trans before_total hbefore hsub

/--
Laying out fails at the first value if that starts before the place, and else where it fails from
its end on.
-/
theorem layFrom_cons_eq_error_iff {start : Nat} {i k : Initializer} {is : List Initializer} :
    layFrom start (i :: is) = .error k ↔
      (i.offset.toNat < start ∧ i = k) ∨
      (start ≤ i.offset.toNat ∧ layFrom i.stop is = .error k) := by
  rw [layFrom]
  split
  · next hlt =>
    simp [hlt, Nat.not_le_of_lt hlt]
  · next hge =>
    have hle : start ≤ i.offset.toNat := Nat.le_of_not_lt hge
    cases layFrom i.stop is <;> simp [hle, hge]

/-- Laying out the values after `i` fails at the first that lies too close to the one before it. -/
theorem layFrom_stop_eq_error_iff {i k : Initializer} {is : List Initializer}
    (hfits : ∀ j ∈ i :: is, j.Fits) : layFrom i.stop is = .error k ↔ FirstClose (i :: is) k := by
  induction is generalizing i with
  | nil =>
      constructor
      · exact nofun
      · exact nofun
  | cons j is ih =>
      obtain ⟨hi, hrest⟩ := List.forall_mem_cons.mp hfits
      -- the next one begins too early, or it is laid out and the fault is further on
      rw [layFrom_cons_eq_error_iff, hi.stop_eq, ih hrest]
      constructor
      · rintro (⟨hclose, rfl⟩ | ⟨hapart, hlater⟩)
        · exact .here hclose
        · exact .later hapart hlater
      · intro h
        cases h with
        | here hclose => exact .inl ⟨hclose, rfl⟩
        | later hapart hlater => exact .inr ⟨hapart, hlater⟩

/-- The first value that is laid out can lie anywhere. -/
theorem layFrom_eq_error_iff {k : Initializer} {is : List Initializer} (hfits : ∀ j ∈ is, j.Fits) :
    layFrom 0 is = .error k ↔ FirstClose is k := by
  cases is with
  | nil =>
      constructor
      · exact nofun
      · exact nofun
  | cons i is =>
      rw [layFrom_cons_eq_error_iff, layFrom_stop_eq_error_iff hfits]
      simp

theorem layout_of_ne_nil {is : List Initializer} (hne : is ≠ []) :
    layout is = layFrom 0 (is.mergeSort before) := by
  rw [layout, if_neg (by simpa using hne)]

/--
**Which initial value is blamed**: the first in the order of offsets that starts before the one
before it ends.
-/
theorem layout_eq_error_iff {is : List Initializer} {k : Initializer} (hfits : ∀ i ∈ is, i.Fits) :
    layout is = .error k ↔ FirstClose (is.mergeSort before) k := by
  have hsorted : ∀ i ∈ is.mergeSort before, i.Fits := fun i hi =>
    hfits i ((stableSort_mergeSort is).perm.mem_iff.mp hi)
  by_cases hne : is = []
  · rw [hne, List.mergeSort_nil]
    constructor
    · exact nofun
    · exact nofun
  · rw [layout_of_ne_nil hne, layFrom_eq_error_iff hsorted]

/-! ## Order -/

/-- Two values lie less than eight bytes apart. -/
def Close (i j : Initializer) : Prop :=
  i.offset.toNat < j.offset.toNat + 8 ∧ j.offset.toNat < i.offset.toNat + 8

theorem Close.symm {i j : Initializer} (h : Close i j) : Close j i := ⟨h.2, h.1⟩

theorem overlaps_iff_close {i j : Initializer} (hregion : i.region = j.region) (hi : i.Fits)
    (hj : j.Fits) : i.overlaps j = true ↔ Close i j := by
  unfold overlaps Close
  rw [hi.stop_eq, hj.stop_eq]
  simp [hregion]

/-- Values that can be laid out are in ascending order in one way only. -/
theorem mergeSort_eq_of_perm {is js : List Initializer} {chunks : List Chunk} (hperm : js.Perm is)
    (hfits : ∀ i ∈ is, i.Fits) (h : layFrom 0 (is.mergeSort before) = .ok chunks) :
    js.mergeSort before = is.mergeSort before := by
  have his := stableSort_mergeSort is
  have hjs := stableSort_mergeSort js
  have hapart := ((layFrom_isOk_iff _ 0 his.ascending).mp (by rw [h]; rfl)).2
  -- what has been laid out has no offset twice, so the order leaves no choice
  have hnodup : ((is.mergeSort before).map fun i => i.offset.toNat).Nodup := by
    refine List.pairwise_map.mpr (hapart.imp_of_mem fun {i j} hi _ hij => ?_)
    rw [(hfits i (his.perm.mem_iff.mp hi)).stop_eq] at hij
    omega
  have hsame : (js.mergeSort before).Perm (is.mergeSort before) :=
    hjs.perm.trans (hperm.trans his.perm.symm)
  refine hsame.eq_of_pairwise (fun i j hi hj hij hji => ?_) hjs.ascending his.ascending
  exact List.inj_on_of_nodup_map hnodup (hsame.mem_iff.mp hi) hj (Nat.le_antisymm hij hji)

theorem FirstClose.mem {is : List Initializer} {k : Initializer} (h : FirstClose is k) : k ∈ is := by
  induction h with
  | here _ => exact List.mem_cons_of_mem _ List.mem_cons_self
  | later _ _ ih => exact List.mem_cons_of_mem _ ih

/-- At which offset two values lie too close together depends on the offsets alone. -/
theorem FirstClose.of_offsets {is js : List Initializer} {k : Initializer} (h : FirstClose is k)
    (heq : js.map Initializer.offset = is.map Initializer.offset) :
    ∃ k', FirstClose js k' ∧ k'.offset = k.offset := by
  -- along the first list, since closeness is a matter of the offsets alone
  induction h generalizing js with
  | here hclose =>
      obtain ⟨i', js, rfl, hi, heq⟩ := List.map_eq_cons_iff.mp heq
      obtain ⟨j', js, rfl, hj, -⟩ := List.map_eq_cons_iff.mp heq
      rw [← hi, ← hj] at hclose
      exact ⟨j', .here hclose, hj⟩
  | later hapart _ ih =>
      obtain ⟨i', js, rfl, hi, heq⟩ := List.map_eq_cons_iff.mp heq
      obtain ⟨k', hk, hoffset⟩ := ih heq
      obtain ⟨j', js, rfl, hj, -⟩ := List.map_eq_cons_iff.mp heq
      rw [← hi, ← hj] at hapart
      exact ⟨k', .later hapart hk, hoffset⟩

/--
Lists with the same initial values in any order have the same offsets when sorted, though not always
the same values at them.
-/
theorem map_offset_mergeSort {is js : List Initializer} (hperm : js.Perm is) :
    (js.mergeSort before).map Initializer.offset = (is.mergeSort before).map Initializer.offset := by
  have his := stableSort_mergeSort is
  have hjs := stableSort_mergeSort js
  have hsame : (js.mergeSort before).Perm (is.mergeSort before) :=
    hjs.perm.trans (hperm.trans his.perm.symm)
  have hantisymm : ∀ a b : Word, a.toNat ≤ b.toNat → b.toNat ≤ a.toNat → a = b :=
    fun a b hab hba => BitVec.eq_of_toNat_eq (Nat.le_antisymm hab hba)
  exact (hsame.map Initializer.offset).eq_of_pairwise (fun a b _ _ => hantisymm a b)
    (List.pairwise_map.mpr hjs.ascending) (List.pairwise_map.mpr his.ascending)

/-- What is reported of a value that cannot be laid out. -/
def refusal (i : Initializer) : LowerError := .overlap i.region i.offset

/--
The order in which values are given makes no difference, neither to the image nor to the offset that
is blamed. Sorting is stable, so this is not plain from the definition.
-/
theorem layout_perm {r : Region} {is js : List Initializer} (hperm : js.Perm is)
    (hregion : ∀ i ∈ is, i.region = r) (hfits : ∀ i ∈ is, i.Fits) :
    (layout js).mapError refusal = (layout is).mapError refusal := by
  -- an empty region has its own image, of one zero word
  by_cases hne : is = []
  · rw [hne] at hperm ⊢
    rw [List.perm_nil.mp hperm]
  have hne' : js ≠ [] := by
    rintro rfl
    exact hne (List.nil_perm.mp hperm)
  cases h : layout is with
  | ok chunks =>
      rw [layout_of_ne_nil hne] at h
      rw [layout_of_ne_nil hne', mergeSort_eq_of_perm hperm hfits h, h]
  -- two orders can blame different initializers, but at one offset
  | error k =>
      have hfirst := (layout_eq_error_iff hfits).mp h
      obtain ⟨k', hk', hoffset⟩ := hfirst.of_offsets (map_offset_mergeSort hperm)
      have hregions : k'.region = k.region := by
        have hk := (stableSort_mergeSort is).perm.mem_iff.mp hfirst.mem
        have hk' := (stableSort_mergeSort js).perm.mem_iff.mp hk'.mem
        rw [hregion k hk, hregion k' (hperm.mem_iff.mp hk')]
      rw [(layout_eq_error_iff fun i hi => hfits i (hperm.mem_iff.mp hi)).mpr hk']
      simp [Except.mapError, refusal, hregions, hoffset]

/-! ## Conflicts -/

/-- A relation fails somewhere in a list exactly if it fails for two entries in order. -/
theorem not_pairwise_iff {R : Initializer → Initializer → Prop} {is : List Initializer} :
    ¬ is.Pairwise R ↔
      ∃ (a b : Nat) (i j : Initializer), a < b ∧ is[a]? = some i ∧ is[b]? = some j ∧ ¬ R i j := by
  rw [List.pairwise_iff_getElem]
  constructor
  · intro h
    simp only [Classical.not_forall] at h
    obtain ⟨a, b, ha, hb, hlt, hR⟩ := h
    exact ⟨a, b, _, _, hlt, List.getElem?_eq_getElem ha, List.getElem?_eq_getElem hb, hR⟩
  · rintro ⟨a, b, i, j, hlt, hi, hj, hR⟩ hall
    obtain ⟨ha, rfl⟩ := List.getElem?_eq_some_iff.mp hi
    obtain ⟨hb, rfl⟩ := List.getElem?_eq_some_iff.mp hj
    exact hR (hall a b ha hb hlt)

/-- Values of one region are refused exactly if two of them overlap. -/
theorem exists_error_iff {is : List Initializer}
    (hregion : ∀ i ∈ is, ∀ j ∈ is, i.region = j.region) : (∃ k, layout is = .error k) ↔
      ∃ (a b : Nat) (i j : Initializer), a < b ∧ is[a]? = some i ∧ is[b]? = some j ∧
        i.overlaps j = true := by
  have hnot : (∃ k, layout is = .error k) ↔ ¬ (layout is).isOk = true := by
    cases layout is <;> simp [Except.isOk, Except.toBool]
  rw [hnot, layout_isOk_iff is hregion, not_pairwise_iff]
  simp only [Bool.not_eq_false]

/-- The bytes of a region: eight zeros if it has no values, and else up to the end of the last. -/
theorem layout_image {is : List Initializer} {chunks : List Chunk} (hfits : ∀ i ∈ is, i.Fits)
    (h : layout is = .ok chunks) : Image 0 is (regionBytes chunks) ∧
      ((is = [] ∧ (regionBytes chunks).length = 8) ∨
        ∃ i, IsLast is i ∧ (regionBytes chunks).length = i.offset.toNat + 8) ∧
      .zero 0 ∉ chunks := by
  -- an empty region has its own image, of one zero word
  by_cases hne : is = []
  · cases hne
    cases h
    refine ⟨⟨nofun, fun offset _ hlt _ => ?_⟩, .inl ⟨rfl, rfl⟩, by decide⟩
    have hlt : offset < 0 + 8 := hlt
    show (List.replicate 8 0)[offset - 0]? = some 0
    rw [List.getElem?_replicate, if_pos (by omega)]
  · obtain ⟨hperm, hascending, -⟩ := stableSort_mergeSort is
    have hmem : ∀ {i}, i ∈ is.mergeSort before ↔ i ∈ is := hperm.mem_iff
    have hsorted : ∀ i ∈ is.mergeSort before, i.Fits := fun i hi => hfits i (hmem.mp hi)
    have hsome : is.mergeSort before ≠ [] := fun hnil => hne (List.perm_nil.mp (hnil ▸ hperm.symm))
    rw [layout_of_ne_nil hne] at h
    obtain ⟨hvalue, hzero⟩ := layFrom_image hsorted h
    obtain ⟨last, ⟨hlast, hmax⟩, hlength⟩ := layFrom_length hsome hascending hsorted h
    refine ⟨⟨fun i hi => hvalue i (hmem.mpr hi), fun offset hle hlt hfree => ?_⟩, .inr ⟨last,
      ⟨hmem.mp hlast, fun i hi => hmax i (hmem.mpr hi)⟩, by omega⟩, layFrom_no_empty h⟩
    exact hzero offset hle hlt fun i hi => hfree i (hmem.mp hi)

/--
**The layout of a region.** Values of one region that end within the address space are refused
exactly if two of them are less than eight bytes apart, and then the first one is named, in
ascending order, that is that close to the one before it. Otherwise the bytes of the layout hold
each value at its offset and are zero elsewhere, up to the end of the last value, and no empty gap
is written. The order in which the values are given changes neither what is refused nor what is laid
out.
-/
theorem layout_exact {r : Region} {is : List Initializer} (hregion : ∀ i ∈ is, i.region = r)
    (hfits : ∀ i ∈ is, i.offset.toNat + 8 ≤ lastOffset) :
    ((∃ k, layout is = .error k) ↔ ∃ (a b : Nat) (i j : Initializer), a ≠ b ∧ is[a]? = some i ∧
      is[b]? = some j ∧ Close i j) ∧
    (∃ sorted, StableSort is sorted ∧ ∀ k, layout is = .error k ↔ FirstClose sorted k) ∧
    (∀ chunks, layout is = .ok chunks → Image 0 is (regionBytes chunks) ∧
      ((is = [] ∧ (regionBytes chunks).length = 8) ∨
        ∃ i, IsLast is i ∧ (regionBytes chunks).length = i.offset.toNat + 8) ∧
      .zero 0 ∉ chunks) ∧
    ∀ js, js.Perm is → (layout js).mapError refusal = (layout is).mapError refusal := by
  have hoverlaps : ∀ {a b : Nat} {i j : Initializer}, is[a]? = some i → is[b]? = some j →
      (i.overlaps j = true ↔ Close i j) := by
    intro a b i j hi hj
    have hi := List.mem_of_getElem? hi
    have hj := List.mem_of_getElem? hj
    exact overlaps_iff_close ((hregion i hi).trans (hregion j hj).symm) (hfits i hi) (hfits j hj)
  refine ⟨?_, ⟨_, stableSort_mergeSort is, fun k => layout_eq_error_iff hfits⟩,
    fun chunks => layout_image hfits, fun js hperm => layout_perm hperm hregion hfits⟩
  rw [exists_error_iff fun i hi j hj => (hregion i hi).trans (hregion j hj).symm]
  -- closeness is symmetric, so the pair may be taken in the order of the list
  constructor
  · rintro ⟨a, b, i, j, hlt, hi, hj, hoverlap⟩
    exact ⟨a, b, i, j, Nat.ne_of_lt hlt, hi, hj, (hoverlaps hi hj).mp hoverlap⟩
  · rintro ⟨a, b, i, j, hne, hi, hj, hclose⟩
    rcases Nat.lt_or_gt_of_ne hne with hlt | hlt
    · exact ⟨a, b, i, j, hlt, hi, hj, (hoverlaps hi hj).mpr hclose⟩
    · exact ⟨b, a, j, i, hlt, hj, hi, (hoverlaps hj hi).mpr hclose.symm⟩

/-- Values with gaps before and between them, and values of which the last given is refused. -/
theorem layout_exact_gaps :
    let is : List Initializer := [⟨.data, 20, -1⟩, ⟨.data, 3, 10⟩]
    let js : List Initializer := [⟨.const, 20, 1⟩, ⟨.const, 8, 2⟩, ⟨.const, 13, 3⟩]
    let chunks : List Chunk := [.zero 3, .quad 10, .zero 9, .quad (-1)]
    (layout is = .ok chunks ∧ Image 0 is (regionBytes chunks) ∧ .zero 0 ∉ chunks ∧
      (layout is.reverse).mapError refusal = .ok chunks) ∧
    layout js = .error ⟨.const, 13, 3⟩ ∧
      ∃ (a b : Nat) (i j : Initializer), a ≠ b ∧ js[a]? = some i ∧ js[b]? = some j ∧ Close i j := by
  intro is js chunks
  -- values with a gap between them, and two that overlap in a region given in any order
  have hok : layout is = .ok chunks := by cbv
  have herror : layout js = .error ⟨.const, 13, 3⟩ := by cbv
  obtain ⟨-, -, himage, hperm⟩ :=
    @layout_exact .data is (by simp [is]) (by simp [is, lastOffset])
  obtain ⟨hconflict, -⟩ :=
    @layout_exact .const js (by simp [js]) (by simp [js, lastOffset])
  obtain ⟨hbytes, -, hempty⟩ := himage chunks hok
  refine ⟨⟨hok, hbytes, hempty, ?_⟩, herror, hconflict.mp ⟨_, herror⟩⟩
  rw [hperm is.reverse (List.reverse_perm is), hok]
  rfl

/-! ## The test of the parser -/

/-- The test that the parser applies to a value: whether it overlaps one that was read before. -/
def flagged (seen : List Initializer) (i : Initializer) : Bool := seen.any fun j => j.overlaps i

/-- Some value of a list is flagged, given what was read before the list. -/
def SomeFlagged (seen is : List Initializer) : Prop :=
  ∃ k i, is[k]? = some i ∧ flagged (seen ++ is.take k) i = true

theorem not_someFlagged_nil (seen : List Initializer) : ¬ SomeFlagged seen [] := by
  rintro ⟨k, i, hi, -⟩
  simp at hi

/-- An initial value is flagged by the ones seen so far, or one after it is by those and itself. -/
theorem someFlagged_cons {seen is : List Initializer} {i : Initializer} :
    SomeFlagged seen (i :: is) ↔ flagged seen i = true ∨ SomeFlagged (seen ++ [i]) is := by
  constructor
  · rintro ⟨k, j, hj, hflagged⟩
    cases k with
    | zero =>
        cases hj
        exact .inl (by simpa using hflagged)
    | succ k => exact .inr ⟨k, j, hj, by simpa using hflagged⟩
  · rintro (hflagged | ⟨k, j, hj, hflagged⟩)
    · exact ⟨0, i, rfl, by simpa using hflagged⟩
    · exact ⟨k + 1, j, hj, by simpa using hflagged⟩

/--
Comparing each value with all before it finds any two that overlap. So it does no harm that no value
is compared with later ones.
-/
theorem someFlagged_nil_iff {is : List Initializer} : SomeFlagged [] is ↔
    ∃ (a b : Nat) (i j : Initializer), a < b ∧ is[a]? = some i ∧ is[b]? = some j ∧
      i.overlaps j = true := by
  unfold SomeFlagged flagged
  simp only [List.nil_append, List.any_eq_true]
  -- the values before a place are those with a smaller index
  constructor
  · rintro ⟨b, j, hj, i, hi, hoverlap⟩
    obtain ⟨a, ha⟩ := List.mem_iff_getElem?.mp hi
    rw [List.getElem?_take] at ha
    split at ha
    · next hlt => exact ⟨a, b, i, j, hlt, ha, hj, hoverlap⟩
    · cases ha
  · rintro ⟨a, b, i, j, hlt, hi, hj, hoverlap⟩
    refine ⟨b, j, hj, i, List.mem_iff_getElem?.mpr ⟨a, ?_⟩, hoverlap⟩
    rw [List.getElem?_take, if_pos hlt, hi]

end Initializer

namespace Parser

open Initializer

/-- The initial values that are read from a point on, up to a line of another form. -/
inductive InitialValues : Cursor → List (Located Initializer) → Prop where
  | done {c : Cursor} {e : Located ParseError} (h : initializer c = .error e) : InitialValues c []
  | line {c c' : Cursor} {i : Located Initializer} {is : List (Located Initializer)}
      (h : initializer c = .ok (i, c'))
      (hmore : InitialValues (afterNewlines c'.last c'.tokens) is) : InitialValues c (i :: is)

/--
One round of the loop over initial values. The value is compared with those before it as soon as it
has been read, so the fault is at its own line.
-/
theorem initializers_succ {c c' : Cursor} {i : Located Initializer}
    (h : initializer c = .ok (i, c')) (seen : List (Located Initializer)) (bound : Nat) :
    initializers seen (bound + 1) c =
      if flagged (seen.map Located.value) i.value then
        .error ⟨.overlap i.value.region i.value.offset, i.span⟩
      else initializers (seen ++ [i]) bound (afterNewlines c'.last c'.tokens) := by
  have hattempt : attempt initializer c = .ok (some i, c') := by
    rw [attempt, h]
  -- the loop compares with the values themselves, wherever they stand
  have hany : flagged (seen.map Located.value) i.value =
      seen.any fun j => j.value.overlaps i.value := List.any_map
  rw [hany, initializers, bind_apply, hattempt]
  show (if (seen.any fun j => j.value.overlaps i.value) = true then _ else _ : Parser _) c' = _
  split <;> rfl

/-- The loop over initial values ends at a line of another form. -/
theorem initializers_done {c : Cursor} {e : Located ParseError} (h : initializer c = .error e)
    (seen : List (Located Initializer)) (bound : Nat) :
    initializers seen bound c = .ok (seen, c) := by
  cases bound with
  | zero => rfl
  | succ bound =>
      have hattempt : attempt initializer c = .ok (none, c) := by
        rw [attempt, h]
      rw [initializers, bind_apply, hattempt]
      rfl

/--
The loop over initial values fails exactly if one of them is flagged. It does not fail otherwise,
since a line that holds no value only ends it.
-/
theorem initializers_fails_iff {c : Cursor} {is : List (Located Initializer)}
    (h : InitialValues c is) : ∀ {seen : List (Located Initializer)} {bound : Nat},
      is.length ≤ bound → ((∃ e, initializers seen bound c = .error e) ↔
        SomeFlagged (seen.map Located.value) (is.map Located.value)) := by
  -- along the lines of the data, with the initializers read so far as the list to check against
  induction h with
  | @done c e h =>
      intro seen bound _
      rw [initializers_done h]
      exact iff_of_false (by simp) (not_someFlagged_nil _)
  | @line c c' i is h _ ih =>
      intro seen bound hbound
      obtain ⟨b, rfl⟩ : ∃ b, bound = b + 1 := ⟨bound - 1, by simp at hbound; omega⟩
      rw [initializers_succ h, List.map_cons, someFlagged_cons]
      split
      · next hflagged => exact iff_of_true ⟨_, rfl⟩ (.inl hflagged)
      · next hflagged =>
        rw [ih (by simpa using hbound), List.map_append]
        simp [hflagged]

end Parser

namespace Initializer

/--
**The two searches for conflicts agree.** For values of one region, wherever they lie, the test that
the parser applies to each of them flags one exactly if they cannot be laid out. So the parser, at
whatever point it reads these values, refuses them exactly if they cannot be laid out.
-/
theorem flags_iff_layout_refuses {is : List Initializer}
    (hregion : ∀ i ∈ is, ∀ j ∈ is, i.region = j.region) :
    ((∃ k i, is[k]? = some i ∧ flagged (is.take k) i = true) ↔ ∃ k, layout is = .error k) ∧
    ∀ (c : Cursor) (values : List (Located Initializer)) (bound : Nat),
      Parser.InitialValues c values → values.map Located.value = is → values.length ≤ bound →
      ((∃ e, Parser.initializers [] bound c = .error e) ↔ ∃ k, layout is = .error k) := by
  have hagree : SomeFlagged [] is ↔ ∃ k, layout is = .error k := by
    rw [someFlagged_nil_iff, exists_error_iff hregion]
  refine ⟨hagree, fun c values bound hvalues heq hbound => ?_⟩
  rw [Parser.initializers_fails_iff hvalues hbound, heq]
  exact hagree

/--
At the end of the address space, where values are cut off, only the last of three values meets one
before it. And two lines of a text whose values meet.
-/
theorem flags_iff_layout_refuses_cut :
    let is : List Initializer := [⟨.data, -1, 1⟩, ⟨.data, -4, 2⟩, ⟨.data, -2, 3⟩]
    let tokens : List Token :=
      [.id "d", .openSquare, .number 0, .closeSquare, .assign, .number 1, .newline,
        .id "d", .openSquare, .number 4, .closeSquare, .assign, .number 2, .eof]
    let c : Cursor := ⟨tokens.map fun t => ⟨t, .first⟩, .first⟩
    flagged (is.take 1) ⟨.data, -4, 2⟩ = false ∧ flagged (is.take 2) ⟨.data, -2, 3⟩ = true ∧
      (∃ k, layout is = .error k) ∧ ∃ e, Parser.initializers [] 2 c = .error e := by
  intro is tokens c
  let js : List Initializer := [⟨.data, 0, 1⟩, ⟨.data, 4, 2⟩]
  have hlayout : ∃ k, layout is = .error k :=
    (flags_iff_layout_refuses (by simp [is])).1.mp ⟨2, _, rfl, by decide⟩
  -- the values of the two lines are four bytes apart
  have hrefused : layout js = .error ⟨.data, 4, 2⟩ := by cbv
  have hvalues : Parser.InitialValues c (js.map fun i => ⟨i, .first⟩) :=
    .line rfl (.line rfl (.done rfl))
  refine ⟨by decide, by decide, hlayout, ?_⟩
  exact ((@flags_iff_layout_refuses js (by simp [js])).2 c _ 2 hvalues rfl
    (Nat.le_refl 2)).mpr ⟨_, hrefused⟩

end Initializer

end Quadword
