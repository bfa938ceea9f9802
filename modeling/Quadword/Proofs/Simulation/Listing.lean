import Mathlib.Algebra.Ring.Nat
import Quadword.Assembly.Listing
import Quadword.Proofs.Simulation.Statement

/-!
# Where the code of a statement stands

The code of a listing is the code of its blocks, one after the other, between the label of the entry
and the exit sequence. This module says on which line each block starts and that every label is
found where it was meant to be defined.

* **`Program.block_of_lower`**: each statement has its code on the lines from `Listing.start` on,
  and the labels that lowering gave to it occur nowhere before.
* **`Program.findIdx?_destination`**: the label of a jump is found at the start of the statement
  that the jump goes to.
-/

namespace Quadword

/-! ## Blocks -/

/-- The line on which the code of a statement starts; after the last statement, that of the exit. -/
def Listing.start (l : Listing) (i : Nat) : Nat := 1 + ((l.blocks.take i).flatMap Block.code).length

/-- The number of labels that lowering a run of statements takes. -/
def labelCount (ss : List (Located Statement)) : Nat := (ss.map fun s => s.value.labels).sum

theorem labelCount_cons (s : Located Statement) (ss : List (Located Statement)) :
    labelCount (s :: ss) = s.value.labels + labelCount ss := by
  simp [labelCount]

theorem labelCount_eq_sum (ss : List (Located Statement)) :
    labelCount ss = ((ss.map Located.value).map Statement.labels).sum := by
  rw [List.map_map]
  rfl

/-- The labels of a statement and of those before it are among all that are taken. -/
theorem labelCount_take_add {ss : List (Located Statement)} {i : Nat} {s : Located Statement}
    (h : ss[i]? = some s) : labelCount (ss.take i) + s.value.labels ≤ labelCount ss := by
  induction ss generalizing i with
  | nil => cases h
  | cons t ss ih =>
    -- the statement is the first one, or it is counted among the others
    cases i with
    | zero =>
      cases h
      rw [labelCount_cons, List.take_zero]
      exact Nat.le_trans (Nat.le_of_eq (Nat.zero_add _)) (Nat.le_add_right ..)
    | succ i =>
      rw [List.take_succ_cons, labelCount_cons, labelCount_cons, Nat.add_assoc]
      exact Nat.add_le_add_left (ih h) _

namespace Program

section

variable {mode : Addressing} {fresh : Nat} {ss : List (Located Statement)} {blocks : List Block}

/--
The code of the first statement, and that of the others with the numbers behind its own. All that is
known of the code of several statements comes from this.
-/
theorem lowerStatements_cons {s : Located Statement}
    (h : lowerStatements mode fresh (s :: ss) = .ok blocks) :
    ∃ code more, s.value.lower mode fresh = .ok code ∧
      lowerStatements mode (fresh + s.value.labels) ss = .ok more ∧
      blocks = ⟨s.span.start.line, s.value, code⟩ :: more := by
  rw [lowerStatements] at h
  cases hs : s.value.lower mode fresh with
  | error e =>
      rw [hs] at h
      cases h
  | ok code =>
      rw [hs] at h
      obtain ⟨more, hmore, hblocks⟩ := bind_eq_ok.mp h
      cases hblocks
      exact ⟨code, more, rfl, hmore, rfl⟩

/-- There is one block for each statement. -/
theorem length_lowerStatements (h : lowerStatements mode fresh ss = .ok blocks) :
    blocks.length = ss.length := by
  induction ss generalizing fresh blocks with
  | nil =>
      cases h
      rfl
  | cons s ss ih =>
      obtain ⟨code, more, -, hmore, rfl⟩ := lowerStatements_cons h
      rw [List.length_cons, List.length_cons, ih hmore]

/--
The first blocks are those of the first statements. Each block depends on those before it only by
the labels that they have taken.
-/
theorem lowerStatements_take (h : lowerStatements mode fresh ss = .ok blocks) (i : Nat) :
    lowerStatements mode fresh (ss.take i) = .ok (blocks.take i) := by
  induction ss generalizing fresh blocks i with
  | nil =>
      cases h
      rw [List.take_nil, List.take_nil]
      rfl
  | cons s ss ih =>
      obtain ⟨code, more, hs, hmore, rfl⟩ := lowerStatements_cons h
      cases i with
      | zero => rfl
      | succ i =>
          rw [List.take_succ_cons, List.take_succ_cons, lowerStatements, hs]
          exact bind_eq_ok.mpr ⟨more.take i, ih hmore i, rfl⟩

/--
The block with an index is that of the statement with it. Its labels start where those of the
statements before it end.
-/
theorem lowerStatements_getElem? (h : lowerStatements mode fresh ss = .ok blocks) {i : Nat}
    {s : Located Statement} (hs : ss[i]? = some s) :
    ∃ b, blocks[i]? = some b ∧
      s.value.lower mode (fresh + labelCount (ss.take i)) = .ok b.code := by
  induction ss generalizing fresh blocks i with
  | nil => simp at hs
  | cons t ss ih =>
      obtain ⟨code, more, ht, hmore, rfl⟩ := lowerStatements_cons h
      cases i with
      | zero =>
          cases hs
          exact ⟨_, rfl, ht⟩
      | succ i =>
          rw [List.getElem?_cons_succ] at hs
          obtain ⟨b, hb, hcode⟩ := ih hmore hs
          -- the labels of the first statement are counted before those in between
          rw [Nat.add_assoc, ← labelCount_cons] at hcode
          exact ⟨b, by rw [List.getElem?_cons_succ, hb], hcode⟩

end

end Program

/-! ## Labels -/

section

variable {mode : Addressing} {fresh : Nat}

/-- The labels in the code of a statement are the one that it defines and those it was given. -/
theorem Statement.label_mem_lower {s : Statement} {code : List Line} {sym : Symbol}
    (hlower : s.lower mode fresh = .ok code) (hmem : .label sym ∈ code) :
    (∃ name, s = .label name ∧ sym = .label name) ∨
      ∃ g, sym = .numbered g ∧ fresh ≤ g ∧ g < fresh + s.labels := by
  -- straight code has no labels
  have hstraight : ∀ is, code = straight is → False := fun is hcode =>
    label_not_mem_straight sym is (hcode ▸ hmem)
  cases s with
  | label name =>
      cases hlower
      exact .inl ⟨name, rfl, by simpa using hmem⟩
  | assignIf target value condition =>
      obtain ⟨compared, -, hlower⟩ := bind_eq_ok.mp hlower
      obtain ⟨moved, -, hseg⟩ := bind_eq_ok.mp hlower
      cases hseg
      have hsym : sym = .numbered fresh := by
        simpa [label_not_mem_straight] using hmem
      exact .inr ⟨fresh, hsym, Nat.le_refl _, Nat.lt_succ_self _⟩
  | select target condition yes no =>
      obtain ⟨compared, -, hlower⟩ := bind_eq_ok.mp hlower
      obtain ⟨yesCode, -, hlower⟩ := bind_eq_ok.mp hlower
      obtain ⟨noCode, -, hseg⟩ := bind_eq_ok.mp hlower
      cases hseg
      have hsym : sym = .numbered fresh ∨ sym = .numbered (fresh + 1) := by
        simpa [label_not_mem_straight] using hmem
      rcases hsym with rfl | rfl
      · exact .inr ⟨fresh, rfl, Nat.le_refl _, by rw [Statement.labels]; omega⟩
      · exact .inr ⟨fresh + 1, rfl, Nat.le_succ _, by rw [Statement.labels]; omega⟩
  | goto target =>
      cases hlower
      exact (hstraight _ rfl).elim
  | pass count =>
      cases hlower
      exact (hstraight _ rfl).elim
  | align boundary =>
      cases hlower
      exact (hstraight _ rfl).elim
  | assign target value =>
      obtain ⟨is, -, hseg⟩ := bind_eq_ok.mp hlower
      cases hseg
      exact (hstraight _ rfl).elim
  | update target op value =>
      obtain ⟨is, -, hlower⟩ := bind_eq_ok.mp hlower
      obtain ⟨js, -, hseg⟩ := bind_eq_ok.mp hlower
      cases hseg
      exact (hstraight _ rfl).elim
  | gotoIf target condition =>
      obtain ⟨is, -, hseg⟩ := bind_eq_ok.mp hlower
      cases hseg
      exact (hstraight _ rfl).elim
  | setSp op value =>
      cases op with
      | none =>
          obtain ⟨is, -, hseg⟩ := bind_eq_ok.mp hlower
          cases hseg
          exact (hstraight _ rfl).elim
      | some op =>
          obtain ⟨is, -, hseg⟩ := bind_eq_ok.mp hlower
          cases hseg
          exact (hstraight _ rfl).elim
  | syscall name arguments output =>
      obtain ⟨is, -, hseg⟩ := bind_eq_ok.mp hlower
      cases hseg
      exact (hstraight _ rfl).elim

/-- The labels in the code of statements are the ones they define and those they were given. -/
theorem Program.label_mem_lowerStatements {ss : List (Located Statement)} {blocks : List Block}
    {sym : Symbol} (h : lowerStatements mode fresh ss = .ok blocks)
    (hmem : .label sym ∈ blocks.flatMap Block.code) :
    (∃ name, .label name ∈ ss.map Located.value ∧ sym = .label name) ∨
      ∃ g, sym = .numbered g ∧ g < fresh + labelCount ss := by
  induction ss generalizing fresh blocks with
  | nil =>
      cases h
      simp at hmem
  | cons s ss ih =>
      obtain ⟨code, more, hs, hmore, rfl⟩ := lowerStatements_cons h
      rw [List.flatMap_cons, List.mem_append] at hmem
      rw [labelCount_cons]
      -- a label of the first block, or of one behind it, with the counter moved on
      rcases hmem with hmem | hmem
      · rcases Statement.label_mem_lower hs hmem with ⟨name, hname, hsym⟩ | ⟨g, hsym, -, hlt⟩
        · exact .inl ⟨name, by rw [List.map_cons, hname]; simp, hsym⟩
        · exact .inr ⟨g, hsym, by omega⟩
      · rcases ih hmore hmem with ⟨name, hname, hsym⟩ | ⟨g, hsym, hlt⟩
        · exact .inl ⟨name, List.mem_cons_of_mem _ hname, hsym⟩
        · exact .inr ⟨g, hsym, by omega⟩

end

/-! ## Positions -/

namespace Listing

/-- What stands before the code of a statement. -/
def before (l : Listing) (i : Nat) : List Line := .label .entry :: (l.blocks.take i).flatMap Block.code

theorem length_before (l : Listing) (i : Nat) : (l.before i).length = l.start i := by
  rw [before, start, List.length_cons, Nat.add_comm]

theorem code_eq (l : Listing) (i : Nat) :
    l.code = l.before i ++ ((l.blocks.drop i).flatMap Block.code ++ l.exit) := by
  rw [code, before, List.cons_append, List.cons_append, ← List.append_assoc, ← List.flatMap_append,
    List.take_append_drop]

theorem take_start (l : Listing) (i : Nat) : l.code.take (l.start i) = l.before i := by
  rw [l.code_eq i, ← length_before, List.take_left]

/-- The code of a block stands on the lines from its start to the start of the next one. -/
theorem holds_block {l : Listing} {i : Nat} {b : Block} (hb : l.blocks[i]? = some b) :
    Holds l.code (l.start i) b.code ∧ l.start (i + 1) = l.start i + b.code.length := by
  obtain ⟨hi, hget⟩ := List.getElem?_eq_some_iff.mp hb
  refine ⟨⟨l.before i, (l.blocks.drop (i + 1)).flatMap Block.code ++ l.exit, ?_, l.length_before i⟩,
    ?_⟩
  · rw [l.code_eq i, List.drop_eq_getElem_cons hi, hget, List.flatMap_cons]
    simp
  · rw [start, start, List.take_add_one, hb, List.flatMap_append, List.length_append, Nat.add_assoc]
    simp

theorem start_le_succ (l : Listing) (i : Nat) : l.start i ≤ l.start (i + 1) := by
  rw [start, start, List.take_add_one, List.flatMap_append, List.length_append]
  omega

/-- Later blocks start further on, or at the same line if those between are empty. -/
theorem start_mono (l : Listing) {i j : Nat} (h : i ≤ j) : l.start i ≤ l.start j := by
  induction h with
  | refl => exact Nat.le_refl _
  | step _ ih => exact Nat.le_trans ih (l.start_le_succ _)

end Listing

namespace Program

variable {p : Program} {mode : Addressing} {l : Listing}

/--
What a program is lowered to: the code of its statements and that of the exit, which starts with a
label.
-/
theorem lower_eq_ok (h : p.lower mode = .ok l) :
    lowerStatements mode 0 p.statements = .ok l.blocks ∧
      ∃ exit, exitSequence mode = .ok exit ∧ l.exit = .label .finish :: straight exit := by
  obtain ⟨data, -, h⟩ := bind_eq_ok.mp h
  obtain ⟨const, -, h⟩ := bind_eq_ok.mp h
  obtain ⟨blocks, hblocks, h⟩ := bind_eq_ok.mp h
  obtain ⟨exit, hexit⟩ := isOk_iff.mp (exitSequence_isOk mode)
  rw [hexit] at h
  cases h
  exact ⟨hblocks, exit, hexit, rfl⟩

/-- The chunks of a listing are the layout of their region. -/
theorem layout_of_lower (h : p.lower mode = .ok l) (r : Region) :
    p.layout r = .ok (l.region r) := by
  obtain ⟨data, hdata, h⟩ := bind_eq_ok.mp h
  obtain ⟨const, hconst, h⟩ := bind_eq_ok.mp h
  obtain ⟨blocks, -, h⟩ := bind_eq_ok.mp h
  obtain ⟨exit, hexit⟩ := isOk_iff.mp (exitSequence_isOk mode)
  rw [hexit] at h
  cases h
  cases r with
  | data => exact hdata
  | const => exact hconst

/-- The labels before a statement are that of the entry and those of the statements before it. -/
theorem label_mem_before (h : p.lower mode = .ok l) {i : Nat} {sym : Symbol}
    (hmem : .label sym ∈ l.before i) :
    sym = .entry ∨ (∃ name, .label name ∈ (p.statements.map Located.value).take i ∧
        sym = .label name) ∨
      ∃ g, sym = .numbered g ∧ g < labelCount (p.statements.take i) := by
  rw [Listing.before, List.mem_cons] at hmem
  rcases hmem with hentry | hmem
  · exact .inl (Line.label.inj hentry)
  · have htake := lowerStatements_take (lower_eq_ok h).1 i
    rw [← List.map_take]
    rcases label_mem_lowerStatements htake hmem with hlabel | ⟨g, hg, hlt⟩
    · exact .inr (.inl hlabel)
    · exact .inr (.inr ⟨g, hg, by omega⟩)

/--
Each statement has its code on the lines from its start to the start of the next one. As long as no
number is given twice, the labels that it was given occur on none before.
-/
theorem block_of_lower (h : p.lower mode = .ok l) {i : Nat} {s : Statement}
    (hs : (p.statements.map Located.value)[i]? = some s) :
    ∃ fresh code, s.lower mode fresh = .ok code ∧ Holds l.code (l.start i) code ∧
      l.start (i + 1) = l.start i + code.length ∧
      (labelCount p.statements < 2 ^ 32 →
        ∀ g, fresh ≤ g → g < fresh + s.labels → Unseen l.code (.numbered g) (l.start i)) := by
  rw [List.getElem?_map] at hs
  obtain ⟨located, hlocated, hvalue⟩ := Option.map_eq_some_iff.mp hs
  obtain ⟨b, hb, hcode⟩ := lowerStatements_getElem? (lower_eq_ok h).1 hlocated
  obtain ⟨hholds, hnext⟩ := Listing.holds_block hb
  have hcount := labelCount_take_add hlocated
  rw [Nat.zero_add, hvalue] at hcode
  rw [hvalue] at hcount
  -- of the labels before the statement, only generated ones could be the same
  refine ⟨_, b.code, hcode, hholds, hnext, fun hbound g hg hlt hmem => ?_⟩
  rw [l.take_start] at hmem
  rcases label_mem_before h hmem with hsym | ⟨name, -, hsym⟩ | ⟨g', hsym, hlt'⟩
  · cases hsym
  · cases hsym
  · rw [Symbol.numbered_of_lt (by omega), Symbol.numbered_of_lt (by omega)] at hsym
    cases hsym
    omega

/-- The lines before the exit are the label of the entry and the code of all statements. -/
theorem start_length (h : p.lower mode = .ok l) :
    l.before p.statements.length = .label .entry :: l.blocks.flatMap Block.code := by
  rw [Listing.before, ← length_lowerStatements (lower_eq_ok h).1, List.take_length]

theorem holds_exit (h : p.lower mode = .ok l) :
    Holds l.code (l.start p.statements.length) l.exit := by
  refine ⟨l.before p.statements.length, [], ?_, l.length_before _⟩
  rw [start_length h, List.append_nil]
  rfl

/-- The label of a jump is found at the start of the statement that the jump goes to. -/
theorem findIdx?_destination (h : p.lower mode = .ok l) {d : Destination} {i : Nat}
    (hd : d.index? (p.statements.map Located.value) = some i) :
    l.code.findIdx? (fun line => line = .label d.symbol) = some (l.start i) := by
  cases d with
  | finish =>
      cases hd
      obtain ⟨-, exit, -, hexit⟩ := lower_eq_ok h
      have hholds := holds_exit h
      rw [hexit] at hholds
      rw [List.length_map]
      refine findIdx?_label (fun hmem => ?_) hholds
      rw [l.take_start] at hmem
      rcases label_mem_before h hmem with hsym | ⟨name, -, hsym⟩ | ⟨g, hsym, -⟩ <;> cases hsym
  | label name =>
      have hd' : (p.statements.map Located.value).findIdx? (fun s => s = .label name) = some i := hd
      obtain ⟨hi, hget, hfirst⟩ := List.findIdx?_eq_some_iff_getElem.mp hd'
      have hs : (p.statements.map Located.value)[i]? = some (.label name) :=
        List.getElem?_eq_some_iff.mpr ⟨hi, of_decide_eq_true hget⟩
      obtain ⟨fresh, code, hcode, hholds, -, -⟩ := block_of_lower h hs
      cases hcode
      refine findIdx?_label (fun hmem => ?_) hholds
      rw [l.take_start] at hmem
      rcases label_mem_before h hmem with hsym | ⟨name', hname, hsym⟩ | ⟨g, hsym, -⟩
      · cases hsym
      · -- the statement is the first one that defines the label
        cases hsym
        obtain ⟨j, hj, hjget⟩ := List.mem_take_iff_getElem.mp hname
        have hne := hfirst j (by omega)
        simp [hjget] at hne
      · cases hsym

end Program

end Quadword
