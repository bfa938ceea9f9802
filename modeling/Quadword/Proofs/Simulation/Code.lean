import Quadword.Proofs.Machine.Execution

/-!
# Runs through code

Code is a list of lines, and a run through it is a sequence of steps from line to line. A piece of
the code is entered at its first line and left at the line after its last one, or by a jump; what
happens in between is a run *within* the piece.

* **`CodePoint.run`** and **`Within`**: runs of a given length, and runs that stay in a range of
  lines.
* **`Within.of_execAll`**: executing straight code is a run through the lines that hold it.
* **`Realizes`**: a piece of code does what a statement is meant to do. Its rules follow the shapes
  of code that statements are lowered to.
-/

namespace Quadword

/-- What a number of steps of code lead to, if not to an end before. -/
def CodePoint.run (code : List Line) (leftover : Leftover) (bases : Bases) :
    Nat → CodePoint → CodeProgress
  | 0, c => .point c
  | n + 1, c =>
    match c.step code leftover bases with
    | .point c' => c'.run code leftover bases n
    | progress => progress

section

variable {code : List Line} {leftover : Leftover} {bases : Bases} {lo hi n : Nat}
  {c c' d : CodePoint}

theorem CodePoint.run_succ_of_step (h : c.step code leftover bases = .point c') (n : Nat) :
    c.run code leftover bases (n + 1) = c'.run code leftover bases n := by
  rw [run, h]

/--
A run goes on from where a shorter one has come to. What has finished or faulted does not come to
any point, so there is nothing to go on from.
-/
theorem CodePoint.run_add {k : Nat} (h : c.run code leftover bases n = .point c') :
    c.run code leftover bases (n + k) = c'.run code leftover bases k := by
  induction n generalizing c with
  | zero =>
      cases h
      rw [Nat.zero_add]
  | succ n ih =>
      rw [run] at h
      -- the first run has come to a point, so each of its steps has
      cases hstep : c.step code leftover bases with
      | point c₁ =>
          rw [hstep] at h
          rw [Nat.add_right_comm, run_succ_of_step hstep]
          exact ih h
      | _ =>
          rw [hstep] at h
          cases h

/-- A run that ends in a fault does not go on. -/
theorem CodePoint.run_of_fault (h : c.run code leftover bases n = .point c')
    (hfault : c'.step code leftover bases = .fault) {k : Nat} (hk : n < k) :
    c.run code leftover bases k = .fault := by
  -- the step that faults is the one after the first `n`
  obtain ⟨j, rfl⟩ : ∃ j, k = n + (j + 1) := ⟨k - n - 1, by omega⟩
  rw [run_add h, run, hfault]

/-! ## Runs within a range of lines -/

/-- A run of a number of steps, each of which starts on a line of the range. -/
inductive Within (code : List Line) (leftover : Leftover) (bases : Bases) (lo hi : Nat) :
    Nat → CodePoint → CodePoint → Prop where
  | refl (c : CodePoint) : Within code leftover bases lo hi 0 c c
  | step {n : Nat} {c c' d : CodePoint} (hlo : lo ≤ c.index) (hhi : c.index < hi)
      (hstep : c.step code leftover bases = .point c')
      (h : Within code leftover bases lo hi n c' d) : Within code leftover bases lo hi (n + 1) c d

namespace Within

/-- Two runs within the same lines are one. -/
theorem trans {k : Nat} (h : Within code leftover bases lo hi n c c')
    (h' : Within code leftover bases lo hi k c' d) :
    Within code leftover bases lo hi (n + k) c d := by
  induction h with
  | refl c =>
      rw [Nat.zero_add]
      exact h'
  | @step n _ _ _ hlo hhi hstep _ ih =>
      rw [Nat.add_right_comm]
      exact .step hlo hhi hstep (ih h')

/-- A run within some lines is one within more of them. -/
theorem mono {lo' hi' : Nat} (h : Within code leftover bases lo hi n c d) (hlo : lo' ≤ lo)
    (hhi : hi ≤ hi') : Within code leftover bases lo' hi' n c d := by
  induction h with
  | refl c => exact .refl c
  | step h₁ h₂ hstep _ ih =>
      exact .step (Nat.le_trans hlo h₁) (Nat.lt_of_lt_of_le h₂ hhi) hstep ih

theorem run_add (h : Within code leftover bases lo hi n c d) (k : Nat) :
    c.run code leftover bases (n + k) = d.run code leftover bases k := by
  induction h with
  | refl c => rw [Nat.zero_add]
  | step _ _ hstep _ ih =>
      rw [Nat.add_right_comm, CodePoint.run_succ_of_step hstep, ih]

theorem run_eq (h : Within code leftover bases lo hi n c d) :
    c.run code leftover bases n = .point d :=
  h.run_add 0

/-- A shorter run ends on a line of the range. -/
theorem inside (h : Within code leftover bases lo hi n c d) {k : Nat} (hk : k < n) :
    ∃ e, c.run code leftover bases k = .point e ∧ lo ≤ e.index ∧ e.index < hi := by
  induction h generalizing k with
  | refl c => omega
  | @step n c _ _ hlo hhi hstep _ ih =>
      cases k with
      | zero => exact ⟨c, rfl, hlo, hhi⟩
      | succ k =>
          obtain ⟨e, he, hbounds⟩ := ih (Nat.lt_of_succ_lt_succ hk)
          exact ⟨e, by rw [CodePoint.run_succ_of_step hstep, he], hbounds⟩

end Within

/-! ## Pieces of code -/

/-- The piece stands in the code from a line on. -/
def Holds (code : List Line) (i : Nat) (piece : List Line) : Prop :=
  ∃ front back, code = front ++ piece ++ back ∧ front.length = i

namespace Holds

variable {i : Nat} {piece more : List Line}

theorem left (h : Holds code i (piece ++ more)) : Holds code i piece := by
  obtain ⟨front, back, hcode, hi⟩ := h
  exact ⟨front, more ++ back, by rw [hcode]; simp, hi⟩

/-- What is held after a piece stands as much further on as the piece is long. -/
theorem right (h : Holds code i (piece ++ more)) : Holds code (i + piece.length) more := by
  obtain ⟨front, back, hcode, hi⟩ := h
  exact ⟨front ++ piece, back, by rw [hcode]; simp, by rw [List.length_append, hi]⟩

theorem tail {l : Line} (h : Holds code i (l :: piece)) : Holds code (i + 1) piece := by
  have hsplit : Holds code i ([l] ++ piece) := h
  exact hsplit.right

theorem getElem? {l : Line} (h : Holds code i (l :: piece)) : code[i]? = some l := by
  obtain ⟨front, back, hcode, hi⟩ := h
  rw [hcode, ← hi, List.append_assoc, List.getElem?_append_right (Nat.le_refl _), Nat.sub_self]
  rfl

end Holds

theorem length_straight (is : List Instruction) : (straight is).length = is.length :=
  List.length_map ..

theorem label_not_mem_straight (s : Symbol) (is : List Instruction) : .label s ∉ straight is := by
  simp [straight]

/-! ## Steps -/

theorem step_label {i : Nat} {s : Symbol} {piece : List Line} {m : Machine}
    (h : Holds code i (.label s :: piece)) :
    CodePoint.step code leftover bases ⟨i, m⟩ = .point ⟨i + 1, m⟩ := by
  rw [CodePoint.step, h.getElem?]

/-- At an instruction that goes on, a step executes it and comes to the next line. -/
theorem step_next {i : Nat} {j : Instruction} {piece : List Line} {m m' : Machine}
    (h : Holds code i (.instruction j :: piece)) (hexec : j.exec leftover bases m = .next m') :
    CodePoint.step code leftover bases ⟨i, m⟩ = .point ⟨i + 1, m'⟩ := by
  simp only [CodePoint.step, h.getElem?, hexec]

theorem step_fault {i : Nat} {j : Instruction} {piece : List Line} {m : Machine}
    (h : Holds code i (.instruction j :: piece)) (hexec : j.exec leftover bases m = .fault) :
    CodePoint.step code leftover bases ⟨i, m⟩ = .fault := by
  simp only [CodePoint.step, h.getElem?, hexec]

/-- At a jump that is taken, a step comes to the first line that defines the symbol. -/
theorem step_jump {i k : Nat} {j : Instruction} {s : Symbol} {piece : List Line} {m m' : Machine}
    (h : Holds code i (.instruction j :: piece)) (hexec : j.exec leftover bases m = .jump s m')
    (hlabel : code.findIdx? (fun l => l = .label s) = some k) :
    CodePoint.step code leftover bases ⟨i, m⟩ = .point ⟨k, m'⟩ := by
  simp only [CodePoint.step, h.getElem?, hexec, hlabel]

/-! ## Straight code -/

/--
Straight code that comes to its end is a run through its lines, one step for each. So what is known
of straight code holds wherever it stands in a program.
-/
theorem Within.of_execAll {is : List Instruction} {i : Nat} {m m' : Machine}
    (hcode : Holds code i (straight is)) (hexec : execAll leftover bases is m = .next m') :
    Within code leftover bases i (i + is.length) is.length ⟨i, m⟩ ⟨i + is.length, m'⟩ := by
  induction is generalizing i m with
  | nil =>
      cases hexec
      exact .refl _
  | cons j is ih =>
      have hcode' : Holds code i (.instruction j :: straight is) := hcode
      rw [execAll] at hexec
      -- code that comes to its end has left every line for the next one
      cases hj : j.exec leftover bases m with
      | next m₁ =>
          rw [hj] at hexec
          have hrest := ih hcode'.tail hexec
          have hlen : i + 1 + is.length = i + (j :: is).length := by
            rw [List.length_cons]
            omega
          rw [hlen] at hrest
          refine .step (Nat.le_refl i) ?_ (step_next hcode' hj) (hrest.mono (by omega) (Nat.le_refl _))
          show i < i + (j :: is).length
          rw [List.length_cons]
          omega
      | _ =>
          rw [hj] at hexec
          cases hexec

/-- A run that ends in a fault on a line of the range. -/
def FaultsWithin (code : List Line) (leftover : Leftover) (bases : Bases) (lo hi : Nat)
    (c : CodePoint) : Prop :=
  ∃ n d, Within code leftover bases lo hi n c d ∧ (lo ≤ d.index ∧ d.index < hi) ∧
    d.step code leftover bases = .fault

/--
Straight code that faults does so on one of its lines, and the run up to there does not leave them.
-/
theorem FaultsWithin.of_execAll {is : List Instruction} {i : Nat} {m : Machine}
    (hcode : Holds code i (straight is)) (hexec : execAll leftover bases is m = .fault) :
    FaultsWithin code leftover bases i (i + is.length) ⟨i, m⟩ := by
  induction is generalizing i m with
  | nil => cases hexec
  | cons j is ih =>
      have hcode' : Holds code i (.instruction j :: straight is) := hcode
      have hlt : i < i + (j :: is).length := by
        rw [List.length_cons]
        omega
      have hlen : i + 1 + is.length = i + (j :: is).length := by
        rw [List.length_cons]
        omega
      rw [execAll] at hexec
      -- the first instruction goes on or faults, and with any other outcome the list would not
      -- fault
      cases hj : j.exec leftover bases m with
      | next m₁ =>
          rw [hj] at hexec
          obtain ⟨n, d, hrun, hbounds, hfault⟩ := ih hcode'.tail hexec
          rw [hlen] at hrun hbounds
          exact ⟨n + 1, d, .step (Nat.le_refl i) hlt (step_next hcode' hj)
            (hrun.mono (by omega) (Nat.le_refl _)), ⟨by omega, hbounds.2⟩, hfault⟩
      | fault => exact ⟨0, ⟨i, m⟩, .refl _, ⟨Nat.le_refl i, hlt⟩, step_fault hcode' hj⟩
      | _ =>
          rw [hj] at hexec
          cases hexec

/-! ## Statements -/

/--
From a point of its code on, the code on the lines of a range has the effect of a statement: it
comes to the line after the range, or to the line of a label in at least one step, or faults.
-/
def Realizes (code : List Line) (leftover : Leftover) (bases : Bases) (lo hi : Nat) (c : CodePoint) :
    Effect → Prop
  | .next st => ∃ n d, Within code leftover bases lo hi n c d ∧ d.index = hi ∧
      d.machine.state .rsp = st
  | .jump target st => ∃ n d, Within code leftover bases lo hi (n + 1) c d ∧
      code.findIdx? (fun l => l = .label target.symbol) = some d.index ∧
      d.machine.state .rsp = st
  | .fault => FaultsWithin code leftover bases lo hi c
  | .host => False

namespace Realizes

/--
A run within the range, and then the effect. The run may be of any length, so effects are put
together without counting steps.
-/
theorem after {e : Effect} (hrun : Within code leftover bases lo hi n c c')
    (h : Realizes code leftover bases lo hi c' e) : Realizes code leftover bases lo hi c e := by
  -- the three effects that the code brings about differ in where it is then
  cases e with
  | next st =>
      obtain ⟨k, d, hk, hd⟩ := h
      exact ⟨n + k, d, hrun.trans hk, hd⟩
  | jump target st =>
      obtain ⟨k, d, hk, hd⟩ := h
      exact ⟨n + k, d, hrun.trans hk, hd⟩
  | fault =>
      obtain ⟨k, d, hk, hd⟩ := h
      exact ⟨n + k, d, hrun.trans hk, hd⟩
  | host => exact h

theorem step {e : Effect} (hlo : lo ≤ c.index) (hhi : c.index < hi)
    (hstep : c.step code leftover bases = .point c')
    (h : Realizes code leftover bases lo hi c' e) : Realizes code leftover bases lo hi c e :=
  .after (.step hlo hhi hstep (.refl c')) h

/-- At the end of its lines, a statement has the effect of going on with the state that is there. -/
theorem done {m : Machine} {st : State} (h : m.state .rsp = st) :
    Realizes code leftover bases lo hi ⟨hi, m⟩ (.next st) :=
  ⟨0, ⟨hi, m⟩, .refl _, rfl, h⟩

/-- A jump that is taken. -/
theorem jump {i k : Nat} {j : Instruction} {target : Destination} {piece : List Line}
    {m m' : Machine} {st : State} (hcode : Holds code i (.instruction j :: piece)) (hlo : lo ≤ i)
    (hhi : i < hi) (hexec : j.exec leftover bases m = .jump target.symbol m')
    (hlabel : code.findIdx? (fun l => l = .label target.symbol) = some k)
    (hst : m'.state .rsp = st) :
    Realizes code leftover bases lo hi ⟨i, m⟩ (.jump target st) :=
  ⟨0, ⟨k, m'⟩, .step hlo hhi (step_jump hcode hexec hlabel) (.refl _), hlabel, hst⟩

/--
Straight code that computes something, and then the effect that depends on it. If the code faults,
that is the effect, and what would follow does not matter.
-/
theorem straight {α : Type} {is : List Instruction} {i : Nat} {m : Machine} {result : Option α}
    {post : α → Machine → Prop} {e : α → Effect} (hcode : Holds code i (straight is))
    (hlo : lo ≤ i) (hhi : i + is.length ≤ hi) (h : Computes leftover bases is m result post)
    (hmore : ∀ v m', post v m' →
      Realizes code leftover bases lo hi ⟨i + is.length, m'⟩ (e v)) :
    Realizes code leftover bases lo hi ⟨i, m⟩ (result.elim .fault e) := by
  -- a fault in the code is the fault of the whole, and otherwise the effect follows the run
  cases result with
  | none =>
      obtain ⟨n, d, hrun, hbounds, hfault⟩ := FaultsWithin.of_execAll hcode h
      exact ⟨n, d, hrun.mono hlo hhi, ⟨by omega, by omega⟩, hfault⟩
  | some v =>
      obtain ⟨m', hexec, hpost⟩ := h
      exact .after ((Within.of_execAll hcode hexec).mono hlo hhi) (hmore v m' hpost)

end Realizes

end

end Quadword
