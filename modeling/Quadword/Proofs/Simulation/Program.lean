import Quadword.Proofs.Lowering.HostCall
import Quadword.Proofs.Simulation.Listing

/-!
# Lowered programs do what they mean

A program and its code run side by side. Whenever the program arrives at a statement, the code
arrives at the start of the code of that statement, with the same memory and the same stack pointer,
and what happens in between stays within the code of one statement.

* **`step_of_lower`**: one step of the program is a run of its code through the lines of a
  statement.
* **`run_follows`** and **`fault_follows`**: a run of the program, and a fault at its end, are
  followed by its code.
* **`outcome_of_lower`**: conversely, whatever the code has done after a number of steps, the
  program does too. A statement may have no code at all, so this is by induction on the number of
  steps and then on the number of statements that are left.
-/

namespace Quadword

open Grammar

/-- What a number of steps of a program lead to, if not to an end before. -/
def Point.run (ss : List Statement) (bases : Bases) : Nat → Point → Progress
  | 0, q => .point q
  | n + 1, q =>
    match q.step ss bases with
    | .point q' => q'.run ss bases n
    | progress => progress

theorem Point.run_succ_of_step {ss : List Statement} {bases : Bases} {q q' : Point}
    (h : q.step ss bases = .point q') (n : Nat) :
    q.run ss bases (n + 1) = q'.run ss bases n := by
  rw [run, h]

theorem Point.step_of_length_le {ss : List Statement} {q : Point} (bases : Bases)
    (h : ss.length ≤ q.index) : q.step ss bases = .finished := by
  rw [step, List.getElem?_eq_none h]

/-- The code is at the start of the statement that the program is at, in the same state. -/
structure Matches (l : Listing) (q : Point) (c : CodePoint) : Prop where
  index : c.index = l.start q.index
  state : c.machine.state .rsp = q.state

/-! ## Jumps -/

theorem Effect.ofOption_ne_jump (r : Option State) (d : Destination) (st : State) :
    Effect.ofOption r ≠ .jump d st := by
  cases r <;> nofun

/--
Only a jump jumps, and to where it says. So the effect of any other statement is the next line or a
fault.
-/
theorem Statement.jump?_of_exec {s : Statement} {bases : Bases} {st st' : State} {d : Destination}
    (h : s.exec bases st = .jump d st') : s.jump? = some d := by
  -- only the two statements that jump can have this effect
  cases s with
  | goto target =>
      cases h
      rfl
  | gotoIf target condition =>
      rw [exec] at h
      split at h
      · cases h
        rfl
      · cases h
      · cases h
  | setSp op value => cases op <;> exact (Effect.ofOption_ne_jump _ _ _ h).elim
  | label name => cases h
  | pass count => cases h
  | align boundary => cases h
  | syscall name arguments output => cases h
  | assign target value => exact (Effect.ofOption_ne_jump _ _ _ h).elim
  | assignIf target value condition => exact (Effect.ofOption_ne_jump _ _ _ h).elim
  | select target condition yes no => exact (Effect.ofOption_ne_jump _ _ _ h).elim
  | update target op value => exact (Effect.ofOption_ne_jump _ _ _ h).elim

/--
Every jump of a program with resolved labels has somewhere to go: the end of the program, or the one
statement with its label.
-/
theorem Grammar.LabelsResolve.index? {ss : List Statement} (h : LabelsResolve ss) {s : Statement}
    (hs : s ∈ ss) {d : Destination} (hd : s.jump? = some d) :
    ∃ i, d.index? ss = some i ∧ i ≤ ss.length := by
  cases d with
  | finish => exact ⟨ss.length, rfl, Nat.le_refl _⟩
  | label name =>
      have hmem := h.defined s hs name hd
      -- the label is among the statements, so looking for it succeeds
      have hsome : (ss.findIdx? fun s => s = .label name).isSome = true := by
        rw [List.findIdx?_isSome, List.any_eq_true]
        exact ⟨_, hmem, by simp⟩
      obtain ⟨i, hi⟩ := Option.isSome_iff_exists.mp hsome
      obtain ⟨hlt, -⟩ := List.findIdx?_eq_some_iff_getElem.mp hi
      exact ⟨i, hi, Nat.le_of_lt hlt⟩

namespace Program

/-- A program without calls whose jumps all have somewhere to go, and its code. -/
structure Runnable (p : Program) (mode : Addressing) (l : Listing) : Prop where
  lower : p.lower mode = .ok l
  labels : LabelsResolve (p.statements.map Located.value)
  calls : ∀ s ∈ p.statements, s.value.callee? = none
  /-- No number is given to two labels. -/
  numbers : labelCount p.statements < 2 ^ 32

section

variable {p : Program} {mode : Addressing} {l : Listing} {leftover : Leftover} {bases : Bases}

/-! ## One step -/

/--
One step of the program, if there is a statement to execute: the code comes to the start of the next
one, within the lines of this one, or the two fault together. Code that takes no step at all belongs
to a statement that goes on to the next one.
-/
theorem step_of_lower (h : Runnable p mode l) (leftover : Leftover) (bases : Bases) {q : Point}
    {c : CodePoint} (hmatch : Matches l q c) (hq : q.index < p.statements.length) :
    (∃ q' n c', q.step (p.statements.map Located.value) bases = .point q' ∧
      Within l.code leftover bases (l.start q.index) (l.start (q.index + 1)) n c c' ∧
      Matches l q' c' ∧ q'.index ≤ p.statements.length ∧ (n = 0 → q'.index = q.index + 1)) ∨
    q.step (p.statements.map Located.value) bases = .fault ∧
      FaultsWithin l.code leftover bases (l.start q.index) (l.start (q.index + 1)) c := by
  generalize hss : p.statements.map Located.value = ss
  have hlength : ss.length = p.statements.length := by rw [← hss, List.length_map]
  obtain ⟨s, hs⟩ : ∃ s, ss[q.index]? = some s :=
    ⟨_, List.getElem?_eq_getElem (by omega)⟩
  have hmem : s ∈ ss := List.mem_of_getElem? hs
  obtain ⟨fresh, code, hcode, hholds, hnext, hfresh⟩ := block_of_lower h.lower (hss ▸ hs)
  -- what the code of the statement needs: that it is no call, and that its label is found
  have hcall : s.callee? = none := by
    obtain ⟨t, ht, hvalue⟩ := List.mem_map.mp (hss ▸ hmem)
    rw [← hvalue]
    exact h.calls t ht
  have htarget : ∀ d, s.jump? = some d → ∃ i, d.index? ss = some i ∧ i ≤ ss.length :=
    fun d hd => (hss ▸ h.labels).index? hmem hd
  have hlabel : ∀ d, s.jump? = some d →
      ∃ k, l.code.findIdx? (fun line => line = .label d.symbol) = some k := by
    intro d hd
    obtain ⟨i, hi, -⟩ := htarget d hd
    exact ⟨_, findIdx?_destination h.lower (hss ▸ hi)⟩
  have hrealizes : Realizes l.code leftover bases (l.start q.index) (l.start (q.index + 1)) c
      (s.exec bases q.state) := by
    rw [hnext, ← hmatch.state, show c = ⟨l.start q.index, c.machine⟩ from by rw [← hmatch.index]]
    exact Statement.realizes hcode hholds (hfresh h.numbers) hcall hlabel c.machine
  cases hexec : s.exec bases q.state with
  | next st =>
      rw [hexec] at hrealizes
      obtain ⟨n, c', hrun, hindex, hstate⟩ := hrealizes
      have hstep : q.step ss bases = .point ⟨q.index + 1, st⟩ := by
        simp only [Point.step, hs, hexec]
      exact .inl ⟨_, n, c', hstep, hrun, ⟨hindex, hstate⟩, hq, fun _ => rfl⟩
  | jump d st =>
      rw [hexec] at hrealizes
      obtain ⟨n, c', hrun, hfind, hstate⟩ := hrealizes
      obtain ⟨i, hi, hle⟩ := htarget d (Statement.jump?_of_exec hexec)
      have hstep : q.step ss bases = .point ⟨i, st⟩ := by
        simp only [Point.step, hs, hexec, hi]
      have hindex : c'.index = l.start i := by
        rw [findIdx?_destination h.lower (hss ▸ hi)] at hfind
        exact (Option.some.inj hfind).symm
      exact .inl ⟨_, n + 1, c', hstep, hrun, ⟨hindex, hstate⟩, hlength ▸ hle, nofun⟩
  | fault =>
      rw [hexec] at hrealizes
      exact .inr ⟨by simp only [Point.step, hs, hexec], hrealizes⟩
  | host =>
      rw [hexec] at hrealizes
      exact hrealizes.elim

/-! ## Runs -/

/--
A run of the program is followed by its code, in as many steps as it takes. This is one direction of
the simulation, by induction on the steps of the program.
-/
theorem run_follows (h : Runnable p mode l) (leftover : Leftover) {q q' : Point} {c : CodePoint}
    {k : Nat} (hmatch : Matches l q c)
    (hrun : q.run (p.statements.map Located.value) bases k = .point q') :
    ∃ n c', c.run l.code leftover bases n = .point c' ∧ Matches l q' c' := by
  induction k generalizing q c with
  | zero =>
      cases hrun
      exact ⟨0, c, rfl, hmatch⟩
  | succ k ih =>
      rcases Nat.lt_or_ge q.index p.statements.length with hlt | hge
      · rcases step_of_lower h leftover bases hmatch hlt with
          ⟨q₁, n, c₁, hstep, hwithin, hmatch₁, -, -⟩ | ⟨hfault, -⟩
        · rw [Point.run_succ_of_step hstep] at hrun
          obtain ⟨n', c', hrun', hmatch'⟩ := ih hmatch₁ hrun
          exact ⟨n + n', c', by rw [hwithin.run_add, hrun'], hmatch'⟩
        · rw [Point.run, hfault] at hrun
          cases hrun
      · -- there is no statement left to execute
        rw [← List.length_map Located.value] at hge
        rw [Point.run, Point.step_of_length_le bases hge] at hrun
        cases hrun

/--
A fault of the program is followed by one of its code, within the lines of the same statement.
-/
theorem fault_follows (h : Runnable p mode l) (leftover : Leftover) {q q' : Point} {c : CodePoint}
    {k : Nat} (hmatch : Matches l q c)
    (hrun : q.run (p.statements.map Located.value) bases k = .point q')
    (hfault : q'.step (p.statements.map Located.value) bases = .fault) :
    ∃ n d, c.run l.code leftover bases n = .point d ∧
      (l.start q'.index ≤ d.index ∧ d.index < l.start (q'.index + 1)) ∧
      d.step l.code leftover bases = .fault := by
  obtain ⟨n, c', hn, hmatch'⟩ := run_follows h leftover hmatch hrun
  -- at its end a program stops and does not fault
  have hlt : q'.index < p.statements.length := by
    refine Nat.lt_of_not_le fun hge => ?_
    rw [← List.length_map Located.value] at hge
    rw [Point.step_of_length_le bases hge] at hfault
    cases hfault
  rcases step_of_lower h leftover bases hmatch' hlt with ⟨_, _, _, hstep, -⟩ | ⟨-, n', d, hd⟩
  · rw [hfault] at hstep
    cases hstep
  · exact ⟨n + n', d, by rw [CodePoint.run_add hn, hd.1.run_eq], hd.2.1, hd.2.2⟩

/-- What the program has done when its code has taken a number of steps. -/
inductive Outcome (p : Program) (l : Listing) (leftover : Leftover) (bases : Bases) (n : Nat)
    (q : Point) (c : CodePoint) : Prop where
  /-- It has come to its end, and the code has come to the exit. -/
  | ended {k j : Nat} {q' : Point} {c' : CodePoint}
      (hrun : q.run (p.statements.map Located.value) bases k = .point q')
      (hend : q'.index = p.statements.length) (hj : j ≤ n)
      (hcode : c.run l.code leftover bases j = .point c') (hmatch : Matches l q' c')
  /-- It is at the statement that the code is inside of. -/
  | inside {k : Nat} {q' : Point} {d : CodePoint}
      (hrun : q.run (p.statements.map Located.value) bases k = .point q')
      (hlt : q'.index < p.statements.length) (hcode : c.run l.code leftover bases n = .point d)
      (hblock : l.start q'.index ≤ d.index ∧ d.index < l.start (q'.index + 1))
  /-- It has faulted at the statement inside of which the code has. -/
  | faulted {k j : Nat} {q' : Point} {d : CodePoint}
      (hrun : q.run (p.statements.map Located.value) bases k = .point q')
      (hfault : q'.step (p.statements.map Located.value) bases = .fault) (hj : j < n)
      (hcode : c.run l.code leftover bases j = .point d)
      (hblock : l.start q'.index ≤ d.index ∧ d.index < l.start (q'.index + 1))
      (hstep : d.step l.code leftover bases = .fault)

/--
A step of the program before the outcome. The code takes some steps of its own for it, and then the
outcome is the one from there on.
-/
theorem Outcome.cons {n k : Nat} {q q₁ : Point} {c c₁ : CodePoint} {lo hi : Nat}
    (hstep : q.step (p.statements.map Located.value) bases = .point q₁)
    (hwithin : Within l.code leftover bases lo hi n c c₁)
    (h : Outcome p l leftover bases k q₁ c₁) : Outcome p l leftover bases (n + k) q c := by
  -- whatever the outcome, both runs are longer by what comes first
  cases h with
  | ended hrun hend hj hcode hmatch =>
      exact .ended (by rw [Point.run_succ_of_step hstep, hrun]) hend
        (Nat.add_le_add_left hj n) (by rw [hwithin.run_add, hcode]) hmatch
  | inside hrun hlt hcode hblock =>
      exact .inside (by rw [Point.run_succ_of_step hstep, hrun]) hlt
        (by rw [hwithin.run_add, hcode]) hblock
  | faulted hrun hfault hj hcode hblock hfaults =>
      exact .faulted (by rw [Point.run_succ_of_step hstep, hrun]) hfault
        (Nat.add_lt_add_left hj n) (by rw [hwithin.run_add, hcode]) hblock hfaults

/-- Whatever the code has done after a number of steps, the program does too. -/
theorem outcome_of_lower (h : Runnable p mode l) (leftover : Leftover) (bases : Bases) (n : Nat)
    {q : Point} {c : CodePoint} (hmatch : Matches l q c) (hq : q.index ≤ p.statements.length) :
    Outcome p l leftover bases n q c := by
  rcases Nat.lt_or_eq_of_le hq with hlt | hend
  · rcases step_of_lower h leftover bases hmatch hlt with
      ⟨q₁, k, c₁, hstep, hwithin, hmatch₁, hle, hzero⟩ | ⟨hfault, k, d, hwithin, hblock, hstep⟩
    · -- the steps run out inside this statement, or the rest of them is a shorter run
      rcases Nat.lt_or_ge n k with hnk | hkn
      · obtain ⟨d, hd, hblock⟩ := hwithin.inside hnk
        exact .inside (k := 0) rfl hlt hd hblock
      · have hrest := outcome_of_lower h leftover bases (n - k) hmatch₁ hle
        rw [show n = k + (n - k) from by omega]
        exact hrest.cons hstep hwithin
    · rcases Nat.lt_trichotomy n k with hnk | rfl | hkn
      · obtain ⟨d, hd, hblock⟩ := hwithin.inside hnk
        exact .inside (k := 0) rfl hlt hd hblock
      · exact .inside (k := 0) rfl hlt hwithin.run_eq hblock
      · exact .faulted (k := 0) rfl hfault hkn hwithin.run_eq hblock hstep
  · exact .ended (k := 0) (j := 0) rfl hend (Nat.zero_le n) rfl hmatch
termination_by (n, p.statements.length - q.index)
decreasing_by
  -- either the code has taken a step, or the next statement is nearer to the end
  cases k with
  | zero =>
      rw [Nat.sub_zero, hzero rfl]
      exact .right n (by omega)
  | succ k => exact .left _ _ (by omega)

/-! ## The exit -/

/-- The exit sequence is straight code that cannot fault, and the call that ends the program. -/
theorem exitSequence_eq (mode : Addressing) :
    ∃ is, exitSequence mode = .ok (is ++ [jump .call (.host exitProcedure)]) ∧
      ∀ (leftover : Leftover) (bases : Bases) (m : Machine),
        Completes leftover bases is m fun _ => True := by
  refine ⟨⟨.mov, [Reg.rcx.whole, .mem ⟨.reg .rsp, 0, .qword⟩]⟩ :: reserve 32, by cases mode <;> rfl,
    fun leftover bases m => ?_⟩
  exact .cons (exec_mov .rcx rfl) ((reserve_completes 32 _).mono fun _ _ => trivial)

/-- From the exit on, the code comes to the call that ends the program. -/
theorem exit_runs (h : p.lower mode = .ok l) (leftover : Leftover) (bases : Bases) {c : CodePoint}
    (hc : c.index = l.start p.statements.length) :
    ∃ hi n d d', Within l.code leftover bases c.index hi n c d ∧
      d.step l.code leftover bases = .call (.host exitProcedure) d' := by
  obtain ⟨-, exit, hexit, hlines⟩ := lower_eq_ok h
  obtain ⟨is, his, hcompletes⟩ := exitSequence_eq mode
  obtain rfl : exit = is ++ [jump .call (.host exitProcedure)] := by
    rw [his] at hexit
    exact (Except.ok.inj hexit).symm
  have hholds := holds_exit h
  rw [hlines, straight_append, ← hc] at hholds
  obtain ⟨m', hexec, -⟩ := hcompletes leftover bases c.machine
  have hrun := Within.of_execAll hholds.tail.left hexec
  -- behind the arguments of the exit stands the call
  have hcall : CodePoint.step l.code leftover bases ⟨c.index + 1 + is.length, m'⟩ =
      .call (.host exitProcedure) ⟨c.index + 1 + is.length + 1, m'⟩ := by
    rw [CodePoint.step, hholds.tail.after_straight.getElem?]
    rfl
  have hlabel : c.step l.code leftover bases = .point ⟨c.index + 1, c.machine⟩ := step_label hholds
  exact ⟨_, _, _, _, .step (Nat.le_refl _) (by omega) hlabel (hrun.mono (by omega) (Nat.le_refl _)),
    hcall⟩

/--
The exit sequence never faults, wherever the code is stopped in it: it takes the exit code from the
stack, makes room for the call and leaves the program with it.
-/
theorem exit_run_ne_fault (h : p.lower mode = .ok l) (leftover : Leftover) (bases : Bases)
    {c : CodePoint} (hc : c.index = l.start p.statements.length) (n : Nat) :
    c.run l.code leftover bases n ≠ .fault := by
  obtain ⟨hi, k, d, d', hwithin, hcall⟩ := exit_runs h leftover bases hc
  -- before the call every point is inside the exit, and after it there is none
  rcases Nat.lt_or_ge n k with hlt | hge
  · obtain ⟨e, he, -⟩ := hwithin.inside hlt
    rw [he]
    intro heq
    cases heq
  · rw [show n = k + (n - k) from by omega, hwithin.run_add]
    cases n - k with
    | zero =>
        intro heq
        cases heq
    | succ j =>
        rw [CodePoint.run, hcall]
        intro heq
        cases heq

/-! ## Faults and the end -/

/-- Where the code faults, so does the program, at the statement whose code it is. -/
theorem fault_of_lower (h : Runnable p mode l) {q : Point} {c d : CodePoint} {n : Nat}
    (hmatch : Matches l q c) (hq : q.index ≤ p.statements.length)
    (hrun : c.run l.code leftover bases n = .point d)
    (hfault : d.step l.code leftover bases = .fault) :
    ∃ k q', q.run (p.statements.map Located.value) bases k = .point q' ∧
      q'.step (p.statements.map Located.value) bases = .fault ∧
      l.start q'.index ≤ d.index ∧ d.index < l.start (q'.index + 1) := by
  have hnext : c.run l.code leftover bases (n + 1) = .fault :=
    CodePoint.run_of_fault hrun hfault (Nat.lt_succ_self n)
  cases outcome_of_lower h leftover bases (n + 1) hmatch hq with
  | ended hrun' hend hj hcode hmatch' =>
      -- the exit does not fault
      rename_i k j q' c'
      have hexit := exit_run_ne_fault h.lower leftover bases (hend ▸ hmatch'.index) (n + 1 - j)
      rw [← CodePoint.run_add hcode, show j + (n + 1 - j) = n + 1 from by omega] at hexit
      exact absurd hnext hexit
  | inside hrun' hlt hcode hblock =>
      rw [hnext] at hcode
      cases hcode
  | faulted hrun' hfault' hj hcode hblock hstep =>
      -- there is only one fault
      rename_i k j q' e
      rcases Nat.lt_or_ge j n with hlt | hge
      · rw [CodePoint.run_of_fault hcode hstep hlt] at hrun
        cases hrun
      · obtain rfl : j = n := by omega
        rw [hrun] at hcode
        cases hcode
        exact ⟨k, q', hrun', hfault', hblock⟩

/--
Where the code comes to the exit, the program comes to its end. A run of the code that gets so far
cannot be inside a statement any more.
-/
theorem end_of_lower (h : Runnable p mode l) {q : Point} {c d : CodePoint} {n : Nat}
    (hmatch : Matches l q c) (hq : q.index ≤ p.statements.length)
    (hrun : c.run l.code leftover bases n = .point d)
    (hd : d.index = l.start p.statements.length) :
    ∃ k q', q.run (p.statements.map Located.value) bases k = .point q' ∧
      q'.index = p.statements.length := by
  cases outcome_of_lower h leftover bases n hmatch hq with
  | ended hrun' hend hj hcode hmatch' => exact ⟨_, _, hrun', hend⟩
  | inside hrun' hlt hcode hblock =>
      -- the exit comes after the code of every statement
      rw [hrun] at hcode
      cases hcode
      have hle : l.start (_ + 1) ≤ _ := l.start_mono hlt
      omega
  | faulted hrun' hfault hj hcode hblock hstep =>
      rw [CodePoint.run_of_fault hcode hstep hj] at hrun
      cases hrun

end

/--
Code that runs side by side with its program, from the entry on and from any machine: the program
starts with the memory of the machine and with its stack pointer.
-/
structure Simulates (p : Program) (l : Listing) (leftover : Leftover) (bases : Bases) (m : Machine) :
    Prop where
  /-- The entry leads to the code of the first statement. -/
  entry : CodePoint.step l.code leftover bases ⟨0, m⟩ = .point ⟨l.start 0, m⟩
  /-- Where the program is after any number of steps, the code comes to. -/
  follows : ∀ k q, Point.run (p.statements.map Located.value) bases k ⟨0, m.state .rsp⟩ = .point q →
    ∃ n c, CodePoint.run l.code leftover bases n ⟨0, m⟩ = .point c ∧ Matches l q c
  /-- Where the program faults, the code faults inside the code of that statement. -/
  faults : ∀ k q, Point.run (p.statements.map Located.value) bases k ⟨0, m.state .rsp⟩ = .point q →
    q.step (p.statements.map Located.value) bases = .fault →
    ∃ n c, CodePoint.run l.code leftover bases n ⟨0, m⟩ = .point c ∧
      (l.start q.index ≤ c.index ∧ c.index < l.start (q.index + 1)) ∧
      c.step l.code leftover bases = .fault
  /-- Where the code faults, the program faults at the statement that the code belongs to. -/
  faultsOnly : ∀ n c, CodePoint.run l.code leftover bases n ⟨0, m⟩ = .point c →
    c.step l.code leftover bases = .fault →
    ∃ k q, Point.run (p.statements.map Located.value) bases k ⟨0, m.state .rsp⟩ = .point q ∧
      q.step (p.statements.map Located.value) bases = .fault ∧
      l.start q.index ≤ c.index ∧ c.index < l.start (q.index + 1)
  /-- The code comes to the exit exactly if the program comes to its end. -/
  finishes : (∃ k q, Point.run (p.statements.map Located.value) bases k ⟨0, m.state .rsp⟩ = .point q ∧
      q.index = p.statements.length) ↔
    ∃ n c, CodePoint.run l.code leftover bases n ⟨0, m⟩ = .point c ∧
      c.index = l.start p.statements.length
  /-- At no time is the code anywhere but where the program is. -/
  progress : ∀ n, Outcome p l leftover bases n ⟨0, m.state .rsp⟩ ⟨l.start 0, m⟩

/--
**A program that can be run is simulated by its code.** Assembled from what one statement does, by
induction on the number of steps that the program or the code takes.
-/
theorem Runnable.simulates {p : Program} {mode : Addressing} {l : Listing} (h : Runnable p mode l)
    (leftover : Leftover) (bases : Bases) (m : Machine) : Simulates p l leftover bases m := by
  have hentry : CodePoint.step l.code leftover bases ⟨0, m⟩ = .point ⟨l.start 0, m⟩ := rfl
  have hmatch : Matches l ⟨0, m.state .rsp⟩ ⟨l.start 0, m⟩ := ⟨rfl, rfl⟩
  have hfollows : ∀ k q,
      Point.run (p.statements.map Located.value) bases k ⟨0, m.state .rsp⟩ = .point q →
      ∃ n c, CodePoint.run l.code leftover bases n ⟨0, m⟩ = .point c ∧ Matches l q c := by
    intro k q hrun
    obtain ⟨n, c, hn, hc⟩ := run_follows h leftover hmatch hrun
    exact ⟨n + 1, c, by rw [CodePoint.run_succ_of_step hentry, hn], hc⟩
  refine ⟨hentry, hfollows, fun k q hrun hfault => ?_, fun n c hrun hfault => ?_, ?_, fun n =>
    outcome_of_lower h leftover bases n hmatch (Nat.zero_le _)⟩
  · -- a fault of the program
    obtain ⟨n, d, hn, hd⟩ := fault_follows h leftover hmatch hrun hfault
    exact ⟨n + 1, d, by rw [CodePoint.run_succ_of_step hentry, hn], hd⟩
  · -- a fault of the code, which the entry is not
    cases n with
    | zero =>
        cases hrun
        rw [hentry] at hfault
        cases hfault
    | succ n =>
        rw [CodePoint.run_succ_of_step hentry] at hrun
        exact fault_of_lower h hmatch (Nat.zero_le _) hrun hfault
  · refine ⟨fun hend => ?_, fun hexit => ?_⟩
    · obtain ⟨k, q, hrun, hq⟩ := hend
      obtain ⟨n, c, hn, hc⟩ := hfollows k q hrun
      exact ⟨n, c, hn, by rw [hc.index, hq]⟩
    · obtain ⟨n, c, hn, hc⟩ := hexit
      cases n with
      | zero =>
          cases hn
          have hzero : 0 = l.start p.statements.length := hc
          rw [Listing.start] at hzero
          omega
      | succ n =>
          rw [CodePoint.run_succ_of_step hentry] at hn
          exact end_of_lower h hmatch (Nat.zero_le _) hn hc

/--
**Lowering preserves the meaning of programs.** Every program that is read, calls no procedure of
the host and needs less than 2^32 generated labels can be lowered, however the regions are reached,
and its code simulates it: wherever the regions stand, whatever is in memory, in the registers and
in the flags, and however instructions leave the flags.
-/
theorem ofTokens_simulates {tokens : List (Located Token)} {start : Span} {p : Program}
    (hp : ofTokens tokens start = .ok p) (hcalls : ∀ s ∈ p.statements, s.value.callee? = none)
    (hnumbers : labelCount p.statements < 2 ^ 32) (mode : Addressing) :
    ∃ l, p.lower mode = .ok l ∧
      ∀ (leftover : Leftover) (bases : Bases) (m : Machine), Simulates p l leftover bases m := by
  obtain ⟨l, hl⟩ := isOk_iff.mp (ofTokens_lower_isOk hp mode)
  have hrunnable : Runnable p mode l := ⟨hl, (ofTokens_sound hp).2.2, hcalls, hnumbers⟩
  exact ⟨l, hl, hrunnable.simulates⟩

/-- A loop that counts down, with a division in it that faults where the count is zero. -/
theorem ofTokens_simulates_loop :
    let ts : List Token :=
      [.hash, .id "top", .newline, .id "s", .openSquare, .number 8, .closeSquare, .assign,
        .number 60, .binary (.div .unsigned), .id "s", .openSquare, .number 0, .closeSquare,
        .newline, .id "s", .openSquare, .number 0, .closeSquare, .compound .sub, .number 1, .newline,
        .keyword .goto, .id "top", .keyword .cond, .id "s", .openSquare, .number 0, .closeSquare,
        .compare .ne, .number 0, .newline, .keyword .goto, .keyword .finish, .eof]
    ∃ p l, ofTokens (unplaced ts) .first = .ok p ∧ p.lower .relative = .ok l ∧
      ∀ (leftover : Leftover) (bases : Bases) (m : Machine), Simulates p l leftover bases m := by
  intro ts
  obtain ⟨p, hp, hcalls, hnumbers⟩ : ∃ p, ofTokens (unplaced ts) .first = .ok p ∧
      (∀ s ∈ p.statements, s.value.callee? = none) ∧ labelCount p.statements < 2 ^ 32 :=
    ⟨_, rfl, by decide, by decide⟩
  obtain ⟨l, hl, hsim⟩ := ofTokens_simulates hp hcalls hnumbers .relative
  exact ⟨p, l, hp, hl, hsim⟩

end Program

end Quadword
