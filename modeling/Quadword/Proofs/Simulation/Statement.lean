import Quadword.Proofs.Lowering.Expression
import Quadword.Proofs.Simulation.Code

/-!
# Lowered statements do what they mean

The code of a statement, wherever it stands, has the effect of the statement: it comes to its own
end with the state that the statement leads to, or jumps where the statement does, or faults. Only
the labels that it jumps to have to be found where they belong, and the ones that lowering adds
inside a statement are found there because none before them is the same.

* **`Statement.realizes`**: the code of a statement that is no call has the effect of the statement.
-/

namespace Quadword

/-! ## Effects -/

/-- An effect is a fault if the state is missing, and else going on with it. -/
theorem Effect.ofOption_eq (r : Option State) : Effect.ofOption r = r.elim .fault .next := by
  cases r <;> rfl

theorem Effect.ofOption_bind {α : Type} (r : Option α) (f : α → Option State) :
    Effect.ofOption (r >>= f) = r.elim .fault fun v => Effect.ofOption (f v) := by
  cases r <;> rfl

/-! ## Jumps -/

section

variable {leftover : Leftover} {bases : Bases} {m : Machine}

theorem exec_jmp (s : Symbol) : (jump .jmp s).exec leftover bases m = .jump s m := rfl

/-- A conditional jump leads to its symbol if the flags are so, and else on. -/
theorem exec_j (c : Cond) (s : Symbol) :
    (jump (.j c) s).exec leftover bases m = if c.holds m.flags then .jump s m else .next m := by
  have hexecute : m.execute bases (jump (.j c) s) =
      if c.holds m.flags then .jump s m else .next m := rfl
  rw [Instruction.exec, hexecute]
  cases c.holds m.flags <;> rfl

theorem exec_j_taken {c : Cond} (s : Symbol) (h : c.holds m.flags = true) :
    (jump (.j c) s).exec leftover bases m = .jump s m := by
  rw [exec_j, if_pos h]

theorem exec_j_passed {c : Cond} (s : Symbol) (h : c.holds m.flags = false) :
    (jump (.j c) s).exec leftover bases m = .next m := by
  rw [exec_j, h]
  rfl

theorem execAll_nops (count : Nat) :
    execAll leftover bases (List.replicate count ⟨.nop, []⟩) m = .next m := by
  induction count with
  | zero => rfl
  | succ count ih => exact ih

end

/-! ## Lines -/

theorem straight_append (is js : List Instruction) :
    straight (is ++ js) = straight is ++ straight js :=
  List.map_append

theorem straight_cons (j : Instruction) (is : List Instruction) :
    straight (j :: is) = .instruction j :: straight is := rfl

/-- What is held after straight code stands as much further on as there are instructions. -/
theorem Holds.after_straight {code more : List Line} {i : Nat} {is : List Instruction}
    (h : Holds code i (straight is ++ more)) : Holds code (i + is.length) more := by
  rw [← length_straight is]
  exact h.right

/-- No line before the given one defines the symbol. -/
def Unseen (code : List Line) (s : Symbol) (i : Nat) : Prop := .label s ∉ code.take i

namespace Unseen

variable {code more : List Line} {s : Symbol} {i : Nat}

/--
A symbol that has not been defined before a piece, nor in it, has not been before what follows.
-/
theorem append {piece : List Line} (h : Unseen code s i) (hcode : Holds code i (piece ++ more))
    (hpiece : .label s ∉ piece) : Unseen code s (i + piece.length) := by
  obtain ⟨front, back, hsplit, hfront⟩ := hcode
  unfold Unseen at h ⊢
  have htake : code.take (i + piece.length) = code.take i ++ piece := by
    rw [hsplit, ← hfront, List.append_assoc, List.append_assoc, List.take_length_add_append,
      List.take_left, List.take_left]
  rw [htake, List.mem_append]
  exact fun hmem => hmem.elim h hpiece

theorem straight {is : List Instruction} (h : Unseen code s i)
    (hcode : Holds code i (straight is ++ more)) : Unseen code s (i + is.length) := by
  rw [← length_straight is]
  exact h.append hcode (label_not_mem_straight s is)

theorem cons {l : Line} (h : Unseen code s i) (hcode : Holds code i (l :: more))
    (hl : l ≠ .label s) : Unseen code s (i + 1) := by
  have hsplit : Holds code i ([l] ++ more) := hcode
  exact h.append hsplit (by simpa using hl.symm)

end Unseen

/--
A label is found on the first line that defines it. If none before defines it as well, a jump leads
to this line.
-/
theorem findIdx?_label {code rest : List Line} {s : Symbol} {i : Nat} (h : Unseen code s i)
    (hcode : Holds code i (.label s :: rest)) :
    code.findIdx? (fun l => l = .label s) = some i := by
  obtain ⟨front, back, hsplit, hfront⟩ := hcode
  have htake : code.take i = front := by
    rw [hsplit, ← hfront]
    simp
  -- the lines in front do not define the label
  have hnone : front.findIdx? (fun l => decide (l = .label s)) = none := by
    rw [List.findIdx?_eq_none_iff]
    intro l hl
    rw [← htake] at hl
    exact decide_eq_false fun heq => h (heq ▸ hl)
  rw [hsplit, List.append_assoc, List.findIdx?_append, hnone, List.cons_append,
    List.findIdx?_cons]
  simp [hfront]

/-! ## Statements -/

section

variable {leftover : Leftover} {bases : Bases} {mode : Addressing} {fresh : Nat}
  {code seg : List Line} {lo : Nat}

theorem rsp_not_mem_scratch : Reg.rsp ∉ operationScratch := by decide

/-- Straight code that computes the next state has the effect of it. -/
theorem realizes_straight {is : List Instruction} {m : Machine} {result : Option State}
    (hcode : Holds code lo (straight is))
    (h : Computes leftover bases is m result fun st m' => m'.state .rsp = st) :
    Realizes code leftover bases lo (lo + (straight is).length) ⟨lo, m⟩ (.ofOption result) := by
  rw [Effect.ofOption_eq, length_straight]
  exact .straight hcode (Nat.le_refl lo) (Nat.le_refl _) h fun st m' hst => .done hst

theorem realizes_label {rest : List Line} {hi i : Nat} {s : Symbol} {m : Machine} {st : State}
    (hcode : Holds code i (.label s :: rest)) (hlo : lo ≤ i) (hhi : hi = i + 1)
    (hst : m.state .rsp = st) : Realizes code leftover bases lo hi ⟨i, m⟩ (.next st) := by
  subst hhi
  exact .step hlo (Nat.lt_succ_self i) (step_label hcode) (.done hst)

/-- An assignment, and what follows it. -/
theorem realizes_move {rest : List Line} {hi i : Nat} {moved : List Instruction}
    {target : Place} {value : Expr} {m : Machine}
    (hmoved : Frame.move ⟨mode, .rsp⟩ target value = .ok moved)
    (hcode : Holds code i (straight moved ++ rest)) (hlo : lo ≤ i) (hhi : i + moved.length ≤ hi)
    (hrest : ∀ st m', m'.state .rsp = st →
      Realizes code leftover bases lo hi ⟨i + moved.length, m'⟩ (.next st)) :
    Realizes code leftover bases lo hi ⟨i, m⟩
      (.ofOption (value.eval bases (m.state .rsp) >>= fun v =>
        target.assign bases (m.state .rsp) v)) := by
  rw [Effect.ofOption_eq]
  exact .straight hcode.left hlo hhi (Frame.move_computes hmoved rsp_not_mem_scratch m) hrest

/-- A comparison and a jump on its opposite: the code after the jump, or the code at its label. -/
theorem realizes_branch {rest : List Line} {hi k : Nat} {c : Condition}
    {compared : List Instruction} {s : Symbol} {m : Machine} {e : Bool → Effect}
    (hcompared : Frame.compare ⟨mode, .rsp⟩ c = .ok compared)
    (hcode : Holds code lo
      (straight compared ++ .instruction (jump (.j c.comparison.cond.inverse) s) :: rest))
    (hlabel : code.findIdx? (fun l => l = .label s) = some k) (hhi : lo + compared.length < hi)
    (hyes : ∀ m', m'.state .rsp = m.state .rsp →
      Realizes code leftover bases lo hi ⟨lo + compared.length + 1, m'⟩ (e true))
    (hno : ∀ m', m'.state .rsp = m.state .rsp →
      Realizes code leftover bases lo hi ⟨k, m'⟩ (e false)) :
    Realizes code leftover bases lo hi ⟨lo, m⟩ ((c.eval bases (m.state .rsp)).elim .fault e) := by
  refine .straight hcode.left (Nat.le_refl lo) (Nat.le_of_lt hhi)
    (Frame.compare_computes hcompared rsp_not_mem_scratch m) fun holds m' h => ?_
  obtain ⟨hholds, hstate⟩ := h
  have hinverse : c.comparison.cond.inverse.holds m'.flags = !holds := by
    rw [Cond.inverse_holds, hholds]
  have hjump := hcode.after_straight
  have hle : lo ≤ lo + compared.length := Nat.le_add_right ..
  -- the jump goes to the code of the other outcome, so it is the inverse that is emitted
  cases holds with
  | true =>
      exact .step hle hhi (step_next hjump (exec_j_passed s hinverse)) (hyes m' hstate)
  | false =>
      exact .step hle hhi (step_jump hjump (exec_j_taken s hinverse) hlabel) (hno m' hstate)

/--
A conditional assignment jumps over the assignment if the condition does not hold. The label is new,
so the jump finds it where it is.
-/
theorem assignIf_realizes {target : Place} {value : Expr} {condition : Condition}
    (hlower : (Statement.assignIf target value condition).lower mode fresh = .ok seg)
    (hcode : Holds code lo seg) (hfresh : Unseen code (.numbered fresh) lo) (m : Machine) :
    Realizes code leftover bases lo (lo + seg.length) ⟨lo, m⟩
      ((Statement.assignIf target value condition).exec bases (m.state .rsp)) := by
  obtain ⟨compared, hcompared, hlower⟩ := bind_eq_ok.mp hlower
  obtain ⟨moved, hmoved, hseg⟩ := bind_eq_ok.mp hlower
  cases hseg
  rw [straight_append, straight_cons, List.append_assoc, List.cons_append] at hcode ⊢
  have hmove := hcode.after_straight.tail
  have hend := hmove.after_straight
  -- the label is new, and no line of the statement before it is one
  have hskip := findIdx?_label
    (((hfresh.straight hcode).cons hcode.after_straight nofun).straight hmove) hend
  simp only [List.length_append, List.length_cons, List.length_nil, length_straight]
  rw [Statement.exec, Effect.ofOption_bind]
  refine realizes_branch hcompared hcode hskip (by omega) (fun m' hm' => ?_) fun m' hm' => ?_
  · -- the comparison has left the state as it was
    rw [← hm']
    refine realizes_move hmoved hmove (by omega) (by omega) fun st m'' hst => ?_
    exact realizes_label hend (by omega) (by omega) hst
  · exact realizes_label hend (by omega) (by omega) hm'

/--
A choice has two assignments, with a jump to the second one and a jump over it. Both labels are new,
and they differ even where the numbers start over.
-/
theorem select_realizes {target : Place} {condition : Condition} {yes no : Expr}
    (hlower : (Statement.select target condition yes no).lower mode fresh = .ok seg)
    (hcode : Holds code lo seg) (hfresh : Unseen code (.numbered fresh) lo)
    (hfresh' : Unseen code (.numbered (fresh + 1)) lo) (m : Machine) :
    Realizes code leftover bases lo (lo + seg.length) ⟨lo, m⟩
      ((Statement.select target condition yes no).exec bases (m.state .rsp)) := by
  obtain ⟨compared, hcompared, hlower⟩ := bind_eq_ok.mp hlower
  obtain ⟨yesCode, hyesCode, hlower⟩ := bind_eq_ok.mp hlower
  obtain ⟨noCode, hnoCode, hseg⟩ := bind_eq_ok.mp hlower
  cases hseg
  rw [straight_append, straight_append, straight_cons, List.append_assoc, List.append_assoc,
    List.append_assoc, List.cons_append, List.cons_append] at hcode ⊢
  have hyesAt := hcode.after_straight.tail
  have hjmpAt := hyesAt.after_straight
  have hotherAt := hjmpAt.tail
  have hnoAt := hotherAt.tail
  have hdoneAt := hnoAt.after_straight
  -- no label of this statement stands before the first of the two
  have hunseen : ∀ {sym : Symbol}, Unseen code sym lo →
      Unseen code sym (lo + compared.length + 1 + yesCode.length + 1) := fun hsym =>
    (((hsym.straight hcode).cons hcode.after_straight nofun).straight hyesAt).cons hjmpAt nofun
  have hne : Line.label (.numbered fresh) ≠ .label (.numbered (fresh + 1)) := fun heq =>
    Symbol.numbered_succ_ne fresh (Line.label.inj heq).symm
  have hother := findIdx?_label (hunseen hfresh) hotherAt
  have hdone := findIdx?_label (((hunseen hfresh').cons hotherAt hne).straight hnoAt) hdoneAt
  simp only [List.length_append, List.length_cons, List.length_nil, length_straight]
  rw [Statement.exec, Effect.ofOption_bind]
  refine realizes_branch hcompared hcode hother (by omega) (fun m' hm' => ?_) fun m' hm' => ?_
  · rw [← hm']
    refine realizes_move hyesCode hyesAt (by omega) (by omega) fun st m'' hst => ?_
    refine .step (by simp; omega) (by simp; omega) (step_jump hjmpAt (exec_jmp _) hdone) ?_
    exact realizes_label hdoneAt (by omega) (by omega) hst
  · rw [← hm']
    refine .step (by simp; omega) (by simp; omega) (step_label hotherAt) ?_
    refine realizes_move hnoCode hnoAt (by omega) (by omega) fun st m'' hst => ?_
    exact realizes_label hdoneAt (by omega) (by omega) hst

/--
A conditional jump compares and then jumps on the condition itself, since what follows is the next
statement.
-/
theorem gotoIf_realizes {target : Destination} {condition : Condition} {k : Nat}
    (hlower : (Statement.gotoIf target condition).lower mode fresh = .ok seg)
    (hcode : Holds code lo seg)
    (hlabel : code.findIdx? (fun l => l = .label target.symbol) = some k) (m : Machine) :
    Realizes code leftover bases lo (lo + seg.length) ⟨lo, m⟩
      ((Statement.gotoIf target condition).exec bases (m.state .rsp)) := by
  obtain ⟨compared, hcompared, hseg⟩ := bind_eq_ok.mp hlower
  cases hseg
  rw [straight_append] at hcode ⊢
  have hjump := hcode.after_straight
  have hexec : (Statement.gotoIf target condition).exec bases (m.state .rsp) =
      (condition.eval bases (m.state .rsp)).elim .fault fun holds =>
        if holds then .jump target (m.state .rsp) else .next (m.state .rsp) := by
    rw [Statement.exec]
    split <;> rename_i heval <;> rw [heval] <;> rfl
  rw [hexec]
  simp only [List.length_append, straight_cons, List.length_cons, length_straight]
  refine .straight hcode.left (Nat.le_refl lo) (by omega)
    (Frame.compare_computes hcompared rsp_not_mem_scratch m) fun holds m' h => ?_
  obtain ⟨hholds, hstate⟩ := h
  -- here the jump is the statement itself, so it is not inverted
  cases holds with
  | true =>
      exact .jump hjump (by omega) (by omega) (exec_j_taken target.symbol hholds) hlabel hstate
  | false =>
      refine .step (by simp) (by simp) (step_next hjump (exec_j_passed target.symbol hholds)) ?_
      exact .done hstate

/-- A new value for the stack pointer, computed in `rax`. -/
theorem setSp_computes {e : Expr} {is : List Instruction}
    (hload : Frame.load ⟨mode, .rsp⟩ e .rax = .ok is) (m : Machine) :
    Computes leftover bases (is ++ [⟨.mov, [Reg.rsp.whole, Reg.rax.whole]⟩]) m
      (e.eval bases (m.state .rsp) >>= fun v => some { m.state .rsp with sp := v })
      fun st m' => m'.state .rsp = st := by
  have hpointer : Reg.rsp ∉ e.clobbers .rax :=
    fun hmem => rsp_not_mem_scratch (e.clobbers_rax_subset hmem)
  refine (Frame.load_computes hload hpointer m).bind fun v m' hv => ?_
  obtain ⟨hrax, hkeeps⟩ := hv
  refine .single (exec_mov_whole .rsp .rax) ?_
  unfold Machine.state
  rw [m'.set_regs_self, m'.set_ram, hrax, hkeeps.ram]

/-- An alignment clears the low bits of the stack pointer. -/
theorem align_computes (boundary : Nat) (m : Machine) :
    Computes leftover bases [⟨.and, [Reg.rsp.whole, .imm (-BitVec.ofNat 64 boundary)]⟩] m
      (some { m.state .rsp with sp := (m.state .rsp).sp &&& -BitVec.ofNat 64 boundary })
      fun st m' => m'.state .rsp = st := by
  obtain ⟨fl, hexec⟩ := exec_combine_imm .and .rsp (-BitVec.ofNat 64 boundary) rfl
  exact .single hexec rfl

/--
**The code of a statement does what the statement means.** Wherever the code stands, and whatever is
in the registers besides the stack pointer: the labels that lowering added must not occur before,
and a label that the statement jumps to must be found.
-/
theorem Statement.realizes {s : Statement} (hlower : s.lower mode fresh = .ok seg)
    (hcode : Holds code lo seg)
    (hfresh : ∀ g, fresh ≤ g → g < fresh + s.labels → Unseen code (.numbered g) lo)
    (hcall : s.callee? = none)
    (hlabel : ∀ target, s.jump? = some target →
      ∃ k, code.findIdx? (fun l => l = .label target.symbol) = some k) (m : Machine) :
    Realizes code leftover bases lo (lo + seg.length) ⟨lo, m⟩ (s.exec bases (m.state .rsp)) := by
  cases s with
  | label name =>
      cases hlower
      exact realizes_label hcode (Nat.le_refl lo) rfl rfl
  | assign target value =>
      obtain ⟨is, hmove, hseg⟩ := bind_eq_ok.mp hlower
      cases hseg
      exact realizes_straight hcode (Frame.move_computes hmove rsp_not_mem_scratch m)
  | assignIf target value condition =>
      exact assignIf_realizes hlower hcode (hfresh fresh (Nat.le_refl _) (Nat.lt_succ_self _)) m
  | select target condition yes no =>
      exact select_realizes hlower hcode
        (hfresh fresh (Nat.le_refl _) (Nat.lt_add_of_pos_right Nat.two_pos))
        (hfresh (fresh + 1) (Nat.le_succ _) (Nat.lt_succ_self _)) m
  | update target op value =>
      -- an update is the assignment of a combined value
      obtain ⟨is, hload, hlower⟩ := bind_eq_ok.mp hlower
      obtain ⟨js, hstore, hseg⟩ := bind_eq_ok.mp hlower
      cases hseg
      have hmove : Frame.move ⟨mode, .rsp⟩ target (.binary op target.read value) = .ok (is ++ js) :=
        bind_eq_ok.mpr ⟨is, hload, bind_eq_ok.mpr ⟨js, hstore, rfl⟩⟩
      exact realizes_straight hcode (Frame.move_computes hmove rsp_not_mem_scratch m)
  | goto target =>
      cases hlower
      obtain ⟨k, hk⟩ := hlabel target rfl
      exact .jump hcode (Nat.le_refl lo) (Nat.lt_succ_self lo) (exec_jmp target.symbol) hk rfl
  | gotoIf target condition =>
      obtain ⟨k, hk⟩ := hlabel target rfl
      exact gotoIf_realizes hlower hcode hk m
  | pass count =>
      cases hlower
      have hnops : Computes leftover bases (List.replicate count.toNat ⟨.nop, []⟩) m
          (some (m.state .rsp)) fun st m' => m'.state .rsp = st := ⟨m, execAll_nops _, rfl⟩
      exact realizes_straight hcode hnops
  | setSp op value =>
      cases op with
      | none =>
          obtain ⟨is, hload, hseg⟩ := bind_eq_ok.mp hlower
          cases hseg
          exact realizes_straight hcode (setSp_computes hload m)
      | some op =>
          obtain ⟨is, hload, hseg⟩ := bind_eq_ok.mp hlower
          cases hseg
          exact realizes_straight hcode (setSp_computes hload m)
  | align boundary =>
      cases hlower
      exact realizes_straight hcode (align_computes boundary m)
  | syscall name arguments output => cases hcall

end

end Quadword
