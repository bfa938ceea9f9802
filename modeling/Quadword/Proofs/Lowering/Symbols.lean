import Quadword.Proofs.Grammar.Program
import Quadword.Proofs.Lowering.Discipline

/-!
# The symbols of lowered code

What code defines, jumps to and calls. A statement defines the label that it is and the labels that
its own code needs, which are numbered on from one statement to the next. The counter has 32 bits:
as long as it does not start again, no symbol is defined twice. A jump inside a statement, to a
label or to the end finds its symbol defined in any case.

* **`Statement.lower_mentions`**: the symbols in the code of each kind of statement.
* **`Program.nodup_symbols`** and **`Program.mem_symbols_of_mem_targets`**: symbols are defined
  once if the labels fit the counter, and the ones that are jumped to are defined.
* **`Program.mem_externals_iff`** and **`Program.nodup_externals`**: the procedures that are
  declared are those that are called.
-/

namespace Quadword

/-! ## Lines -/

namespace Line

/-- The symbol that a line defines. -/
def label? : Line → Option Symbol
  | .label s => some s
  | .instruction _ => none

/-- The symbol that a line jumps to, always or under a condition. -/
def jump? : Line → Option Symbol
  | .instruction ⟨.jmp, [.target s]⟩ | .instruction ⟨.j _, [.target s]⟩ => some s
  | _ => none

/-- The symbol that a line calls. -/
def call? : Line → Option Symbol
  | .instruction ⟨.call, [.target s]⟩ => some s
  | _ => none

end Line

/-- Whether the symbol is a procedure of the host. -/
def Symbol.isHost : Symbol → Bool
  | .host _ => true
  | _ => false

/-- The shapes that lines of code have. -/
inductive Line.Shaped : Line → Prop where
  | label {s : Symbol} (hs : s.isHost = false) : Shaped (.label s)
  | inLine {i : Instruction} (hi : i.InLine) : Shaped (.instruction i)
  | jmp {s : Symbol} (hs : s.isHost = false) : Shaped (.instruction (jump .jmp s))
  | j {s : Symbol} (c : Cond) (hs : s.isHost = false) : Shaped (.instruction (jump (.j c) s))
  | call (name : String) : Shaped (.instruction (jump .call (.host name)))

theorem Instruction.InLine.jump?_eq_none {i : Instruction} (h : i.InLine) :
    (Line.instruction i).jump? = none := by
  obtain ⟨op, operands⟩ := i
  have hop := h.opcode
  cases op <;> first | rfl | cases hop

theorem Instruction.InLine.call?_eq_none {i : Instruction} (h : i.InLine) :
    (Line.instruction i).call? = none := by
  obtain ⟨op, operands⟩ := i
  have hop := h.opcode
  cases op <;> first | rfl | cases hop

/-- The symbols that code defines, jumps to and calls, each in order. -/
structure Mentions (code : List Line) (definitions jumps calls : List Symbol) : Prop where
  definitions : code.filterMap Line.label? = definitions
  jumps : code.filterMap Line.jump? = jumps
  calls : code.filterMap Line.call? = calls
  shaped : ∀ line ∈ code, line.Shaped

namespace Mentions

variable {code code' : List Line} {ds js cs ds' js' cs' : List Symbol}

theorem nil : Mentions [] [] [] [] := ⟨rfl, rfl, rfl, nofun⟩

theorem append (h : Mentions code ds js cs) (h' : Mentions code' ds' js' cs') :
    Mentions (code ++ code') (ds ++ ds') (js ++ js') (cs ++ cs') where
  definitions := by rw [List.filterMap_append, h.definitions, h'.definitions]
  jumps := by rw [List.filterMap_append, h.jumps, h'.jumps]
  calls := by rw [List.filterMap_append, h.calls, h'.calls]
  shaped := List.forall_mem_append.mpr ⟨h.shaped, h'.shaped⟩

theorem single {line : Line} (h : line.Shaped) :
    Mentions [line] line.label?.toList line.jump?.toList line.call?.toList := by
  have hone : ∀ f : Line → Option Symbol, [line].filterMap f = (f line).toList := by
    intro f
    cases hf : f line <;> simp [hf]
  exact ⟨hone _, hone _, hone _, List.forall_mem_singleton.mpr h⟩

theorem label {s : Symbol} (hs : s.isHost = false) : Mentions [.label s] [s] [] [] :=
  single (.label hs)

theorem jmp {s : Symbol} (hs : s.isHost = false) : Mentions (straight [jump .jmp s]) [] [s] [] :=
  single (.jmp hs)

theorem j {s : Symbol} (c : Cond) (hs : s.isHost = false) :
    Mentions (straight [jump (.j c) s]) [] [s] [] := single (.j c hs)

theorem call (name : String) : Mentions (straight [jump .call (.host name)]) [] [] [.host name] :=
  single (.call name)

/-- Code that stays in line mentions no symbol. -/
theorem inLine {is : List Instruction} (h : ∀ i ∈ is, i.InLine) :
    Mentions (straight is) [] [] [] := by
  induction is with
  | nil => exact nil
  | cons i is ih =>
      obtain ⟨hi, his⟩ := List.forall_mem_cons.mp h
      have hline := single (.inLine hi)
      rw [hi.jump?_eq_none, hi.call?_eq_none] at hline
      exact append hline (ih his)

theorem quiet {is : List Instruction} (h : ∀ i ∈ is, i.Quiet) : Mentions (straight is) [] [] [] :=
  inLine fun i hi => (h i hi).toInLine

end Mentions

/-! ## Statements -/

namespace Statement

/-- The symbols that the code of a statement defines; `fresh` labels were taken before it. -/
def definitions (fresh : Nat) : Statement → List Symbol
  | .label name => [.label name]
  | .assignIf .. => [.numbered fresh]
  | .select .. => [.numbered fresh, .numbered (fresh + 1)]
  | _ => []

/-- The symbols that the code of a statement jumps to. -/
def jumps (fresh : Nat) : Statement → List Symbol
  | .assignIf .. => [.numbered fresh]
  | .select .. => [.numbered fresh, .numbered (fresh + 1)]
  | .goto target | .gotoIf target _ => [target.symbol]
  | _ => []

/-- The symbols that the code of a statement calls. -/
def calls (s : Statement) : List Symbol := s.callee?.toList.map .host

end Statement

theorem Destination.symbol_isHost (d : Destination) : d.symbol.isHost = false := by
  cases d <;> rfl

/-- The code of a call mentions the procedure once, and nothing else. -/
theorem callHost_mentions {mode : Addressing} {name : String} {arguments : List Expr}
    {output : Option Place} {code : List Instruction}
    (h : callHost mode name arguments output = .ok code) :
    Mentions (straight code) [] [] [.host name] := by
  obtain ⟨before, after, rfl, hinLine, -⟩ := callHost_inLine h
  obtain ⟨hbefore, hafter⟩ := List.forall_mem_append.mp hinLine
  rw [straight_append, straight_cons]
  exact .append (.inLine fun i hi => (hbefore i hi).1)
    (.append (.call name) (.inLine fun i hi => (hafter i hi).1))

/--
The symbols in the code of a statement. They are listed by the statement itself, so what follows for
a whole program is about lists of statements and not about code.
-/
theorem Statement.lower_mentions {s : Statement} {mode : Addressing} {fresh : Nat}
    {code : List Line} (h : s.lower mode fresh = .ok code) :
    Mentions code (s.definitions fresh) (s.jumps fresh) s.calls := by
  -- a straight part without a jump mentions nothing, so what is left are jumps, labels and the call
  cases s with
  | label name =>
      cases h
      exact .label rfl
  | assign target value =>
      obtain ⟨is, his, h⟩ := bind_eq_ok.mp h
      cases h
      exact .quiet (Frame.move_quiet his)
  | assignIf target value condition =>
      obtain ⟨cs, hcs, h⟩ := bind_eq_ok.mp h
      obtain ⟨is, his, h⟩ := bind_eq_ok.mp h
      cases h
      rw [straight_append, straight_cons]
      exact .append (.append (.quiet (Frame.compare_quiet hcs))
        (.append (.j _ rfl) (.quiet (Frame.move_quiet his)))) (.label rfl)
  | select target condition yes no =>
      obtain ⟨cs, hcs, h⟩ := bind_eq_ok.mp h
      obtain ⟨ys, hys, h⟩ := bind_eq_ok.mp h
      obtain ⟨ns, hns, h⟩ := bind_eq_ok.mp h
      cases h
      rw [straight_append, straight_append, straight_cons]
      exact .append (.append
        (.append (.append (.quiet (Frame.compare_quiet hcs))
          (.append (.j _ rfl) (.quiet (Frame.move_quiet hys)))) (.jmp rfl))
        (.append (.label rfl) (.quiet (Frame.move_quiet hns)))) (.label rfl)
  | update target op value =>
      obtain ⟨is, his, h⟩ := bind_eq_ok.mp h
      obtain ⟨ss, hss, h⟩ := bind_eq_ok.mp h
      cases h
      exact .quiet (List.forall_mem_append.mpr
        ⟨Frame.load_quiet his (by decide), Frame.store_quiet hss⟩)
  | goto target =>
      cases h
      exact .jmp target.symbol_isHost
  | gotoIf target condition =>
      obtain ⟨cs, hcs, h⟩ := bind_eq_ok.mp h
      cases h
      rw [straight_append]
      exact .append (.quiet (Frame.compare_quiet hcs)) (.j _ target.symbol_isHost)
  | pass count =>
      cases h
      refine .quiet fun i hi => ?_
      rw [List.eq_of_mem_replicate hi]
      decide
  | setSp op value =>
      obtain ⟨is, e, his, rfl⟩ := lower_setSp h
      rw [straight_append]
      exact .append (.quiet (Frame.load_quiet his (by decide)))
        (.inLine (List.forall_mem_singleton.mpr ⟨rfl, rfl⟩))
  | align boundary =>
      cases h
      exact .inLine (List.forall_mem_singleton.mpr ⟨rfl, rfl⟩)
  | syscall name arguments output =>
      obtain ⟨is, his, h⟩ := bind_eq_ok.mp h
      cases h
      exact callHost_mentions his

/-! ## Programs -/

/-- The symbols that the code of statements defines; `fresh` labels were taken before them. -/
def definitions (fresh : Nat) : List Statement → List Symbol
  | [] => []
  | s :: ss => s.definitions fresh ++ definitions (fresh + s.labels) ss

/-- The symbols that the code of statements jumps to. -/
def jumps (fresh : Nat) : List Statement → List Symbol
  | [] => []
  | s :: ss => s.jumps fresh ++ jumps (fresh + s.labels) ss

namespace Program

/-- The symbols that a program defines, in order. -/
def symbols (p : Program) : List Symbol :=
  .region .data :: .region .const :: .entry :: definitions 0 (p.statements.map Located.value)
    ++ [.finish]

/-- The symbols that a program jumps to. -/
def targets (p : Program) : List Symbol := jumps 0 (p.statements.map Located.value)

/-- The symbols that a program calls; the last call ends the process. -/
def callees (p : Program) : List Symbol :=
  (p.statements.map Located.value).flatMap Statement.calls ++ [.host exitProcedure]

end Program

/-- The end of a program defines its symbol and calls the procedure that ends the process. -/
theorem Program.exit_mentions {p : Program} {mode : Addressing} {l : Listing}
    (h : p.lower mode = .ok l) : Mentions l.exit [.finish] [] [.host exitProcedure] := by
  obtain ⟨-, exit, hexit, heq⟩ := lower_eq_ok h
  have hfinish : Mentions [.label .finish] [.finish] [] [] := .label rfl
  rw [heq]
  exact hfinish.append (callHost_mentions hexit)

/--
The symbols in the code of all statements, in order. Numbers are taken by each statement from where
the one before has left off.
-/
theorem Program.lowerStatements_mentions {mode : Addressing} {fresh : Nat}
    {ss : List (Located Statement)} {blocks : List Block}
    (h : lowerStatements mode fresh ss = .ok blocks) :
    Mentions (blocks.flatMap Block.code) (definitions fresh (ss.map Located.value))
      (jumps fresh (ss.map Located.value)) ((ss.map Located.value).flatMap Statement.calls) := by
  induction ss generalizing fresh blocks with
  | nil =>
      cases h
      exact .nil
  | cons s ss ih =>
      obtain ⟨code, more, hs, hmore, rfl⟩ := lowerStatements_cons h
      exact (Statement.lower_mentions hs).append (ih hmore)

/-- The symbols in the code of a program. -/
theorem Program.lower_mentions {p : Program} {mode : Addressing} {l : Listing}
    (h : p.lower mode = .ok l) :
    Mentions l.code (.entry :: definitions 0 (p.statements.map Located.value) ++ [.finish])
      p.targets p.callees := by
  have hentry : Mentions [.label .entry] [.entry] [] [] := .label rfl
  have hall := hentry.append
    ((lowerStatements_mentions (lower_eq_ok h).1).append (exit_mentions h))
  rw [List.append_nil] at hall
  exact hall

/-! ### Definitions -/

/-- A symbol that a statement defines. -/
theorem Statement.mem_definitions {s : Statement} {fresh : Nat} {sym : Symbol}
    (h : sym ∈ s.definitions fresh) : (∃ name, s = .label name ∧ sym = .label name) ∨
      ∃ g, sym = .numbered g ∧ fresh ≤ g ∧ g < fresh + s.labels := by
  cases s with
  | label name => exact .inl ⟨name, rfl, List.mem_singleton.mp h⟩
  | assignIf target value condition =>
      exact .inr ⟨fresh, List.mem_singleton.mp h, Nat.le_refl _, Nat.lt_succ_self _⟩
  | select target condition yes no =>
      rcases List.mem_cons.mp h with rfl | h
      · exact .inr ⟨fresh, rfl, Nat.le_refl _, by rw [labels]; omega⟩
      · exact .inr ⟨fresh + 1, List.mem_singleton.mp h, Nat.le_succ _, by rw [labels]; omega⟩
  | _ => cases h

/-- Which symbols statements define: their labels, and as many numbered ones as they take. -/
theorem mem_definitions {ss : List Statement} {fresh : Nat} {sym : Symbol}
    (h : sym ∈ definitions fresh ss) :
    (∃ name, .label name ∈ ss ∧ sym = .label name) ∨
      ∃ g, sym = .numbered g ∧ fresh ≤ g ∧ g < fresh + (ss.map Statement.labels).sum := by
  induction ss generalizing fresh with
  | nil => cases h
  | cons s ss ih =>
      rw [List.map_cons, List.sum_cons]
      -- of the first statement, or of the others, with the numbers moved on by those it takes
      rcases List.mem_append.mp h with h | h
      · rcases Statement.mem_definitions h with ⟨name, rfl, hsym⟩ | ⟨g, hsym, hle, hlt⟩
        · exact .inl ⟨name, List.mem_cons_self, hsym⟩
        · exact .inr ⟨g, hsym, hle, by omega⟩
      · rcases ih h with ⟨name, hmem, hsym⟩ | ⟨g, hsym, hle, hlt⟩
        · exact .inl ⟨name, List.mem_cons_of_mem _ hmem, hsym⟩
        · exact .inr ⟨g, hsym, by omega, by omega⟩

/-- The label of a statement is defined, whatever number its statement starts from. -/
theorem label_mem_definitions {ss : List Statement} {fresh : Nat} {name : String}
    (h : .label name ∈ ss) : .label name ∈ definitions fresh ss := by
  induction ss generalizing fresh with
  | nil => cases h
  | cons s ss ih =>
      rcases List.mem_cons.mp h with rfl | h
      · exact List.mem_append_left _ List.mem_cons_self
      · exact List.mem_append_right _ (ih h)

/-- No symbol is defined twice if no label is and all numbered ones fit the counter. -/
theorem nodup_definitions {ss : List Statement} (h : (ss.filterMap Statement.label?).Nodup)
    {fresh : Nat} (hfits : fresh + (ss.map Statement.labels).sum ≤ 2 ^ 32) :
    (definitions fresh ss).Nodup := by
  induction ss generalizing fresh with
  | nil => exact .nil
  | cons s ss ih =>
      rw [List.map_cons, List.sum_cons] at hfits
      have hlabels : (ss.filterMap Statement.label?).Nodup :=
        List.Nodup.sublist (List.Sublist.filterMap _ (List.sublist_cons_self s ss)) h
      have hown : (s.definitions fresh).Nodup := by
        cases s with
        | select target condition yes no =>
            simp [Statement.definitions, (Symbol.numbered_succ_ne fresh).symm]
        | label name => simp [Statement.definitions]
        | assignIf target value condition => simp [Statement.definitions]
        | _ => exact .nil
      refine List.nodup_append.mpr
        ⟨hown, ih hlabels (by omega), fun sym hmem sym' hmem' heq => ?_⟩
      subst heq
      rcases Statement.mem_definitions hmem with ⟨name, rfl, hsym⟩ | ⟨g, hsym, -, hlt⟩
      · rcases mem_definitions hmem' with ⟨name', hmem', hsym'⟩ | ⟨g, hsym', -, -⟩
        · -- the label would be defined by a later statement too
          rw [hsym] at hsym'
          cases hsym'
          have hnodup : (name :: ss.filterMap Statement.label?).Nodup := h
          exact absurd (Parser.mem_labels_iff.mpr hmem') (List.nodup_cons.mp hnodup).1
        · rw [hsym] at hsym'
          cases hsym'
      · rcases mem_definitions hmem' with ⟨name', -, hsym'⟩ | ⟨g', hsym', hle, hlt'⟩
        · rw [hsym] at hsym'
          cases hsym'
        · -- both numbers are below `2 ^ 32`, so the symbols carry them as they are
          rw [hsym, Symbol.numbered_of_lt (by omega), Symbol.numbered_of_lt (by omega)] at hsym'
          cases hsym'
          omega

/-- The symbols of a program that no statement of it defines. -/
def Program.fixedSymbols : List Symbol := [.region .data, .region .const, .entry, .finish]

/-- The symbols of a program are those that every program has and those of its statements. -/
theorem Program.symbols_perm (p : Program) :
    p.symbols.Perm (fixedSymbols ++ definitions 0 (p.statements.map Located.value)) :=
  .cons _ (.cons _ (.cons _ (List.perm_append_singleton _ _)))

theorem Program.isHost_of_mem_symbols {p : Program} {sym : Symbol} (h : sym ∈ p.symbols) :
    sym.isHost = false := by
  rcases List.mem_append.mp (p.symbols_perm.mem_iff.mp h) with h | h
  · have hall : ∀ sym ∈ fixedSymbols, sym.isHost = false := by decide
    exact hall sym h
  · rcases mem_definitions h with ⟨name, -, rfl⟩ | ⟨g, rfl, -, -⟩ <;> rfl

/-- No symbol of a program is defined twice if no label is and the numbered ones fit the counter. -/
theorem Program.nodup_symbols {p : Program}
    (hlabels : Grammar.LabelsResolve (p.statements.map Located.value))
    (hnumbers : labelCount p.statements < 2 ^ 32) : p.symbols.Nodup := by
  have hfits : 0 + ((p.statements.map Located.value).map Statement.labels).sum ≤ 2 ^ 32 := by
    rw [← labelCount_eq_sum, Nat.zero_add]
    exact Nat.le_of_lt hnumbers
  refine p.symbols_perm.nodup_iff.mpr (List.nodup_append.mpr
    ⟨by decide, nodup_definitions hlabels.unique hfits, ?_⟩)
  rintro sym hfixed sym' hmem rfl
  rcases mem_definitions hmem with ⟨name, -, rfl⟩ | ⟨g, rfl, -, -⟩ <;>
    simp [fixedSymbols, Symbol.numbered] at hfixed

/-! ### Jumps -/

/-- A symbol that a statement jumps to: its own, or where it says that it goes. -/
theorem Statement.mem_jumps {s : Statement} {fresh : Nat} {sym : Symbol} (h : sym ∈ s.jumps fresh) :
    sym ∈ s.definitions fresh ∨ ∃ d, s.jump? = some d ∧ sym = d.symbol := by
  cases s with
  | assignIf target value condition => exact .inl h
  | select target condition yes no => exact .inl h
  | goto d => exact .inr ⟨d, rfl, List.mem_singleton.mp h⟩
  | gotoIf d condition => exact .inr ⟨d, rfl, List.mem_singleton.mp h⟩
  | _ => cases h

/--
A jump leads to a symbol that the same program defines with a number, or to the destination of one
of its statements.
-/
theorem mem_jumps {ss : List Statement} {fresh : Nat} {sym : Symbol} (h : sym ∈ jumps fresh ss) :
    sym ∈ definitions fresh ss ∨ ∃ s ∈ ss, ∃ d, s.jump? = some d ∧ sym = d.symbol := by
  induction ss generalizing fresh with
  | nil => cases h
  | cons s ss ih =>
      rcases List.mem_append.mp h with h | h
      · rcases Statement.mem_jumps h with h | ⟨d, hd, hsym⟩
        · exact .inl (List.mem_append_left _ h)
        · exact .inr ⟨s, List.mem_cons_self, d, hd, hsym⟩
      · rcases ih h with h | ⟨s', hs', d, hd, hsym⟩
        · exact .inl (List.mem_append_right _ h)
        · exact .inr ⟨s', List.mem_cons_of_mem _ hs', d, hd, hsym⟩

/-- What is jumped to is the end of the program or defined by a statement. -/
theorem Program.mem_symbols_of_mem_targets {p : Program} {sym : Symbol}
    (hlabels : Grammar.LabelsResolve (p.statements.map Located.value)) (h : sym ∈ p.targets) :
    sym ∈ p.symbols := by
  refine p.symbols_perm.mem_iff.mpr (List.mem_append.mpr ?_)
  rcases mem_jumps h with h | ⟨s, hs, d, hd, rfl⟩
  · exact .inr h
  · cases d with
    | label name => exact .inr (label_mem_definitions (hlabels.defined s hs name hd))
    | finish => exact .inl (by decide)

/-! ### Procedures of the host -/

/-- Inserting a name adds just that name. -/
theorem mem_insertName {name x : String} {names : List String} :
    x ∈ insertName name names ↔ x = name ∨ x ∈ names := by
  induction names with
  | nil => simp [insertName]
  | cons n names ih =>
      rw [insertName]
      split
      · exact List.mem_cons
      · split
        · next heq => simp [heq]
        · rw [List.mem_cons, ih, List.mem_cons]
          exact or_left_comm

/--
Inserting a name keeps the names in order, and no name comes twice: a name that is there already is
not inserted.
-/
theorem pairwise_insertName {name : String} {names : List String}
    (h : names.Pairwise (· < ·)) : (insertName name names).Pairwise (· < ·) := by
  induction names with
  | nil => exact List.pairwise_singleton _ _
  | cons n names ih =>
      obtain ⟨hn, hnames⟩ := List.pairwise_cons.mp h
      rw [insertName]
      -- before the first name that is greater, or nowhere when the name is there already
      split
      · next hlt =>
        refine List.pairwise_cons.mpr ⟨List.forall_mem_cons.mpr ⟨hlt, fun x hx => ?_⟩, h⟩
        exact String.lt_trans hlt (hn x hx)
      · next hnlt =>
        split
        · exact h
        · next hne =>
          refine List.pairwise_cons.mpr ⟨fun x hx => ?_, ih hnames⟩
          rcases mem_insertName.mp hx with rfl | hx
          · exact Std.lt_of_le_of_ne (String.not_lt.mp hnlt) (Ne.symm hne)
          · exact hn x hx

/-- The procedures that a listing declares are the ones of the program. -/
theorem Program.lower_externals {p : Program} {mode : Addressing} {l : Listing}
    (h : p.lower mode = .ok l) : l.externals = p.externals := by
  obtain ⟨data, -, h⟩ := bind_eq_ok.mp h
  obtain ⟨const, -, h⟩ := bind_eq_ok.mp h
  obtain ⟨blocks, -, h⟩ := bind_eq_ok.mp h
  obtain ⟨exit, hexit⟩ := isOk_iff.mp (exitSequence_isOk mode)
  rw [hexit] at h
  cases h
  rfl

theorem Program.pairwise_externals (p : Program) : p.externals.Pairwise (· < ·) := by
  unfold externals
  induction p.statements.filterMap fun s => s.value.callee? with
  | nil => exact List.pairwise_singleton _ _
  | cons name names ih => exact pairwise_insertName ih

/-- No procedure is declared twice, since they are declared in ascending order. -/
theorem Program.nodup_externals (p : Program) : p.externals.Nodup := by
  refine p.pairwise_externals.imp fun hlt heq => ?_
  rw [heq] at hlt
  exact String.lt_irrefl _ hlt

/--
The procedures that are declared are those that are called. Both are collected from the calls, one
of them sorted, and the exit adds its own to both.
-/
theorem Program.mem_externals_iff {p : Program} {name : String} :
    name ∈ p.externals ↔ .host name ∈ p.callees := by
  -- the same names, once as symbols and once as they are declared
  have hcalls : ∀ ss : List (Located Statement),
      (ss.map Located.value).flatMap Statement.calls =
        (ss.filterMap fun s => s.value.callee?).map .host := by
    intro ss
    induction ss with
    | nil => rfl
    | cons s ss ih =>
        rw [List.map_cons, List.flatMap_cons, ih, Statement.calls]
        cases hs : s.value.callee? <;> simp [hs]
  rw [callees, hcalls, externals]
  induction p.statements.filterMap fun s => s.value.callee? with
  | nil => simp
  | cons name' names ih =>
      rw [List.foldr_cons, List.map_cons, List.cons_append, List.mem_cons, Symbol.host.injEq]
      exact mem_insertName.trans (or_congr_right ih)

end Quadword
