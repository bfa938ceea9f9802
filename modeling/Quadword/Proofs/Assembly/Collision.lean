import Quadword.Proofs.Assembly.Output

/-!
# Calls of symbols that the text defines

A call names a procedure of the host, and its name goes into the text as it is. The symbols that the
text defines have names of a few forms, and nothing keeps a statement from calling a procedure by
one of these. Then the call leads into the program itself; with any other name it leaves it.

* **`Program.mem_symbols_iff`**: the names that a program defines.
* **`Output.compile_call_defined_iff`**: which calls lead into the program.
-/

namespace Quadword

/-! ## The names that a program defines -/

/--
A statement defines every number that it takes. Two kinds of statements take any, and those put them
in front of a line of their own code.
-/
theorem Statement.numbered_mem_definitions {s : Statement} {fresh g : Nat} (hle : fresh ≤ g)
    (hlt : g < fresh + s.labels) : .numbered g ∈ s.definitions fresh := by
  cases s with
  | assignIf target value condition =>
      rw [labels] at hlt
      obtain rfl : g = fresh := by omega
      exact List.mem_cons_self
  | select target condition yes no =>
      rw [labels] at hlt
      obtain rfl | rfl : g = fresh ∨ g = fresh + 1 := by omega
      · exact List.mem_cons_self
      · exact List.mem_cons_of_mem _ List.mem_cons_self
  | _ => exact absurd hlt (Nat.not_lt_of_le hle)

/-- Statements define all the numbers that they take. They define no others (`mem_definitions`). -/
theorem numbered_mem_definitions {ss : List Statement} {fresh g : Nat} (hle : fresh ≤ g)
    (hlt : g < fresh + (ss.map Statement.labels).sum) : .numbered g ∈ definitions fresh ss := by
  induction ss generalizing fresh with
  | nil =>
      rw [List.map_nil, List.sum_nil] at hlt
      omega
  | cons s ss ih =>
      rw [List.map_cons, List.sum_cons] at hlt
      rcases Nat.lt_or_ge g (fresh + s.labels) with hown | hlater
      · exact List.mem_append_left _ (Statement.numbered_mem_definitions hle hown)
      · exact List.mem_append_right _ (ih hlater (by omega))

namespace Program

/--
The names that a program defines, whatever it calls. Generated labels are counted in 32 bits, so
with more of them than that the numbers start again.
-/
inductive DefinesName (p : Program) : String → Prop where
  | data : DefinesName p "kair_data"
  | const : DefinesName p "kair_const"
  | entry : DefinesName p "_start"
  | finish : DefinesName p "kair_end"
  | label {name : String} (h : .label name ∈ p.statements.map Located.value) :
      DefinesName p ("kair_L_" ++ name)
  | generated {taken : Nat} (h : taken < labelCount p.statements) :
      DefinesName p ("kair_G" ++ toString (taken % 2 ^ 32))

/--
The names of the symbols that a program defines. The symbols of its listing are a list, of which
this says which names there are, one rule for each kind of symbol.
-/
theorem mem_symbols_iff {p : Program} {name : String} :
    name ∈ p.symbols.map Symbol.name ↔ p.DefinesName name := by
  have hmem : ∀ {sym : Symbol}, sym ∈ p.symbols ↔
      sym ∈ fixedSymbols ∨ sym ∈ definitions 0 (p.statements.map Located.value) := fun {sym} =>
    p.symbols_perm.mem_iff.trans List.mem_append
  rw [List.mem_map]
  constructor
  · rintro ⟨sym, hsym, rfl⟩
    -- the four that every program has, and the two kinds that statements define
    rcases hmem.mp hsym with hfixed | hdefined
    · simp only [fixedSymbols, List.mem_cons, List.not_mem_nil, or_false] at hfixed
      rcases hfixed with rfl | rfl | rfl | rfl
      · exact .data
      · exact .const
      · exact .entry
      · exact .finish
    · rcases mem_definitions hdefined with ⟨name, hlabel, rfl⟩ | ⟨g, rfl, -, hlt⟩
      · exact .label hlabel
      · rw [← labelCount_eq_sum, Nat.zero_add] at hlt
        exact .generated hlt
  · intro h
    cases h with
    | data => exact ⟨.region .data, hmem.mpr (.inl (by decide)), rfl⟩
    | const => exact ⟨.region .const, hmem.mpr (.inl (by decide)), rfl⟩
    | entry => exact ⟨.entry, hmem.mpr (.inl (by decide)), rfl⟩
    | finish => exact ⟨.finish, hmem.mpr (.inl (by decide)), rfl⟩
    | @label name h => exact ⟨.label name, hmem.mpr (.inr (label_mem_definitions h)), rfl⟩
    | @generated taken h =>
        refine ⟨.numbered taken, hmem.mpr (.inr (numbered_mem_definitions (Nat.zero_le _) ?_)), rfl⟩
        rw [← labelCount_eq_sum, Nat.zero_add]
        exact h

/--
The names are reserved ones: they start alike, but for the entry. So only a procedure whose name
starts in that way can be defined by the program that calls it.
-/
theorem DefinesName.reserved {p : Program} {name : String} (h : p.DefinesName name) :
    name = "_start" ∨ "kair_".toList <+: name.toList := by
  cases h with
  | entry => exact .inl rfl
  | data => exact .inr (by decide)
  | const => exact .inr (by decide)
  | finish => exact .inr (by decide)
  | @label name _ =>
      rw [String.toList_append]
      exact .inr ⟨['L', '_'] ++ name.toList, rfl⟩
  | @generated taken _ =>
      rw [String.toList_append]
      exact .inr ⟨'G' :: (toString (taken % 2 ^ 32)).toList, rfl⟩

/-- What a program calls: what its statements do, and the procedure that ends the process. -/
theorem mem_callees_iff {p : Program} {name : String} : name ∈ p.callees.map Symbol.name ↔
    (∃ s ∈ p.statements, s.value.callee? = some name) ∨ name = exitProcedure := by
  have hcalls : ∀ s : Statement, s.calls.map Symbol.name = s.callee?.toList := by
    intro s
    rw [Statement.calls, List.map_map]
    exact List.map_id _
  simp only [callees, List.map_append, List.mem_append, List.map_flatMap, hcalls, List.mem_flatMap,
    List.mem_map, Option.mem_toList, List.map_cons, List.map_nil, List.mem_singleton]
  -- the calls of the statements, and the one of the exit
  refine or_congr ⟨?_, ?_⟩ Iff.rfl
  · rintro ⟨_, ⟨s, hs, rfl⟩, hname⟩
    exact ⟨s, hs, hname⟩
  · rintro ⟨s, hs, hname⟩
    exact ⟨s.value, ⟨s, hs, rfl⟩, hname⟩

end Program

/-! ## Texts -/

namespace Output

/-- The symbols in the text of a source are those of its program. -/
theorem shows_compile {src : Source} {t : Target} {text : String} (h : src.compile t = .ok text) :
    ∃ p, src.parse = .ok p ∧ Shows (lines text) (p.symbols.map Symbol.name)
      (p.targets.map Symbol.name) (p.callees.map Symbol.name) (declared t.dialect p.externals) := by
  obtain ⟨p, l, hparse, hlower, rfl⟩ := Source.compile_eq_ok_iff.mp h
  have hwords := Source.isWord_of_parse hparse
  refine ⟨p, hparse, ?_⟩
  rw [lines_text hwords hlower t.dialect t.annotate]
  exact shows_lines hwords hlower t.dialect t.annotate

/--
A procedure called by the name of the end of the program, which the text declares and defines.
-/
theorem compile_calls_finish :
    ∃ text, (Source.ofText "syscall kair_end").compile {} = .ok text ∧
      "kair_end" ∈ externals (lines text) ∧
      ¬ ∀ name ∈ calls (lines text), name ∉ labels (lines text) := by
  have hpassed : Lexical.passed 100 (Text.stream "syscall kair_end") =
      some [.keyword .syscall, .id "kair_end", .newline] := by decide +kernel
  have hparsed : ∃ p, (Source.ofText "syscall kair_end").parse = .ok p ∧
      p.data.map Located.value = [] ∧
      p.statements.map Located.value = [.syscall "kair_end" [] none] :=
    Source.parse_of_passed hpassed (by decide +kernel) (by decide +kernel)
  obtain ⟨p, hparse, -, hss⟩ := hparsed
  obtain ⟨text, hcompile⟩ := Source.exists_compile hparse {}
  obtain ⟨p', hparse', hshows⟩ := shows_compile hcompile
  cases hparse.symm.trans hparse'
  have hcall : "kair_end" ∈ p.callees.map Symbol.name := by
    rw [Program.callees, hss]
    decide
  -- the name is called, so it is declared, and it is that of the exit, so it is defined
  refine ⟨text, hcompile, ?_, fun hnever => ?_⟩
  · rw [hshows.externals]
    exact Program.mem_externals_iff_name.mpr hcall
  · refine hnever "kair_end" (hshows.calls ▸ hcall) ?_
    rw [hshows.labels]
    exact Program.mem_symbols_iff.mpr .finish

/--
**Which calls lead into the program.** In the text that a source is compiled to, a symbol is both
called and defined exactly if a statement calls a procedure by that name and the program defines the
name itself. So every call leaves the program as long as no statement calls a procedure by a
reserved name.
-/
theorem compile_call_defined_iff {src : Source} {t : Target} {text : String}
    (h : src.compile t = .ok text) : ∃ p, src.parse = .ok p ∧
      (∀ name, name ∈ calls (lines text) ∧ name ∈ labels (lines text) ↔
        (∃ s ∈ p.statements, s.value.callee? = some name) ∧ p.DefinesName name) ∧
      ((∀ s ∈ p.statements, ∀ name, s.value.callee? = some name →
          name ≠ "_start" ∧ ¬ "kair_".toList <+: name.toList) →
        ∀ name ∈ calls (lines text), name ∉ labels (lines text)) := by
  obtain ⟨p, hparse, hshows⟩ := shows_compile h
  -- the call at the exit is to a procedure with a name that no program defines
  have hexit : ¬ p.DefinesName exitProcedure := by
    intro hdefines
    exact absurd hdefines.reserved (by decide)
  have hiff : ∀ name, name ∈ calls (lines text) ∧ name ∈ labels (lines text) ↔
      (∃ s ∈ p.statements, s.value.callee? = some name) ∧ p.DefinesName name := by
    intro name
    rw [hshows.calls, hshows.labels, Program.mem_symbols_iff, Program.mem_callees_iff]
    constructor
    · rintro ⟨hcall | rfl, hdefines⟩
      · exact ⟨hcall, hdefines⟩
      · exact absurd hdefines hexit
    · rintro ⟨hcall, hdefines⟩
      exact ⟨.inl hcall, hdefines⟩
  refine ⟨p, hparse, hiff, fun hfree name hcall hlabel => ?_⟩
  obtain ⟨⟨s, hs, hname⟩, hdefines⟩ := (hiff name).mp ⟨hcall, hlabel⟩
  obtain ⟨hstart, hreserved⟩ := hfree s hs name hname
  rcases hdefines.reserved with heq | hstarts
  · exact hstart heq
  · exact hreserved hstarts

/-- A label that a call names, and a call that looks like a label but names none. -/
theorem compile_call_defined_label :
    let src := Source.ofText "#x\nsyscall kair_L_x\nsyscall kair_G0"
    let t : Target := ⟨.gas, .relative, true⟩
    ∃ text, src.compile t = .ok text ∧
      ("kair_L_x" ∈ calls (lines text) ∧ "kair_L_x" ∈ labels (lines text)) ∧
      ¬ ("kair_G0" ∈ calls (lines text) ∧ "kair_G0" ∈ labels (lines text)) := by
  intro src t
  have hpassed : Lexical.passed 100 (Text.stream "#x\nsyscall kair_L_x\nsyscall kair_G0") =
      some [.hash, .id "x", .newline, .keyword .syscall, .id "kair_L_x", .newline,
        .keyword .syscall, .id "kair_G0", .newline] := by decide +kernel
  have hparsed : ∃ p, src.parse = .ok p ∧ p.data.map Located.value = [] ∧
      p.statements.map Located.value =
        [.label "x", .syscall "kair_L_x" [] none, .syscall "kair_G0" [] none] :=
    Source.parse_of_passed hpassed (by decide +kernel) (by decide +kernel)
  obtain ⟨p, hparse, -, hss⟩ := hparsed
  obtain ⟨text, hcompile⟩ := Source.exists_compile hparse t
  obtain ⟨p', hparse', hiff, -⟩ := compile_call_defined_iff hcompile
  cases hparse.symm.trans hparse'
  -- no statement takes a number here, so the first of them is not defined
  have hdefined : p.DefinesName "kair_L_x" ∧ ¬ p.DefinesName "kair_G0" := by
    rw [← Program.mem_symbols_iff, ← Program.mem_symbols_iff, Program.symbols, hss]
    decide +kernel
  refine ⟨text, hcompile, (hiff _).mpr ⟨?_, hdefined.1⟩, fun hboth => ?_⟩
  · have hmem : Statement.syscall "kair_L_x" [] none ∈ p.statements.map Located.value := by
      rw [hss]
      decide
    obtain ⟨s, hs, heq⟩ := List.mem_map.mp hmem
    exact ⟨s, hs, by rw [heq]; rfl⟩
  · exact hdefined.2 ((hiff _).mp hboth).2

end Output

end Quadword
