import Quadword.Compile
import Quadword.Proofs.Grammar.Program
import Quadword.Proofs.Lowering.Domain
import Quadword.Proofs.Token.Agreement

/-!
# Every program that can be written can be lowered

The grammar and the lowering limit the shape of a statement in different terms. The grammar counts
operators, looking through signs but not into addresses; the lowering asks which register each
operand is loaded into. The one implies the other, construct by construct.

* **`derives_fits`** and **`derives_fits_rax`**: without an operator an expression fits every
  register, and with one it fits `rax`.
* **`statementOf_fits`**: every statement of the grammar fits.
* **`Program.ofTokens_lower_isOk`**: every program that is read can be lowered.
-/

namespace Quadword

namespace Grammar

/-! ## Expressions and places -/

theorem Atom.operations {e : Expr} (h : Atom e) : e.operations = 0 := by
  cases h <;> rfl

theorem Argument.operations {e : Expr} (h : Argument e) : e.operations = 0 := by
  cases h with
  | atom h => exact h.operations
  | indirect width address => rfl

theorem slotOf_fits {ts : List Token} {s : Slot} (h : SlotOf ts s) : s.fits = true :=
  decide_eq_true (Parser.slotOf_offset_le h)

/--
Without a binary operator, an expression fits every register, since only an operator needs a
particular one.
-/
theorem derives_fits {layer : Layer} {ts : List Token} {e : Expr} (h : Derives layer ts e)
    (hops : e.operations = 0) (reg : Reg) : e.fits reg = true := by
  induction h generalizing reg with
  | single _ ih => exact ih hops reg
  | binary op _ _ _ _ =>
      rw [Expr.operations] at hops
      omega
  | neg _ ih => exact ih hops reg
  | not _ ih => exact ih hops reg
  | plain _ ih => exact ih hops reg
  | slot hslot => exact slotOf_fits hslot
  -- in an address the grammar has no operators
  | indirect _ _ hatom ih => exact ih hatom.operations .r11
  | paren _ ih => exact ih hops reg
  | _ => rfl

/--
With at most one binary operator, an expression fits `rax`. The operator may stand under a sign, and
both of its operands are without one.
-/
theorem derives_fits_rax {layer : Layer} {ts : List Token} {e : Expr} (h : Derives layer ts e)
    (hops : e.operations ≤ 1) : e.fits .rax = true := by
  induction h with
  | single _ ih => exact ih hops
  | binary op hl hr _ _ =>
      -- the operator is the only one, so neither side has another
      rw [Expr.operations] at hops
      have hleft := derives_fits hl (by omega) .rax
      have hright := derives_fits hr (by omega) .rcx
      simp [Expr.fits, hleft, hright]
  | neg _ ih => exact ih hops
  | not _ ih => exact ih hops
  | plain _ ih => exact ih hops
  | slot hslot => exact slotOf_fits hslot
  | indirect _ haddress hatom _ => exact derives_fits haddress hatom.operations .r11
  | paren _ ih => exact ih hops
  | _ => rfl

theorem ValueOf.fits {ts : List Token} {e : Expr} (h : ValueOf ts e) : e.fits .rax = true :=
  derives_fits_rax h.derives h.operations

theorem OperandOf.fits {ts : List Token} {e : Expr} (h : OperandOf ts e) (reg : Reg) :
    e.fits reg = true :=
  derives_fits h.derives h.operations reg

theorem ConditionOf.fits {ts : List Token} {c : Condition} (h : ConditionOf ts c) :
    c.fits = true := by
  cases h with
  | compare c hl hr => rw [Condition.fits, hl.fits, hr.fits, Bool.true_and]

/-- A place that the grammar derives is not among the constants and can be stored to. -/
theorem PlaceOf.fits {ts : List Token} {p : Place} (h : PlaceOf ts p) : p.fits = true := by
  cases h with
  | slot hslot hspace => simp [Place.fits, hspace, slotOf_fits hslot]
  | indirect _ haddress hatom => exact derives_fits haddress hatom.operations .r11

/-- What a place holds can be loaded, since neither a slot nor an access has an operator. -/
theorem PlaceOf.read_fits {ts : List Token} {p : Place} (h : PlaceOf ts p) :
    p.read.fits .rax = true := by
  cases h with
  | slot hslot _ => exact slotOf_fits hslot
  | indirect _ haddress hatom => exact derives_fits haddress hatom.operations .r11

/-! ## Statements -/

/-- Each argument of a call fits any register. -/
theorem ArgumentsOf.fits {ts : List Token} {as : List Expr} (h : ArgumentsOf ts as) :
    ∀ a ∈ as, ∀ reg, a.fits reg = true := by
  induction h with
  | nil => simp
  | cons hderives harg _ ih =>
      intro a ha reg
      rcases List.mem_cons.mp ha with rfl | hmore
      · exact derives_fits hderives harg.operations reg
      · exact ih a hmore reg

/-- So the arguments of a call fit together, in registers or on the stack. -/
theorem ArgumentsOf.argumentsFit {ts : List Token} {as : List Expr} (h : ArgumentsOf ts as) :
    argumentsFit as = true := by
  unfold Quadword.argumentsFit
  rw [Bool.and_eq_true, List.all_eq_true, List.all_eq_true]
  refine ⟨fun a ha => ?_, fun a ha => ?_⟩
  · exact h.fits a.1 (List.of_mem_zip ha).1 a.2
  · exact h.fits a (List.mem_of_mem_drop ha) .rax

/-- Every statement of the grammar fits. So what the parser accepts is lowered without an error. -/
theorem statementOf_fits {ts : List Token} {s : Statement} (h : StatementOf ts s) :
    s.fits = true := by
  -- each rule asks of its parts what lowering needs of them
  cases h with
  | label name => rfl
  | goto _ => rfl
  | gotoIf _ hc => exact hc.fits
  | pass => rfl
  | passTimes n => rfl
  | align _ => rfl
  | syscall name ha => simp [Statement.fits, ha.argumentsFit]
  | setSp hv => exact hv.fits
  | updateSp op hv => exact hv.fits .rcx
  | syscallTo name hp ha => simp [Statement.fits, ha.argumentsFit, hp.fits]
  | select hp hc hy hn => simp [Statement.fits, hp.fits, hc.fits, hy.fits, hn.fits]
  | assignIf hp hv hc => simp [Statement.fits, hp.fits, hv.fits, hc.fits]
  | assign hp hv => simp [Statement.fits, hp.fits, hv.fits]
  | update op hp hv => simp [Statement.fits, hp.fits, hp.read_fits, hv.fits]

/-- All statements of a program fit, as each of them does. -/
theorem statementsOf_fits {ts : List Token} {ss : List Statement} (h : StatementsOf ts ss) :
    ∀ s ∈ ss, s.fits = true := by
  induction h with
  | done => simp
  | blank _ ih => exact ih
  | line hs _ _ ih =>
      intro s hmem
      rcases List.mem_cons.mp hmem with rfl | hmore
      · exact statementOf_fits hs
      · exact ih s hmore

/-- The offsets of initial values are those of slots, so they fit and their ends do not saturate. -/
theorem initialRun_offset_le {ts rest : List Token} {is : List Initializer}
    (h : InitialRun ts is rest) : ∀ i ∈ is, i.offset.toNat ≤ Slot.maxOffset := by
  induction h with
  | nil ts => simp
  | blank _ ih => exact ih
  | line hi _ _ ih =>
      intro i hmem
      rcases List.mem_cons.mp hmem with rfl | hmore
      · exact Parser.initializerOf_offset_le hi
      · exact ih i hmore

end Grammar

open Grammar

/-! ## Programs -/

namespace Program

/-- Every program that is read can be lowered. -/
theorem ofTokens_lower_isOk {tokens : List (Located Token)} {start : Span} {p : Program}
    (h : ofTokens tokens start = .ok p) (mode : Addressing) : (p.lower mode).isOk = true := by
  obtain ⟨⟨rest, us, hrun, ⟨ts, more, -, -, hts⟩, -⟩, hapart, -⟩ := ofTokens_sound h
  refine (lower_isOk_iff p mode).mpr ⟨fun r => ?_, fun s hs => ?_⟩
  · have hle := initialRun_offset_le hrun
    have hpairwise : (p.data.map Located.value).Pairwise fun i j => i.overlaps j = false :=
      hapart.imp_of_mem fun hi hj hij =>
        (Parser.overlaps_eq_false_iff (hle _ hi) (hle _ hj)).mpr hij
    exact hpairwise.sublist List.filter_sublist
  · exact statementsOf_fits hts s.value (List.mem_map_of_mem hs)

theorem exists_assemble {tokens : List (Located Token)} {start : Span} {p : Program}
    (h : ofTokens tokens start = .ok p) (t : Target) : ∃ text, p.assemble t = .ok text := by
  obtain ⟨listing, hlower⟩ := isOk_iff.mp (ofTokens_lower_isOk h t.addressing)
  exact ⟨_, by rw [assemble, hlower]; rfl⟩

end Program

/-! ## Sources -/

namespace Source

/-- A source that is parsed has been broken into tokens, and they are those of the program. -/
theorem parse_eq_ok {src : Source} {p : Program} (h : src.parse = .ok p) :
    ∃ tokens, src.scan.result = .ok tokens ∧ Program.ofTokens tokens .first = .ok p := by
  unfold parse at h
  split at h
  · cases h
  · rename_i tokens hscan
    split at h
    · cases h
    · rename_i p' hparse
      cases h
      exact ⟨tokens, hscan, hparse⟩

/--
A source is never refused for what its program would become. So a failure is one of the lexer or of
the parser.
-/
theorem parse_eq_error {src : Source} {f : Failure} (h : src.parse = .error f) :
    f.diagnostic.kind ≠ "Code generation error" := by
  have hlexical : "Lexical error" ≠ "Code generation error" := by decide
  have hgrammatical : "Syntax error" ≠ "Code generation error" := by decide
  unfold parse at h
  split at h
  · cases h
    exact hlexical
  · split at h
    · cases h
      exact hgrammatical
    · cases h

end Source

/--
**What can be read can be lowered.** A program that the parser returns, for whatever tokens, has an
assembly text for every target, so compiling a source never fails for want of one.
-/
theorem assemble_total :
    (∀ (tokens : List (Located Token)) (start : Span) (p : Program),
      Program.ofTokens tokens start = .ok p → ∀ t : Target, ∃ text, p.assemble t = .ok text) ∧
    ∀ (src : Source) (t : Target) (r : Report), src.compile t = .error r →
      r.diagnostic.kind ≠ "Code generation error" := by
  have htotal : ∀ (tokens : List (Located Token)) (start : Span) (p : Program),
      Program.ofTokens tokens start = .ok p → ∀ t : Target, ∃ text, p.assemble t = .ok text := by
    intro tokens start p hp t
    exact Program.exists_assemble hp t
  refine ⟨htotal, fun src t r hr => ?_⟩
  unfold Source.compile Source.assemble at hr
  cases hparse : src.parse with
  | error f =>
      rw [hparse] at hr
      cases hr
      exact Source.parse_eq_error hparse
  | ok p =>
      -- the text is there, so there is nothing to report
      obtain ⟨tokens, -, htokens⟩ := Source.parse_eq_ok hparse
      obtain ⟨text, htext⟩ := htotal tokens .first p htokens t
      rw [hparse] at hr
      simp only [bind, Except.bind, htext] at hr
      cases hr

/-- A negated quotient of what stands at the stack pointer, and a source that cannot be read. -/
theorem assemble_total_quotient :
    let ts : List Token :=
      [.keyword .sp, .assign, .binary .sub, .openParen, .id "m8", .openSquare, .openParen,
        .keyword .sp, .closeParen, .closeSquare, .binary (.div .signed), .number 3, .closeParen,
        .eof]
    (∃ p text, Program.ofTokens (Program.unplaced ts) .first = .ok p ∧
        p.assemble ⟨.gas, .relative, true⟩ = .ok text) ∧
      ∃ r, Source.unreadable.compile {} = .error r ∧
        r.diagnostic.kind ≠ "Code generation error" := by
  intro ts
  have hp : ∃ p, Program.ofTokens (Program.unplaced ts) .first = .ok p := ⟨_, rfl⟩
  have hr : ∃ r, Source.unreadable.compile {} = .error r := by
    -- the first read fails, and the scanner passes the fault on
    have hnext : (Lexer.ofSource Source.unreadable).next? =
        some (.error ⟨.unreadable, .first⟩, _) :=
      congrArg Lexer.settle (Lexer.lex_done (Lexer.turn_undecodable rfl))
    unfold Source.compile Source.assemble Source.parse Source.scan
    rw [Lexer.scan_error hnext]
    exact ⟨_, rfl⟩
  obtain ⟨p, hp⟩ := hp
  obtain ⟨r, hr⟩ := hr
  obtain ⟨text, htext⟩ := assemble_total.1 _ _ p hp ⟨.gas, .relative, true⟩
  exact ⟨⟨p, text, hp, htext⟩, r, hr, assemble_total.2 _ _ r hr⟩

end Quadword
