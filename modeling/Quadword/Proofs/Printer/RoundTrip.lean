import Quadword.Proofs.Printer.Expression

/-!
# Printing undoes parsing

The statements of a program, printed one to a line after a first line that holds `pass`, are a text
that parses to these statements again. Without the first line, the parser could take statements of
the form of initial values for such. Literals are printed with a sign, and a negative one is not
written as a literal, so there must be none.

* **`StatementOf.readsAs`**: the text of a statement reads as the statement.
* **`Source.parse_print`**: the text of a program parses to the statements of the program.
-/

namespace Quadword

open Lexical Grammar

/-! ## Parts of statements -/

/-- No literal of the expression is negative. -/
def Expr.NonNegative (e : Expr) : Prop := ∀ v ∈ e.literals, 0 ≤ v.toInt

theorem Lexical.Passes.assign {rest last : List Char} {ts : List Token} (h : Passes rest ts last) :
    Passes (" = ".toList ++ rest) (.assign :: ts) last := by
  have hmem : ("=", .assign) ∈ Token.operators := by decide +kernel
  exact .space (.operator hmem (resumes_cons (by decide)) (.space h))

theorem Lexical.Passes.provided {rest last : List Char} {ts : List Token}
    (h : Passes rest ts last) : Passes (" if ".toList ++ rest) (.keyword .cond :: ts) last :=
  .space (.keyword .cond (ends_cons (by decide)) (.space h))

namespace Grammar

theorem Derives.readsAs_expr {layer : Layer} {ts : List Token} {e : Expr} (h : Derives layer ts e)
    (hliterals : e.NonNegative) : ReadsAs e.render (Derives .expr · e) :=
  (h.readsAs hliterals).mono fun _ => Derives.toExpr

/-- A value prints to a value: the number of its operations depends on the expression alone. -/
theorem ValueOf.readsAs {ts : List Token} {e : Expr} (h : ValueOf ts e)
    (hliterals : e.NonNegative) : ReadsAs e.render (ValueOf · e) :=
  (h.derives.readsAs_expr hliterals).mono fun _ hts => ⟨hts, h.operations⟩

theorem OperandOf.readsAs {ts : List Token} {e : Expr} (h : OperandOf ts e)
    (hliterals : e.NonNegative) : ReadsAs e.render (OperandOf · e) :=
  (h.derives.readsAs_expr hliterals).mono fun _ hts => ⟨hts, h.operations⟩

/-- A condition reads as it is, the comparison between two operands. -/
theorem ConditionOf.readsAs {ts : List Token} {c : Condition} (h : ConditionOf ts c)
    (hleft : c.left.NonNegative) (hright : c.right.NonNegative) :
    ReadsAs c.render (ConditionOf · c) := by
  cases h with
  | compare comparison hl hr =>
      obtain ⟨ls, hls, hpassl⟩ := hl.readsAs hleft
      obtain ⟨rs, hrs, hpassr⟩ := hr.readsAs hright
      refine ⟨_, .compare comparison hls hrs, fun rest hrest => ?_⟩
      simp only [Condition.render, String.toList_append, List.append_assoc]
      refine (hpassl _ (ends_cons (by decide))).trans (.space (.compare comparison ?_ (.space ?_)))
      · exact resumes_cons (by decide)
      · exact hpassr rest hrest

/-- A place that can be assigned to reads as it is, a slot or an access through an address. -/
theorem PlaceOf.readsAs {ts : List Token} {p : Place} (h : PlaceOf ts p)
    (hliterals : p.read.NonNegative) : ReadsAs p.render (PlaceOf · p) := by
  cases h with
  | slot hs hspace => exact hs.readsAs.mono fun _ hts => .slot hts hspace
  | indirect _ haddress hatom =>
      refine Expr.indirect_readsAs (haddress.readsAs_expr hliterals) fun ts hts => ?_
      exact .indirect (Width.name_spec _).1 hts hatom

/-- An argument starts with a comma. -/
theorem ends_renderArguments (as : List Expr) {rest : List Char} (hrest : Ends rest) :
    Ends ((renderArguments as).toList ++ rest) := by
  cases as with
  | nil => exact hrest
  | cons a as =>
      simp only [renderArguments, List.map_cons, String.toList_join, List.flatMap_cons,
        String.toList_append, List.append_assoc]
      exact ends_cons (by decide)

/--
The arguments of a call read as they are, one after the other. None of them is taken further than
its comma, or the end of the line.
-/
theorem ArgumentsOf.readsAs {ts : List Token} {as : List Expr} (h : ArgumentsOf ts as)
    (hliterals : ∀ a ∈ as, a.NonNegative) : ReadsAs (renderArguments as) (ArgumentsOf · as) := by
  induction h with
  | nil => exact ⟨[], .nil, fun rest _ => .refl rest⟩
  | @cons _ _ a as ha harg _ ih =>
      obtain ⟨hfirst, hmore⟩ := List.forall_mem_cons.mp hliterals
      obtain ⟨ts, hts, hpass⟩ := ha.readsAs_expr hfirst
      obtain ⟨us, hus, hpasses⟩ := ih hmore
      refine ⟨_, .cons hts harg hus, fun rest hrest => ?_⟩
      -- the text of the list is taken apart at its first comma
      have htext : (renderArguments (a :: as)).toList ++ rest =
          ',' :: ' ' :: (a.render.toList ++ ((renderArguments as).toList ++ rest)) := by
        simp [renderArguments, String.toList_join]
      rw [htext]
      refine .mark (by decide) (.space ((hpass _ ?_).trans (hpasses rest hrest)))
      exact ends_renderArguments as hrest

theorem DestinationOf.passes {t : Token} {d : Destination} {rest last : List Char} {ts : List Token}
    (h : DestinationOf t d) (hname : ∀ name, d = .label name → IsName name) (hrest : Ends rest)
    (hpasses : Passes rest ts last) : Passes (d.render.toList ++ rest) (t :: ts) last := by
  cases h with
  | label name => exact .name (hname name rfl) hrest hpasses
  | finish => exact .keyword .finish hrest hpasses

end Grammar

/-! ## Statements -/

/-- The expressions of a statement; a place counts as the expression that reads it. -/
def Statement.expressions : Statement → List Expr
  | assign target value => [target.read, value]
  | assignIf target value condition => [target.read, value, condition.left, condition.right]
  | select target condition yes no => [target.read, condition.left, condition.right, yes, no]
  | update target _ value => [target.read, value]
  | gotoIf _ condition => [condition.left, condition.right]
  | setSp _ value => [value]
  | syscall _ arguments output => output.toList.map Place.read ++ arguments
  | label _ | goto _ | pass _ | align _ => []

/-- The literals of a statement. -/
def Statement.literals (s : Statement) : List Word := s.expressions.flatMap Expr.literals

/--
The text of a statement without negative literals reads as the statement, whatever follows on the
next line. Sugar is not printed, so the derivation is another one.
-/
theorem Grammar.StatementOf.readsAs {ts : List Token} {s : Statement} (h : StatementOf ts s)
    (hliterals : ∀ e ∈ s.expressions, e.NonNegative) (hnames : ∀ name ∈ s.names, IsName name) :
    ReadsAs s.render (StatementOf · s) := by
  -- one case for each rule, whose text is passed from left to right
  cases h with (simp only [Statement.expressions, List.forall_mem_cons, List.forall_mem_append]
    at hliterals)
  | label name =>
      refine ⟨_, .label name, fun rest hrest => ?_⟩
      rw [Statement.render, String.toList_append, List.append_assoc]
      exact .mark (by decide) (.name (hnames name List.mem_cons_self) hrest (.refl rest))
  | goto hd =>
      refine ⟨_, .goto hd, fun rest hrest => ?_⟩
      rw [Statement.render, String.toList_append, List.append_assoc]
      refine .keyword .goto (ends_cons (by decide)) (.space (hd.passes ?_ hrest (.refl rest)))
      rintro name rfl
      exact hnames name List.mem_cons_self
  | gotoIf hd hc =>
      obtain ⟨hleft, hright, -⟩ := hliterals
      obtain ⟨us, hus, hcondition⟩ := hc.readsAs hleft hright
      refine ⟨_, .gotoIf hd hus, fun rest hrest => ?_⟩
      simp only [Statement.render, String.toList_append, List.append_assoc]
      refine .keyword .goto (ends_cons (by decide)) (.space (hd.passes ?_ ?_ (.provided ?_)))
      · rintro name rfl
        exact hnames name List.mem_cons_self
      · exact ends_cons (by decide)
      · exact hcondition rest hrest
  | pass => exact ⟨_, .pass, fun rest hrest => .keyword .pass hrest (.refl rest)⟩
  | passTimes n =>
      rw [Statement.render]
      split
      · next hone =>
        exact ⟨_, hone ▸ .pass, fun rest hrest => .keyword .pass hrest (.refl rest)⟩
      · refine ⟨_, .passTimes n, fun rest hrest => ?_⟩
        rw [String.toList_append, List.append_assoc]
        refine .keyword .pass (ends_cons (by decide)) (.space (.binary .mul ?_ (.space ?_)))
        · exact resumes_cons (by decide)
        · exact .number n hrest (.refl rest)
  | @align n hn =>
      refine ⟨_, .align hn, fun rest hrest => ?_⟩
      rw [Statement.render, String.toList_append, List.append_assoc]
      exact .keyword .align (ends_cons (by decide)) (.space (.number n hrest (.refl rest)))
  | @syscall _ as name ha =>
      obtain ⟨us, hus, harguments⟩ := ha.readsAs hliterals.2
      refine ⟨_, .syscall name hus, fun rest hrest => ?_⟩
      simp only [Statement.render, String.toList_append, List.append_assoc]
      refine .keyword .syscall (ends_cons (by decide)) (.space ?_)
      exact .name (hnames name List.mem_cons_self) (ends_renderArguments as hrest)
        (harguments rest hrest)
  | setSp hv =>
      obtain ⟨us, hus, hvalue⟩ := hv.readsAs hliterals.1
      refine ⟨_, .setSp hus, fun rest hrest => ?_⟩
      rw [Statement.render, String.toList_append, List.append_assoc]
      exact .keyword .sp (ends_cons (by decide)) (.assign (hvalue rest hrest))
  | updateSp op hv =>
      obtain ⟨us, hus, hvalue⟩ := hv.readsAs hliterals.1
      refine ⟨_, .updateSp op hus, fun rest hrest => ?_⟩
      simp only [Statement.render, String.toList_append, List.append_assoc]
      refine .keyword .sp (ends_cons (by decide)) (.space (.compound op ?_ (.space ?_)))
      · exact resumes_cons (by decide)
      · exact hvalue rest hrest
  | @syscallTo _ _ _ as name hp ha =>
      obtain ⟨htarget, harguments⟩ := hliterals
      obtain ⟨ps, hps, hplace⟩ := hp.readsAs (htarget _ List.mem_cons_self)
      obtain ⟨us, hus, harguments⟩ := ha.readsAs harguments
      refine ⟨_, .syscallTo name hps hus, fun rest hrest => ?_⟩
      simp only [Statement.render, String.toList_append, List.append_assoc]
      refine (hplace _ (ends_cons (by decide))).trans (.assign ?_)
      refine .keyword .syscall (ends_cons (by decide)) (.space ?_)
      exact .name (hnames name List.mem_cons_self) (ends_renderArguments as hrest)
        (harguments rest hrest)
  | select hp hc hy hn =>
      obtain ⟨htarget, hleft, hright, hyes, hno, -⟩ := hliterals
      obtain ⟨ps, hps, hplace⟩ := hp.readsAs htarget
      obtain ⟨cs, hcs, hcondition⟩ := hc.readsAs hleft hright
      obtain ⟨ys, hys, hpassy⟩ := hy.readsAs hyes
      obtain ⟨ns, hns, hpassn⟩ := hn.readsAs hno
      refine ⟨_, .select hps hcs hys hns, fun rest hrest => ?_⟩
      simp only [Statement.render, String.toList_append, List.append_assoc]
      refine (hplace _ (ends_cons (by decide))).trans (.assign (.mark (by decide) ?_))
      refine (hcondition _ (ends_cons (by decide))).trans (.mark (by decide) (.space ?_))
      refine .mark (by decide) (.space ((hpassy _ (ends_cons (by decide))).trans (.space ?_)))
      exact .mark (by decide) (.space (hpassn rest hrest))
  | assignIf hp hv hc =>
      obtain ⟨htarget, hvalue, hleft, hright, -⟩ := hliterals
      obtain ⟨ps, hps, hplace⟩ := hp.readsAs htarget
      obtain ⟨vs, hvs, hvalue⟩ := hv.readsAs hvalue
      obtain ⟨cs, hcs, hcondition⟩ := hc.readsAs hleft hright
      refine ⟨_, .assignIf hps hvs hcs, fun rest hrest => ?_⟩
      simp only [Statement.render, String.toList_append, List.append_assoc]
      refine (hplace _ (ends_cons (by decide))).trans (.assign ?_)
      exact (hvalue _ (ends_cons (by decide))).trans (.provided (hcondition rest hrest))
  | assign hp hv =>
      obtain ⟨htarget, hvalue, -⟩ := hliterals
      obtain ⟨ps, hps, hplace⟩ := hp.readsAs htarget
      obtain ⟨vs, hvs, hvalue⟩ := hv.readsAs hvalue
      refine ⟨_, .assign hps hvs, fun rest hrest => ?_⟩
      simp only [Statement.render, String.toList_append, List.append_assoc]
      exact (hplace _ (ends_cons (by decide))).trans (.assign (hvalue rest hrest))
  | update op hp hv =>
      obtain ⟨htarget, hvalue, -⟩ := hliterals
      obtain ⟨ps, hps, hplace⟩ := hp.readsAs htarget
      obtain ⟨vs, hvs, hvalue⟩ := hv.readsAs hvalue
      refine ⟨_, .update op hps hvs, fun rest hrest => ?_⟩
      simp only [Statement.render, String.toList_append, List.append_assoc]
      refine (hplace _ (ends_cons (by decide))).trans (.space (.compound op ?_ (.space ?_)))
      · exact resumes_cons (by decide)
      · exact hvalue rest hrest

/-! ## Programs -/

/-- The text with each statement on a line of its own. -/
def renderLines (ss : List Statement) : String := String.join (ss.map fun s => s.render ++ "\n")

theorem toList_renderLines_cons (s : Statement) (ss : List Statement) :
    (renderLines (s :: ss)).toList = s.render.toList ++ '\n' :: (renderLines ss).toList := by
  simp [renderLines, String.toList_join]

/--
Printed statements are broken into tokens that derive the statements, one line for each of them.
-/
theorem renderLines_passes {ss : List Statement}
    (h : ∀ s ∈ ss, ReadsAs s.render (StatementOf · s)) :
    ∃ ts, StatementsOf (ts ++ [.eof]) ss ∧ Passes (renderLines ss).toList ts [] := by
  induction ss with
  | nil => exact ⟨[], .done, .refl []⟩
  | cons s ss ih =>
      obtain ⟨hfirst, hmore⟩ := List.forall_mem_cons.mp h
      obtain ⟨us, hus, hpass⟩ := hfirst
      obtain ⟨ts, hts, hpasses⟩ := ih hmore
      -- each statement ends its line, and the line break is a token of the grammar
      refine ⟨us ++ .newline :: ts, ?_, ?_⟩
      · rw [List.append_assoc]
        exact .line hus (.inl rfl) (.blank hts)
      · rw [toList_renderLines_cons]
        exact (hpass _ (ends_cons (by decide))).trans (.lineBreak hpasses)

/--
No initial value starts with `pass`. So the line with it keeps the statements behind it apart from
the data, even those that look like initial values.
-/
theorem not_initialRun_pass {ts rest : List Token} {i : Initializer} :
    ¬ InitialRun (.keyword .pass :: ts) [i] rest := by
  -- a slot starts with a bracket or with the name of a space
  have hslot : ∀ {ls more : List Token} {s : Slot}, SlotOf ls s →
      ls ++ more ≠ .keyword .pass :: ts := by
    intro ls more s hs heq
    cases hs <;> cases heq
  intro h
  generalize hus : Token.keyword .pass :: ts = us at h
  generalize his : [i] = is at h
  cases h with
  | nil => cases his
  | blank => cases hus
  | line hi =>
      obtain ⟨hs, -⟩ := hi
      rw [List.append_assoc] at hus
      exact hslot hs hus.symm

theorem labelsResolve_pass {ss : List Statement} (h : LabelsResolve ss) :
    LabelsResolve (.pass 1 :: ss) := by
  refine ⟨h.unique, fun s hs name hname => ?_⟩
  rcases List.mem_cons.mp hs with rfl | hs
  · cases hname
  · exact List.mem_cons_of_mem _ (h.defined s hs name hname)

/-- A text without carriage returns that ends with a line break is read as it is. -/
theorem Text.stream_eq {text : String} (hreturn : '\r' ∉ text.toList)
    (hlast : text.toList.getLast? = some '\n') : Text.stream text = text.toList := by
  have hunify : ∀ cs : List Char, '\r' ∉ cs → Text.unifyBreaks cs = cs := by
    intro cs hcs
    fun_induction Text.unifyBreaks cs with
    | case1 => rfl
    | case2 cs _ => exact absurd List.mem_cons_self hcs
    | case3 c cs _ ih => rw [ih fun hmem => hcs (List.mem_cons_of_mem _ hmem)]
  rw [Text.stream, hunify _ hreturn, Text.closeLine, if_pos (.inr hlast)]

/-- Printed lines have no carriage return in them. -/
theorem not_mem_renderLines {ss : List Statement} (h : ∀ s ∈ ss, Text.Plain s.render) :
    '\r' ∉ (renderLines ss).toList := by
  induction ss with
  | nil => decide
  | cons s ss ih =>
      obtain ⟨hfirst, hmore⟩ := List.forall_mem_cons.mp h
      rw [toList_renderLines_cons, List.mem_append, List.mem_cons]
      rintro (hmem | heq | hmem)
      · exact hfirst.not_mem (by decide) hmem
      · cases heq
      · exact ih hmore hmem

/--
Printed lines end with a line break. Together with the lemma before, they are read exactly as they
are printed.
-/
theorem getLast?_renderLines (s : Statement) (ss : List Statement) :
    (renderLines (s :: ss)).toList.getLast? = some '\n' := by
  induction ss generalizing s with
  | nil => simp [renderLines]
  | cons s' ss ih =>
      rw [toList_renderLines_cons, List.getLast?_append, List.getLast?_cons, ih s']
      rfl

/--
Printed statements, after a line that holds `pass`, parse to what was printed. Without that line,
assignments of numbers to a region would be read as data.
-/
theorem Source.parse_renderLines {ss : List Statement}
    (hreads : ∀ s ∈ ss, ReadsAs s.render (StatementOf · s))
    (hplain : ∀ s ∈ ss, Text.Plain s.render) (hlabels : LabelsResolve ss) :
    ∃ p, (ofText (renderLines (.pass 1 :: ss))).parse = .ok p ∧ p.data.map Located.value = [] ∧
      p.statements.map Located.value = .pass 1 :: ss := by
  have hplain : ∀ s ∈ .pass 1 :: ss, Text.Plain s.render :=
    List.forall_mem_cons.mpr ⟨by decide, hplain⟩
  have hstream : Text.stream (renderLines (.pass 1 :: ss)) =
      (renderLines (.pass 1 :: ss)).toList :=
    Text.stream_eq (not_mem_renderLines hplain) (getLast?_renderLines _ _)
  obtain ⟨ts, hts, hpasses⟩ := renderLines_passes hreads
  have hall : Passes (Text.stream (renderLines (.pass 1 :: ss)))
      (.keyword .pass :: .newline :: ts) [] := by
    rw [hstream, toList_renderLines_cons]
    exact .keyword .pass (ends_cons (by decide)) (.lineBreak hpasses)
  -- the statements after the line with `pass`, which no initial values come before
  have hline : StatementsOf ([.keyword .pass] ++ .newline :: (ts ++ [.eof])) (.pass 1 :: ss) :=
    .line .pass (.inl rfl) (.blank hts)
  exact parse_of_passes hall
    ⟨⟨_, .nil _, hline, fun _ _ => not_initialRun_pass⟩, .nil, labelsResolve_pass hlabels⟩

/--
**Printing undoes parsing.** The statements of a program without negative literals, printed one to a
line after a first line that holds `pass`, parse to just these statements, without initial values.
-/
theorem Source.parse_print {src : Source} {p : Program} (h : src.parse = .ok p)
    (hliterals : ∀ s ∈ p.statements, ∀ v ∈ s.value.literals, 0 ≤ v.toInt) :
    ∃ p', (ofText ("pass\n" ++ renderLines (p.statements.map Located.value))).parse = .ok p' ∧
      p'.data = [] ∧
      p'.statements.map Located.value = .pass 1 :: p.statements.map Located.value := by
  -- each statement has been derived before, so its text reads as it
  have hreads : ∀ s ∈ p.statements.map Located.value, ReadsAs s.render (StatementOf · s) := by
    intro s hs
    obtain ⟨⟨ts, hts⟩, hnames⟩ := statementOf_of_parse h hs
    obtain ⟨s', hs', rfl⟩ := List.mem_map.mp hs
    refine hts.readsAs (fun e he v hv => hliterals s' hs' v ?_) hnames
    exact List.mem_flatMap.mpr ⟨e, he, hv⟩
  have hplain : ∀ s ∈ p.statements.map Located.value, Text.Plain s.render := fun s hs =>
    Statement.plain_render fun name hname => ((statementOf_of_parse h hs).2 name hname).word.plain
  have htext : "pass\n" ++ renderLines (p.statements.map Located.value) =
      renderLines (.pass 1 :: p.statements.map Located.value) := by
    simp [renderLines, Statement.render]
  obtain ⟨p', hp', hdata, hss⟩ := parse_renderLines hreads hplain (labelsResolve_of_parse h)
  exact ⟨p', by rw [htext, hp'], List.map_eq_nil_iff.mp hdata, hss⟩

/-- An initial value, a comment, a slot in its short form, nested signs and a jump. -/
theorem Source.parse_print_loop :
    let text := "d[0] = -2\n#top\ns[0x8]=-(-sp + 3) // back\r\ngoto top if 1 != ~2"
    let ss : List Statement :=
      [.label "top",
        .assign (.slot ⟨.stack, 8⟩)
          (.unary .neg (.binary .add (.unary .neg .sp) (.number 3 false))),
        .gotoIf (.label "top") ⟨.number 1 false, .ne, .unary .not (.number 2 false)⟩]
    let printed := "pass\n#top\n[sp+8] = -((-sp) + 3)\ngoto top if 1 != ~2\n"
    ∃ p p', (ofText text).parse = .ok p ∧ p.data.map Located.value = [⟨.data, 0, -2⟩] ∧
      p.statements.map Located.value = ss ∧
      (ofText printed).parse = .ok p' ∧ p'.data = [] ∧
      p'.statements.map Located.value = .pass 1 :: ss := by
  intro text ss printed
  have hpassed : passed 100 (Text.stream text) = some
      [.id "d", .openSquare, .number 0, .closeSquare, .assign, .binary .sub, .number 2, .newline,
        .hash, .id "top", .newline, .id "s", .openSquare, .number 8, .closeSquare, .assign,
        .binary .sub, .openParen, .binary .sub, .keyword .sp, .binary .add, .number 3, .closeParen,
        .newline, .keyword .goto, .id "top", .keyword .cond, .number 1, .compare .ne, .tilde,
        .number 2, .newline] := by decide +kernel
  have hparsed : ∃ p, (ofText text).parse = .ok p ∧
      p.data.map Located.value = [⟨.data, 0, -2⟩] ∧ p.statements.map Located.value = ss :=
    parse_of_passed hpassed (by decide +kernel) (by decide +kernel)
  obtain ⟨p, hp, hdata, hss⟩ := hparsed
  -- the literals are not negative, since signs are operators here
  have hall : ∀ s ∈ ss, (s.literals.all fun v => 0 ≤ v.toInt) = true := by decide +kernel
  have hliterals : ∀ s ∈ p.statements, ∀ v ∈ s.value.literals, 0 ≤ v.toInt := by
    intro s hs v hv
    have hmem : s.value ∈ ss := hss ▸ List.mem_map_of_mem hs
    exact of_decide_eq_true (List.all_eq_true.mp (hall s.value hmem) v hv)
  obtain ⟨p', hp', hdata', hss'⟩ := parse_print hp hliterals
  have hprinted : "pass\n" ++ renderLines ss = printed := by decide +kernel
  rw [hss] at hp' hss'
  rw [hprinted] at hp'
  exact ⟨p, p', hp, hdata, hss, hp', hdata', hss'⟩

end Quadword
