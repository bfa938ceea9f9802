import Quadword.Program.Labels
import Quadword.Program.Shape
import Quadword.Token.Basic

/-!
# The grammar of programs

What a list of tokens writes, said without a parser: each relation below pairs the tokens of a
construct with the tree that they stand for, one constructor for each production. The rules that
limit the shape of a construct are premises of its production; the rules about the program as a
whole (`ProgramOf`) stand beside the production for programs.

* **`Derives`** relates tokens to expressions, in the three layers of the expression grammar.
* **`StatementOf`** and **`InitializerOf`** relate one line to a statement or an initial value.
* **`InitialRun`** splits off initial values from the front of a program, and **`StatementsOf`**
  reads what is left of it.

Positions play no part here: the relations are about tokens, not about where they stand.
-/

namespace Quadword.Grammar

/-! ## Expressions -/

/-- The keywords that name a base inside brackets. -/
inductive SpaceWord : Keyword → Space → Prop where
  | sp : SpaceWord .sp .stack
  | data : SpaceWord .data (.region .data)
  | const : SpaceWord .const (.region .const)

/-- The letters that shorten a reference in brackets. -/
inductive SpaceLetter : String → Space → Prop where
  | s : SpaceLetter "s" .stack
  | d : SpaceLetter "d" (.region .data)
  | c : SpaceLetter "c" (.region .const)

/-- The names of the accesses through an address. -/
inductive WidthName : String → Width → Prop where
  | m8 : WidthName "m8" .byte
  | m16 : WidthName "m16" .word
  | m32 : WidthName "m32" .dword
  | m64 : WidthName "m64" .qword

/-- `[base]`, `[base+offset]`, or a letter and the offset in brackets. -/
inductive SlotOf : List Token → Slot → Prop where
  | bare {k : Keyword} {space : Space} (hword : SpaceWord k space) :
      SlotOf [.openSquare, .keyword k, .closeSquare] ⟨space, 0⟩
  | offset {k : Keyword} {space : Space} {n : Word} (hword : SpaceWord k space)
      (hn : n.toNat ≤ Slot.maxOffset) :
      SlotOf [.openSquare, .keyword k, .binary .add, .number n, .closeSquare] ⟨space, n⟩
  | letter {name : String} {space : Space} {n : Word} (hletter : SpaceLetter name space)
      (hn : n.toNat ≤ Slot.maxOffset) :
      SlotOf [.id name, .openSquare, .number n, .closeSquare] ⟨space, n⟩

/-- Expressions that neither compute anything nor go through an address. -/
inductive Atom : Expr → Prop where
  | number (value : Word) (wide : Bool) : Atom (.number value wide)
  | sp : Atom .sp
  | base (r : Region) : Atom (.base r)
  | slot (s : Slot) : Atom (.slot s)

/-- What an argument of a call can be: an atom, or an access through an address. -/
inductive Argument : Expr → Prop where
  | atom {e : Expr} (h : Atom e) : Argument e
  | indirect (width : Width) (address : Expr) : Argument (.indirect width address)

/-- The layers of the grammar of expressions. -/
inductive Layer where
  /-- Operands joined by binary operators. -/
  | expr
  /-- An operand after any number of unary operators. -/
  | unary
  /-- An operand without an operator of its own. -/
  | primary

/--
The tokens of an expression. Binary operators have no precedence and group to the left, so the left
operand of one is an expression and the right one is not. Parentheses leave no trace in the tree.
-/
inductive Derives : Layer → List Token → Expr → Prop where
  | single {ts : List Token} {e : Expr} (h : Derives .unary ts e) : Derives .expr ts e
  | binary {ls rs : List Token} {left right : Expr} (op : BinOp) (hl : Derives .expr ls left)
      (hr : Derives .unary rs right) :
      Derives .expr (ls ++ .binary op :: rs) (.binary op left right)
  | neg {ts : List Token} {e : Expr} (h : Derives .unary ts e) :
      Derives .unary (.binary .sub :: ts) (.unary .neg e)
  | not {ts : List Token} {e : Expr} (h : Derives .unary ts e) :
      Derives .unary (.tilde :: ts) (.unary .not e)
  | plain {ts : List Token} {e : Expr} (h : Derives .primary ts e) : Derives .unary ts e
  | number (n : Word) : Derives .primary [.number n] (.number n false)
  | wide (n : Word) : Derives .primary [.number n, .wide] (.number n true)
  | sp : Derives .primary [.keyword .sp] .sp
  | data : Derives .primary [.keyword .data] (.base .data)
  | const : Derives .primary [.keyword .const] (.base .const)
  | slot {ts : List Token} {s : Slot} (h : SlotOf ts s) : Derives .primary ts (.slot s)
  | indirect {ts : List Token} {name : String} {width : Width} {address : Expr}
      (hname : WidthName name width) (h : Derives .expr ts address) (hatom : Atom address) :
      Derives .primary (.id name :: .openSquare :: (ts ++ [.closeSquare]))
        (.indirect width address)
  | paren {ts : List Token} {e : Expr} (h : Derives .expr ts e) :
      Derives .primary (.openParen :: (ts ++ [.closeParen])) e

/-! ## Statements -/

/-- What an assignment may store: an expression with at most one binary operator. -/
structure ValueOf (ts : List Token) (e : Expr) : Prop where
  derives : Derives .expr ts e
  operations : e.operations ≤ 1

/-- The right side of a combining assignment or a side of a comparison: no binary operator. -/
structure OperandOf (ts : List Token) (e : Expr) : Prop where
  derives : Derives .expr ts e
  operations : e.operations = 0

/-- A comparison of two operands. -/
inductive ConditionOf : List Token → Condition → Prop where
  | compare {ls rs : List Token} {left right : Expr} (c : Comparison) (hl : OperandOf ls left)
      (hr : OperandOf rs right) : ConditionOf (ls ++ .compare c :: rs) ⟨left, c, right⟩

/-- A place: a slot outside the region that cannot be written, or an access through an address. -/
inductive PlaceOf : List Token → Place → Prop where
  | slot {ts : List Token} {s : Slot} (h : SlotOf ts s) (hspace : s.space ≠ .region .const) :
      PlaceOf ts (.slot s)
  | indirect {ts : List Token} {name : String} {width : Width} {address : Expr}
      (hname : WidthName name width) (h : Derives .expr ts address) (hatom : Atom address) :
      PlaceOf (.id name :: .openSquare :: (ts ++ [.closeSquare])) (.indirect width address)

/-- The arguments of a call, a comma before each. -/
inductive ArgumentsOf : List Token → List Expr → Prop where
  | nil : ArgumentsOf [] []
  | cons {ts us : List Token} {a : Expr} {as : List Expr} (h : Derives .expr ts a)
      (harg : Argument a) (hmore : ArgumentsOf us as) :
      ArgumentsOf (.comma :: (ts ++ us)) (a :: as)

/-- Where a jump goes: an identifier, or `END`. -/
inductive DestinationOf : Token → Destination → Prop where
  | label (name : String) : DestinationOf (.id name) (.label name)
  | finish : DestinationOf (.keyword .finish) .finish

/-- The tokens of a statement, without the end of its line. -/
inductive StatementOf : List Token → Statement → Prop where
  | label (name : String) : StatementOf [.hash, .id name] (.label name)
  | goto {t : Token} {d : Destination} (hd : DestinationOf t d) :
      StatementOf [.keyword .goto, t] (.goto d)
  | gotoIf {t : Token} {d : Destination} {cs : List Token} {c : Condition}
      (hd : DestinationOf t d) (hc : ConditionOf cs c) :
      StatementOf (.keyword .goto :: t :: .keyword .cond :: cs) (.gotoIf d c)
  | pass : StatementOf [.keyword .pass] (.pass 1)
  | passTimes (n : Word) : StatementOf [.keyword .pass, .binary .mul, .number n] (.pass n)
  | align {n : Word} (hn : n = 8 ∨ n = 16) :
      StatementOf [.keyword .align, .number n] (.align n.toNat)
  | syscall {ts : List Token} {as : List Expr} (name : String) (ha : ArgumentsOf ts as) :
      StatementOf (.keyword .syscall :: .id name :: ts) (.syscall name as none)
  | setSp {ts : List Token} {e : Expr} (hv : ValueOf ts e) :
      StatementOf (.keyword .sp :: .assign :: ts) (.setSp none e)
  | updateSp {ts : List Token} {e : Expr} (op : BinOp) (hv : OperandOf ts e) :
      StatementOf (.keyword .sp :: .compound op :: ts) (.setSp (some op) e)
  | syscallTo {ps ts : List Token} {target : Place} {as : List Expr} (name : String)
      (hp : PlaceOf ps target) (ha : ArgumentsOf ts as) :
      StatementOf (ps ++ .assign :: .keyword .syscall :: .id name :: ts)
        (.syscall name as (some target))
  | select {ps cs ys ns : List Token} {target : Place} {c : Condition} {yes no : Expr}
      (hp : PlaceOf ps target) (hc : ConditionOf cs c) (hy : ValueOf ys yes) (hn : ValueOf ns no) :
      StatementOf
        (ps ++ .assign :: .openParen :: (cs ++ .closeParen :: .question :: (ys ++ .colon :: ns)))
        (.select target c yes no)
  | assignIf {ps ts cs : List Token} {target : Place} {e : Expr} {c : Condition}
      (hp : PlaceOf ps target) (hv : ValueOf ts e) (hc : ConditionOf cs c) :
      StatementOf (ps ++ .assign :: (ts ++ .keyword .cond :: cs)) (.assignIf target e c)
  | assign {ps ts : List Token} {target : Place} {e : Expr} (hp : PlaceOf ps target)
      (hv : ValueOf ts e) : StatementOf (ps ++ .assign :: ts) (.assign target e)
  | update {ps ts : List Token} {target : Place} {e : Expr} (op : BinOp) (hp : PlaceOf ps target)
      (hv : OperandOf ts e) : StatementOf (ps ++ .compound op :: ts) (.update target op e)

/-! ## Programs -/

/-- A literal with an optional sign and an optional mark. -/
inductive LiteralOf : List Token → Word → Prop where
  | plain (n : Word) : LiteralOf [.number n] n
  | wide (n : Word) : LiteralOf [.number n, .wide] n
  | negative (n : Word) : LiteralOf [.binary .sub, .number n] (-n)
  | negativeWide (n : Word) : LiteralOf [.binary .sub, .number n, .wide] (-n)

/-- The tokens of an initial value, without the end of its line. -/
inductive InitializerOf : List Token → Initializer → Prop where
  | assign {ts ns : List Token} {r : Region} {offset value : Word}
      (hslot : SlotOf ts ⟨.region r, offset⟩) (hvalue : LiteralOf ns value) :
      InitializerOf (ts ++ .assign :: ns) ⟨r, offset, value⟩

/-- The tokens go on with the end of a line, which may be the end of the text. -/
def LineEnds (ts : List Token) : Prop := ts.head? = some .newline ∨ ts.head? = some .eof

/-- Tokens, the initial values on the lines at their front, and the tokens after those lines. -/
inductive InitialRun : List Token → List Initializer → List Token → Prop where
  | nil (ts : List Token) : InitialRun ts [] ts
  | blank {ts rest : List Token} {is : List Initializer} (h : InitialRun ts is rest) :
      InitialRun (.newline :: ts) is rest
  | line {ls ts rest : List Token} {i : Initializer} {is : List Initializer}
      (hi : InitializerOf ls i) (hend : LineEnds ts) (h : InitialRun ts is rest) :
      InitialRun (ls ++ ts) (i :: is) rest

/-- The tokens of statements, each on a line of its own, up to the end of the text. -/
inductive StatementsOf : List Token → List Statement → Prop where
  | done : StatementsOf [.eof] []
  | blank {ts : List Token} {ss : List Statement} (h : StatementsOf ts ss) :
      StatementsOf (.newline :: ts) ss
  | line {ls ts : List Token} {s : Statement} {ss : List Statement} (hs : StatementOf ls s)
      (hend : LineEnds ts) (h : StatementsOf ts ss) : StatementsOf (ls ++ ts) (s :: ss)

/-- Two initial values concern different bytes. -/
def Apart (i j : Initializer) : Prop :=
  i.region = j.region →
    i.offset.toNat + 8 ≤ j.offset.toNat ∨ j.offset.toNat + 8 ≤ i.offset.toNat

/-- Labels are defined once, and every jump to a label finds it defined. -/
structure LabelsResolve (ss : List Statement) : Prop where
  unique : (ss.filterMap Statement.label?).Nodup
  defined : ∀ s ∈ ss, ∀ name, s.jump? = some (.label name) → .label name ∈ ss

/--
The tokens of a program: initial values as long as the lines have that form, and then statements.
The initial values take as many lines as they can, so that no other one follows them.
-/
structure ProgramOf (ts : List Token) (data : List Initializer) (ss : List Statement) : Prop where
  lines : ∃ rest, InitialRun ts data rest ∧ StatementsOf rest ss ∧
    ∀ i rest', ¬ InitialRun rest [i] rest'
  apart : data.Pairwise Apart
  labels : LabelsResolve ss

end Quadword.Grammar
