import Quadword.Program.Basic

/-!
# The text of programs

Every item of a program has one text, written the way the language writes it. An operation inside
another one is put in parentheses, so the text shows how it is nested.
-/

namespace Quadword

def Region.name : Region → String
  | .data => "data"
  | .const => "const"

/-- The name of what an offset counts from. -/
def Space.name : Space → String
  | .stack => "sp"
  | .region r => r.name

def Slot.render (s : Slot) : String :=
  "[" ++ s.space.name ++ "+" ++ toString s.offset.toNat ++ "]"

/-- The name of an access through an address. -/
def Width.name (w : Width) : String := "m" ++ toString w.bits

/-- Puts the text of an operand in parentheses if the operand is itself an operation. -/
def Expr.enclose (e : Expr) (text : String) : String :=
  match e with
  | .binary .. | .unary .. => "(" ++ text ++ ")"
  | _ => text

/-- The text of an expression. Literals are written with their sign. -/
def Expr.render : Expr → String
  | .number value false => toString value.toInt
  | .number value true => toString value.toInt ++ " \x7bwide\x7d"
  | .sp => "sp"
  | .base r => r.name
  | .slot s => s.render
  | .indirect width address => width.name ++ "[" ++ address.render ++ "]"
  | .binary op left right =>
    left.enclose left.render ++ " " ++ op.spelling ++ " " ++ right.enclose right.render
  | .unary op operand => op.spelling ++ operand.enclose operand.render

def Place.render (p : Place) : String := p.read.render

def Condition.render (c : Condition) : String :=
  c.left.render ++ " " ++ c.comparison.spelling ++ " " ++ c.right.render

def Destination.render : Destination → String
  | .label name => name
  | .finish => "END"

def renderArguments (arguments : List Expr) : String :=
  String.join (arguments.map fun a => ", " ++ a.render)

def Statement.render : Statement → String
  | .label name => "#" ++ name
  | .assign target value => target.render ++ " = " ++ value.render
  | .assignIf target value condition =>
    target.render ++ " = " ++ value.render ++ " if " ++ condition.render
  | .select target condition yes no =>
    target.render ++ " = (" ++ condition.render ++ ") ? " ++ yes.render ++ " : " ++ no.render
  | .update target op value => target.render ++ " " ++ op.spelling ++ "= " ++ value.render
  | .goto target => "goto " ++ target.render
  | .gotoIf target condition => "goto " ++ target.render ++ " if " ++ condition.render
  | .pass count => if count = 1 then "pass" else "pass * " ++ toString count.toNat
  | .setSp none value => "sp = " ++ value.render
  | .setSp (some op) value => "sp " ++ op.spelling ++ "= " ++ value.render
  | .align boundary => "align " ++ toString boundary
  | .syscall name arguments none => "syscall " ++ name ++ renderArguments arguments
  | .syscall name arguments (some output) =>
    output.render ++ " = syscall " ++ name ++ renderArguments arguments

def Initializer.render (i : Initializer) : String :=
  Slot.render ⟨.region i.region, i.offset⟩ ++ " = " ++ toString i.value.toInt

/-- The text of an error about a second initial value for the same bytes. -/
def Initializer.overlapMessage (region : Region) (offset : Word) : String :=
  "Initializer for `" ++ Slot.render ⟨.region region, offset⟩ ++ "` overlaps a previous one"

end Quadword
