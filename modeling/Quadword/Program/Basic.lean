import Quadword.Text.Position
import Quadword.Program.Operator

/-!
# Programs

A program is a list of initial values for its two static regions and a list of statements. Each
statement performs one primitive operation on 64-bit words that are held on the stack, in a region,
or behind an address.

The name of a region stands for the region's address (`Expr.base`), and a slot of the region for the
word that is stored there (`Expr.slot`): the two are never the same thing.
-/

namespace Quadword

/-- The static regions of memory: `data` can be written, `const` cannot. -/
inductive Region where
  | data
  | const
deriving DecidableEq

/-- What an offset counts from. -/
inductive Space where
  | stack
  | region (r : Region)
deriving DecidableEq

/-- A word at a constant offset, `[base+offset]`. -/
structure Slot where
  space : Space
  offset : Word
deriving DecidableEq

/-- The largest offset of a slot: the largest displacement of an instruction. -/
def Slot.maxOffset : Nat := 2147483647

/-- How much of memory an access through an address concerns. -/
inductive Width where
  | byte
  | word
  | dword
  | qword
deriving DecidableEq

def Width.bits : Width → Nat
  | .byte => 8
  | .word => 16
  | .dword => 32
  | .qword => 64

inductive Expr where
  /-- A literal; a wide one asks for the full 64-bit encoding even if a shorter one would do. -/
  | number (value : Word) (wide : Bool)
  | sp
  | base (r : Region)
  | slot (s : Slot)
  /-- What stands at an address, extended with zeros to a word. -/
  | indirect (width : Width) (address : Expr)
  | binary (op : BinOp) (left right : Expr)
  | unary (op : UnOp) (operand : Expr)
deriving DecidableEq

inductive Place where
  | slot (s : Slot)
  | indirect (width : Width) (address : Expr)
deriving DecidableEq

def Place.read : Place → Expr
  | .slot s => .slot s
  | .indirect width address => .indirect width address

structure Condition where
  left : Expr
  comparison : Comparison
  right : Expr
deriving DecidableEq

/-- Where a jump goes: to a label, or to the end of the program. -/
inductive Destination where
  | label (name : String)
  | finish
deriving DecidableEq

inductive Statement where
  /-- Names the point before the next statement. -/
  | label (name : String)
  | assign (target : Place) (value : Expr)
  /-- An assignment that happens only under a condition. -/
  | assignIf (target : Place) (value : Expr) (condition : Condition)
  | select (target : Place) (condition : Condition) (yes no : Expr)
  /-- Combines the value at a place with another one. -/
  | update (target : Place) (op : BinOp) (value : Expr)
  | goto (target : Destination)
  | gotoIf (target : Destination) (condition : Condition)
  /-- Does nothing, `count` times. -/
  | pass (count : Word)
  /-- Sets the stack pointer, or combines it with a value. -/
  | setSp (op : Option BinOp) (value : Expr)
  /-- Rounds the stack pointer down to a multiple of a power of two. -/
  | align (boundary : Nat)
  /-- Calls a procedure of the host. -/
  | syscall (name : String) (arguments : List Expr) (output : Option Place)
deriving DecidableEq

/-- The initial value of eight bytes of a region. -/
structure Initializer where
  region : Region
  offset : Word
  value : Word
deriving DecidableEq

namespace Initializer

def size : Nat := 8

def lastOffset : Nat := 18446744073709551615

/-- The offset just after the value, or the last one there is if the value reaches beyond it. -/
def stop (i : Initializer) : Nat := min (i.offset.toNat + size) lastOffset

/-- Whether two values share a byte of one region. -/
def overlaps (i j : Initializer) : Bool :=
  i.region = j.region && i.offset.toNat < j.stop && j.offset.toNat < i.stop

end Initializer

/-- A program, with the part of the text that each of its items was read from. -/
structure Program where
  data : List (Located Initializer)
  statements : List (Located Statement)
  /-- Where the text ends; what follows the last statement is attributed to it. -/
  finish : Span
deriving DecidableEq

end Quadword
