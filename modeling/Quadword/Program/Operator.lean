/-!
# Words and operators

Every value of the language is a 64-bit word. An operator that reads its operands as numbers with or
without a sign comes in two forms, told apart by a `Signedness` and spelled with a trailing `s` or
`u`.
-/

namespace Quadword

abbrev Word := BitVec 64

/-- Whether an operator reads its operands as signed or as unsigned numbers. -/
inductive Signedness where
  | signed
  | unsigned
deriving DecidableEq

/-- The letter that marks an operator as signed or unsigned. -/
def Signedness.letter : Signedness → String
  | .signed => "s"
  | .unsigned => "u"

inductive BinOp where
  | add
  | sub
  | mul
  | div (sign : Signedness)
  | rem (sign : Signedness)
  | and
  | or
  | xor
  | shl
  | shr (sign : Signedness)
deriving DecidableEq

namespace BinOp

def spelling : BinOp → String
  | add => "+"
  | sub => "-"
  | mul => "*"
  | div s => "/" ++ s.letter
  | rem s => "%" ++ s.letter
  | and => "&"
  | or => "|"
  | xor => "^"
  | shl => "<<"
  | shr s => ">>" ++ s.letter

def all : List BinOp :=
  [add, sub, mul, div .signed, div .unsigned, rem .signed, rem .unsigned, and, or, xor, shl,
    shr .signed, shr .unsigned]

/--
All binary operators are in the list, so a fact about each of them can be had by evaluation over it.
-/
theorem mem_all (op : BinOp) : op ∈ all := by
  cases op with
  | div s | rem s | shr s => cases s <;> decide
  | _ => decide

end BinOp

inductive UnOp where
  | neg
  | not
deriving DecidableEq

def UnOp.spelling : UnOp → String
  | .neg => "-"
  | .not => "~"

inductive Comparison where
  | eq
  | ne
  | lt (sign : Signedness)
  | le (sign : Signedness)
  | gt (sign : Signedness)
  | ge (sign : Signedness)
deriving DecidableEq

namespace Comparison

def spelling : Comparison → String
  | eq => "=="
  | ne => "!="
  | lt s => "<" ++ s.letter
  | le s => "<=" ++ s.letter
  | gt s => ">" ++ s.letter
  | ge s => ">=" ++ s.letter

def all : List Comparison :=
  [eq, ne, lt .signed, lt .unsigned, le .signed, le .unsigned, gt .signed, gt .unsigned,
    ge .signed, ge .unsigned]

theorem mem_all (c : Comparison) : c ∈ all := by
  cases c with
  | lt s | le s | gt s | ge s => cases s <;> decide
  | _ => decide

end Comparison

end Quadword
