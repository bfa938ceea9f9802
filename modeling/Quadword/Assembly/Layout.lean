import Quadword.Program.Basic

/-!
# The layout of a region

The initial values of a region are laid out in ascending order of their offsets, with zero bytes
between them, so that each stands at the offset it names. A region without any is one word of zeros.
-/

namespace Quadword

inductive Chunk where
  | zero (bytes : Nat)
  | quad (value : Word)
deriving DecidableEq

def Chunk.gap (bytes : Nat) : List Chunk := if bytes = 0 then [] else [.zero bytes]

namespace Initializer

def before (i j : Initializer) : Bool := i.offset.toNat ≤ j.offset.toNat

/-- Lays out ascending values from an offset on; fails with the first that starts too early. -/
def layFrom (offset : Nat) : List Initializer → Except Initializer (List Chunk)
  | [] => .ok []
  | i :: is =>
    if i.offset.toNat < offset then .error i
    else
      match layFrom i.stop is with
      | .error j => .error j
      | .ok chunks => .ok (Chunk.gap (i.offset.toNat - offset) ++ .quad i.value :: chunks)

/--
Lays out the initial values of one region, given in any order; fails with the first value, in order
of the offsets, that starts inside the one before it.
-/
def layout (is : List Initializer) : Except Initializer (List Chunk) :=
  if is.isEmpty then .ok [.zero size] else layFrom 0 (is.mergeSort before)

end Initializer

end Quadword
