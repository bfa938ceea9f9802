import Quadword.Program.Printer

/-!
# Lowering errors

Programs that were read from a text are never refused here; only ones that were put together by
other means can be.
-/

namespace Quadword

/-- Why a program cannot be lowered. -/
inductive LowerError where
  /-- A binary operator whose result would have to be computed outside `rax`. -/
  | misplacedOperation
  /-- An offset that does not fit a displacement. -/
  | farOffset
  /-- A store to a region that cannot be written. -/
  | readOnlyStore
  /-- An initial value for bytes that already have one. -/
  | overlap (region : Region) (offset : Word)
deriving DecidableEq

def LowerError.message : LowerError → String
  | misplacedOperation => "Unsupported construct: operation outside of rax"
  | farOffset => "Unsupported construct: offset beyond 32 bits"
  | readOnlyStore => "Unsupported construct: store into a read-only region"
  | overlap region offset => Initializer.overlapMessage region offset

end Quadword
