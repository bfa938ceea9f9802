import Quadword.Assembly.Gas
import Quadword.Assembly.Nasm

/-!
# Targets

What an assembly text is written for: an assembler, a way to reach the static regions, and whether
the statements are quoted in comments.
-/

namespace Quadword

inductive Dialect where
  | nasm
  | gas
deriving DecidableEq

def Dialect.style : Dialect → Style
  | .nasm => Nasm.style
  | .gas => Gas.style

/-- Finds a name in a table without regard to the case of ASCII letters. -/
def lookupName {α : Type} (table : List (String × α)) (name : String) : Option α :=
  (table.find? fun entry => entry.1 = name.toLower).map Prod.snd

def Dialect.names : List (String × Dialect) :=
  [("nasm", .nasm), ("intel", .nasm), ("gas", .gas), ("att", .gas)]

def Dialect.ofName? : String → Option Dialect := lookupName names

def Addressing.names : List (String × Addressing) :=
  [("symbol", .absolute), ("absolute", .absolute), ("rip", .relative), ("relative", .relative)]

def Addressing.ofName? : String → Option Addressing := lookupName names

/-- What an assembly text is written for. -/
structure Target where
  dialect : Dialect := .nasm
  addressing : Addressing := .absolute
  annotate : Bool := false
deriving DecidableEq

def Program.assemble (p : Program) (t : Target) : Except (Located LowerError) String := do
  let listing ← p.lower t.addressing
  return t.dialect.style.text t.annotate listing

end Quadword
