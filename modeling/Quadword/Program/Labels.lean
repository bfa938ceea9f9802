import Quadword.Program.Basic

/-!
# Labels

A label may be defined once only, and every jump to a label needs the statement that defines it.
-/

namespace Quadword

namespace Statement

def label? : Statement → Option String
  | label name => some name
  | _ => none

/-- Where a statement jumps to, always or under a condition. -/
def jump? : Statement → Option Destination
  | goto target | gotoIf target _ => some target
  | _ => none

def jumpLabel? (s : Statement) : Option String :=
  match s.jump? with
  | some (.label name) => some name
  | _ => none

end Statement

/-- The labels that a run of statements defines, in order. -/
def definedLabels (ss : List (Located Statement)) : List String :=
  ss.filterMap fun s => s.value.label?

/-- The first statement that defines a label which is in `seen` or was defined before it. -/
def repeatedLabel? (seen : List String) : List (Located Statement) → Option (Located String)
  | [] => none
  | s :: ss =>
    match s.value.label? with
    | none => repeatedLabel? seen ss
    | some name =>
      if name ∈ seen then some ⟨name, s.span⟩ else repeatedLabel? (name :: seen) ss

/-- The first statement that jumps to a label outside `defined`. -/
def unknownLabel? (defined : List String) (ss : List (Located Statement)) :
    Option (Located String) :=
  ss.findSome? fun s =>
    match s.value.jumpLabel? with
    | none => none
    | some name => if name ∈ defined then none else some ⟨name, s.span⟩

end Quadword
