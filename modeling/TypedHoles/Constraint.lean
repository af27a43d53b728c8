import TypedHoles.AnnotatedTerm
import TypedHoles.Unification

/-!
# Constraints

The constraints of an annotated term are the equations between types that hold
exactly if the term is well typed.  They are solved in order, and the first one
that cannot be satisfied ends the search.
-/

namespace TypedHoles

/-- An equation between two types. -/
structure Constraint where
  expected : Ty
  actual : Ty
  deriving DecidableEq, Repr

/-- The text of a constraint. -/
def Constraint.text (constraint : Constraint) : String :=
  constraint.expected.text ++ " ≈ " ++ constraint.actual.text

/-- The constraints of an annotated term, that of a node before those of its
parts. -/
def AnnotatedTerm.constraints : AnnotatedTerm → List Constraint
  | .unit => []
  | .var _ _ => []
  | .abs _ _ body => body.constraints
  | .app applicant argument ty =>
      ⟨applicant.ty, .arrow argument.ty ty⟩ ::
        (applicant.constraints ++ argument.constraints)
  | .pair first second ty =>
      ⟨.product first.ty second.ty, ty⟩ ::
        (first.constraints ++ second.constraints)
  | .proj1 argument ty second =>
      ⟨argument.ty, .product ty second⟩ :: argument.constraints
  | .proj2 argument ty first =>
      ⟨argument.ty, .product first ty⟩ :: argument.constraints
  | .hole _ _ => []

namespace Unify

/-- Apply the current substitution to both sides of a constraint. -/
def applyConstraint (constraint : Constraint) : Unify Constraint := do
  let expected ← apply constraint.expected
  let actual ← apply constraint.actual
  return ⟨expected, actual⟩

/-- Satisfy one constraint. -/
def satisfy (constraint : Constraint) : Unify Unit := do
  let constraint ← applyConstraint constraint
  unify constraint.expected constraint.actual

/-- Satisfy constraints one after the other. -/
def solve : List Constraint → Unify Unit
  | [] => return ()
  | constraint :: constraints => do
      satisfy constraint
      solve constraints

end Unify

end TypedHoles
