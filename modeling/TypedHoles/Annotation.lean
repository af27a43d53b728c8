import TypedHoles.AnnotatedTerm
import TypedHoles.NameSupply
import TypedHoles.TypeError

/-!
# Annotation

Annotation gives every node of a term a type, with a fresh type variable
wherever the type is not known yet.  An abstraction draws the type variable of
its domain before its body is annotated; all other nodes draw theirs after their
parts.
-/

namespace TypedHoles

/-- The reason for which inference gives no result. -/
inductive InferFailure where
  | illTyped (error : TypeError)
  /-- The type variables have been used up. -/
  | exhausted
  deriving DecidableEq, Repr

/-- Computations that draw type variables.  Those that were drawn stay so also
if the computation fails. -/
abbrev Annotate := EStateM InferFailure (NameSupply .typeVar)

namespace Annotate

/-- A fresh type variable. -/
def freshType : Annotate Ty := fun supply =>
  match supply.fresh with
  | .ok (name, supply) => .ok (.var name) supply
  | .error _ => .error .exhausted supply

/-- The type of the variable `name` in a context. -/
def lookup (context : Context) (name : VarName) : Annotate Ty :=
  match context.lookup name with
  | some ty => return ty
  | none => throw (.illTyped (.unbound name))

/-- Give every node of a term a type. -/
def annotate (context : Context) : Term → Annotate AnnotatedTerm
  | .unit => return .unit
  | .var name => return .var name (← lookup context name)
  | .abs binder body => do
      let domain ← freshType
      return .abs binder domain
        (← annotate (context.extend binder.name domain) body)
  | .app applicant argument => do
      let applicant ← annotate context applicant
      let argument ← annotate context argument
      return .app applicant argument (← freshType)
  | .pair first second => do
      let first ← annotate context first
      let second ← annotate context second
      return .pair first second (← freshType)
  | .proj1 argument => do
      let argument ← annotate context argument
      let ty ← freshType
      return .proj1 argument ty (← freshType)
  | .proj2 argument => do
      let argument ← annotate context argument
      let ty ← freshType
      return .proj2 argument ty (← freshType)
  | .hole name => return .hole name (← freshType)

end Annotate

end TypedHoles
