import TypedHoles.Annotation
import TypedHoles.Constraint

/-!
# Type inference

Inference annotates a term, solves the constraints of the annotated term,
applies the solution to all its types and numbers the type variables that are
left in the order of their first occurrence.
-/

namespace TypedHoles

/-- What inference finds out about a term. -/
structure Inference where
  /-- The term with its types. -/
  term : AnnotatedTerm
  /-- The type of the term. -/
  ty : Ty
  /-- The types of the holes. -/
  holeTypes : OrderedMap HoleName Ty
  /-- The variables in scope at the holes. -/
  holeContexts : OrderedMap HoleName Context
  deriving DecidableEq

namespace Inference

/-- Read off an annotated term its type and those of its holes.  Of several
holes with the same name the last one counts. -/
def ofAnnotated (term : AnnotatedTerm) : Inference where
  term := term
  ty := term.ty
  holeTypes := .ofList <| (term.holesIn .empty).map
    fun (name, ty, _) => (name, ty)
  holeContexts := .ofList <| (term.holesIn .empty).map
    fun (name, _, context) => (name, context)

/-- The type of a hole. -/
def holeType? (inference : Inference) (name : HoleName) : Option Ty :=
  inference.holeTypes.get? name

/-- The variables in scope at a hole. -/
def holeContext? (inference : Inference) (name : HoleName) : Option Context :=
  inference.holeContexts.get? name

/-- The names of the holes, in order of traversal. -/
def holes (inference : Inference) : List HoleName :=
  inference.holeTypes.keys

end Inference

/-- Apply a substitution to all types of an annotated term. -/
def AnnotatedTerm.applySubstitution (term : AnnotatedTerm) (substitution : Substitution) :
    AnnotatedTerm :=
  ((term.traverseTypes Substitution.apply).run substitution).1

/-- Annotate a closed term with type variables from a full supply. -/
def Term.annotated (term : Term) :
    EStateM.Result InferFailure (NameSupply .typeVar) AnnotatedTerm :=
  (Annotate.annotate .empty term).run .full

/-- The most general type of a term, together with the types of its holes and
the variables in scope at them. -/
def infer (term : Term) : Except InferFailure Inference :=
  match term.annotated with
  | .error failure _ => .error failure
  | .ok annotated _ =>
      match (Unify.solve annotated.constraints).run .empty with
      | .error clash _ => .error (.illTyped (.clash clash))
      | .ok _ substitution =>
          match (annotated.applySubstitution substitution).canonical with
          | .error _ => .error .exhausted
          | .ok (normal, _) => .ok (.ofAnnotated normal)

end TypedHoles
