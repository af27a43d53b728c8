import TypedHoles.Context
import TypedHoles.Term

/-!
# Annotated terms

An annotated term carries a type at every node at which a type is not
determined by the parts of the node.  A projection also carries the type of the
component that it discards.
-/

namespace TypedHoles

/-- A term with types at its nodes. -/
inductive AnnotatedTerm where
  | unit
  | var (name : VarName) (ty : Ty)
  | abs (binder : Binder) (domain : Ty) (body : AnnotatedTerm)
  | app (applicant argument : AnnotatedTerm) (ty : Ty)
  | pair (first second : AnnotatedTerm) (ty : Ty)
  | proj1 (argument : AnnotatedTerm) (ty second : Ty)
  | proj2 (argument : AnnotatedTerm) (ty first : Ty)
  | hole (name : HoleName) (ty : Ty)
  deriving DecidableEq, Repr

namespace AnnotatedTerm

/-- The type of a node. -/
def ty : AnnotatedTerm → Ty
  | unit => .unit
  | var _ ty => ty
  | abs _ domain body => .arrow domain body.ty
  | app _ _ ty => ty
  | pair _ _ ty => ty
  | proj1 _ ty _ => ty
  | proj2 _ ty _ => ty
  | hole _ ty => ty

/-- The stored types, those of a node before those of its parts. -/
def types : AnnotatedTerm → List Ty
  | unit => []
  | var _ ty => [ty]
  | abs _ domain body => domain :: body.types
  | app applicant argument ty => ty :: (applicant.types ++ argument.types)
  | pair first second ty => ty :: (first.types ++ second.types)
  | proj1 argument ty second => ty :: second :: argument.types
  | proj2 argument ty first => ty :: first :: argument.types
  | hole _ ty => [ty]

/-- Replace every stored type by the result of an action, those of a node before
those of its parts. -/
def traverseTypes {m : Type → Type} [Monad m] (action : Ty → m Ty) :
    AnnotatedTerm → m AnnotatedTerm
  | unit => pure unit
  | var name ty => return var name (← action ty)
  | abs binder domain body =>
      return abs binder (← action domain) (← body.traverseTypes action)
  | app applicant argument ty => do
      let ty ← action ty
      return app (← applicant.traverseTypes action)
        (← argument.traverseTypes action) ty
  | pair first second ty => do
      let ty ← action ty
      return pair (← first.traverseTypes action)
        (← second.traverseTypes action) ty
  | proj1 argument ty second => do
      let ty ← action ty
      let second ← action second
      return proj1 (← argument.traverseTypes action) ty second
  | proj2 argument ty first => do
      let ty ← action ty
      let first ← action first
      return proj2 (← argument.traverseTypes action) ty first
  | hole name ty => return hole name (← action ty)

/-- The type variables in the order of their first occurrence. -/
def typeVars (term : AnnotatedTerm) : List TypeVar :=
  term.types.foldl Ty.extendVars []

/-- Rename the type variables to `0, 1, 2, …` in the order of their first
occurrence, and return the numbering, too. -/
def canonical (term : AnnotatedTerm) :
    Except Exhausted (AnnotatedTerm × Numbering .typeVar) :=
  (term.traverseTypes Ty.number).run .empty

/-- The holes in order of traversal with their types and contexts, for a term
that stands in the given context. -/
def holesIn (context : Context) : AnnotatedTerm → List (HoleName × Ty × Context)
  | unit => []
  | var _ _ => []
  | abs binder domain body => body.holesIn (context.extend binder.name domain)
  | app applicant argument _ =>
      applicant.holesIn context ++ argument.holesIn context
  | pair first second _ => first.holesIn context ++ second.holesIn context
  | proj1 argument _ _ => argument.holesIn context
  | proj2 argument _ _ => argument.holesIn context
  | hole name ty => [(name, ty, context)]

/-- The text of an annotated term.  Variables are shown by their names, binders
by their labels. -/
def text : AnnotatedTerm → String
  | unit => "unit"
  | var name ty => "(" ++ name.text ++ " : " ++ ty.text ++ ")"
  | abs binder domain body =>
      "(λ" ++ binder.text ++ " : " ++ domain.text ++ ". " ++ body.text ++ ")"
  | app applicant argument ty =>
      "(" ++ applicant.text ++ " " ++ argument.text ++ " : " ++ ty.text ++ ")"
  | pair first second ty =>
      "((" ++ first.text ++ ", " ++ second.text ++ ") : " ++ ty.text ++ ")"
  | proj1 argument ty _ => "(π₁ " ++ argument.text ++ " : " ++ ty.text ++ ")"
  | proj2 argument ty _ => "(π₂ " ++ argument.text ++ " : " ++ ty.text ++ ")"
  | hole name ty => "(" ++ name.text ++ " : " ++ ty.text ++ ")"

end AnnotatedTerm

end TypedHoles
