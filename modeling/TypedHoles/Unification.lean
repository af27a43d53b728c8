import TypedHoles.Substitution
import TypedHoles.TypeError

/-!
# Unification

Unification makes two types equal by binding type variables.  It works on types
to which the substitution has been applied.  The first components of two
composite types are unified before the second ones; if that has bound a type
variable, the substitution is applied to the second components again.

Each such round binds a type variable that occurs in the two types, so there are
no more rounds than type variables.  Within a round the types only get smaller.
-/

namespace TypedHoles

/-- Computations that add bindings to a substitution.  The bindings that were
made stay also if the computation fails. -/
abbrev Unify := EStateM Clash Substitution

namespace Unify

/-- Apply the current substitution to a type. -/
def apply (ty : Ty) : Unify Ty :=
  modifyGet fun substitution => (Substitution.apply ty).run substitution

/-- Bind a free type variable to a type in which it does not occur. -/
def bindVar (name : TypeVar) (ty : Ty) : Unify Unit :=
  if ty.contains name then
    throw (.circularity name ty)
  else
    modify (·.insert name ty)

/-- Unify two types to which the substitution has been applied.  Second
components are left to `again` if unifying the first ones has made a binding. -/
def unifyApplied (again : Ty → Ty → Unify Unit) : Ty → Ty → Unify Unit
  | .unit, .unit => return ()
  | .var left, .var right =>
      if left = right then return () else modify (·.insert left (.var right))
  | .var name, ty => bindVar name ty
  | ty, .var name => bindVar name ty
  | .arrow left₁ left₂, .arrow right₁ right₂ => do
      let bindings := (← get).size
      unifyApplied again left₁ right₁
      if (← get).size = bindings then
        unifyApplied again left₂ right₂
      else
        again left₂ right₂
  | .product left₁ left₂, .product right₁ right₂ => do
      let bindings := (← get).size
      unifyApplied again left₁ right₁
      if (← get).size = bindings then
        unifyApplied again left₂ right₂
      else
        again left₂ right₂
  | left, right => throw (.mismatch left right)

/-- Unify two types to which the substitution has been applied, applying it at
most `rounds` times again. -/
def unifyRounds : (rounds : Nat) → Ty → Ty → Unify Unit
  | 0 => unifyApplied fun left right => throw (.mismatch left right)
  | rounds + 1 => unifyApplied fun left right => do
      let left ← apply left
      let right ← apply right
      unifyRounds rounds left right

/-- Make two types equal by binding type variables. -/
def unify (left right : Ty) : Unify Unit := do
  let left ← apply left
  let right ← apply right
  unifyRounds (left.size + right.size) left right

end Unify

end TypedHoles
