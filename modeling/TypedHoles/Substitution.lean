import TypedHoles.OrderedMap
import TypedHoles.Ty

/-!
# Substitutions

A substitution binds type variables to types that may mention other bound type
variables.  Applying it follows such chains until only free type variables are
left, and remembers for every bound type variable on the way what it stands for,
so that the chain is short the next time.

The chains of an acyclic substitution are at most as long as it has bindings.
This bounds the depth of the look-ups, and so application is defined for all
substitutions, whether they are acyclic or not.
-/

namespace TypedHoles

/-- Bindings of type variables.  The cache holds what applying the substitution
found out about bound type variables. -/
structure Substitution where
  table : OrderedMap TypeVar Ty
  cache : OrderedMap TypeVar Ty
  deriving DecidableEq

namespace Substitution

/-- The substitution without bindings. -/
def empty : Substitution :=
  ⟨.empty, .empty⟩

/-- The type that stands for `name`, preferably the one in the cache. -/
def get? (substitution : Substitution) (name : TypeVar) : Option Ty :=
  (substitution.cache.get? name).or (substitution.table.get? name)

/-- Bind `name` to `ty` in the table. -/
def insert (substitution : Substitution) (name : TypeVar) (ty : Ty) :
    Substitution :=
  { substitution with table := substitution.table.insert name ty }

/-- Remember that `name` stands for `ty`. -/
def remember (substitution : Substitution) (name : TypeVar) (ty : Ty) :
    Substitution :=
  { substitution with cache := substitution.cache.insert name ty }

/-- The substitution made by binding the given type variables one after the
other. -/
def ofList (bindings : List (TypeVar × Ty)) : Substitution :=
  ⟨.ofList bindings, .empty⟩

/-- The number of bindings. -/
def size (substitution : Substitution) : Nat :=
  substitution.table.size

/-- Whether there is neither a binding nor a remembered type. -/
def isEmpty (substitution : Substitution) : Bool :=
  substitution.table.size = 0 && substitution.cache.size = 0

/-- The bindings as lines of text, ordered by their type variables. -/
def text (substitution : Substitution) : String :=
  let ordered := substitution.table.entries.mergeSort
    fun first second => first.1 ≤ second.1
  String.join (ordered.map fun (name, ty) =>
    name.text ++ " := " ++ Emphasis.green.apply ty.text ++ "\n")

end Substitution

/-- Put two types together after a change of one or both of them. -/
def Ty.rebuild (make : Ty → Ty → Ty) (first second : Ty) :
    Option Ty → Option Ty → Option Ty
  | none, none => none
  | newFirst, newSecond =>
      some (make (newFirst.getD first) (newSecond.getD second))

namespace Substitution

/-- Replace the type variables of a type by what `resolve` finds for them, from
left to right.  The result is `none` if nothing is found for any of them. -/
def replaceWith (resolve : TypeVar → StateM Substitution (Option Ty)) :
    Ty → StateM Substitution (Option Ty)
  | .unit => return none
  | .var name => resolve name
  | .arrow domain codomain => do
      let newDomain ← replaceWith resolve domain
      let newCodomain ← replaceWith resolve codomain
      return Ty.rebuild .arrow domain codomain newDomain newCodomain
  | .product first second => do
      let newFirst ← replaceWith resolve first
      let newSecond ← replaceWith resolve second
      return Ty.rebuild .product first second newFirst newSecond

/-- What the type variable `name` stands for once all chains of at most `depth`
bindings have been followed.  The result is `none` if it is free. -/
def resolve : (depth : Nat) → (name : TypeVar) →
    StateM Substitution (Option Ty)
  | 0, _ => return none
  | depth + 1, name => do
      match (← get).get? name with
      | none => return none
      | some ty =>
          let resolved := (← replaceWith (resolve depth) ty).getD ty
          modify (·.remember name resolved)
          return some resolved

/-- A bound on the lengths of the chains of an acyclic substitution. -/
def chainBound (substitution : Substitution) : Nat :=
  substitution.table.size + substitution.cache.size

/-- Apply the substitution to a type.  The result is `none` if no type variable
of the type is bound. -/
def replace? (ty : Ty) : StateM Substitution (Option Ty) := do
  replaceWith (resolve (← get).chainBound) ty

/-- Apply the substitution to a type. -/
def apply (ty : Ty) : StateM Substitution Ty :=
  return (← replace? ty).getD ty

/-- Apply the substitution to a type in place. -/
def applyInPlace : StateT Ty (StateM Substitution) Unit := do
  if let some new ← replace? (← get) then
    set new

/-- A type to which a substitution has been applied. -/
structure Applied where
  ty : Ty
  /-- Whether it is a new type and not the given one. -/
  isNew : Bool
  deriving DecidableEq, Repr

/-- Apply the substitution to a type, and go on with the given type if nothing
changes. -/
def applyOrKeep (ty : Ty) : StateM Substitution Applied := do
  match ← replace? ty with
  | some new => return ⟨new, true⟩
  | none => return ⟨ty, false⟩

end Substitution

end TypedHoles
