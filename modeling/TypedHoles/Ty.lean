import TypedHoles.Numbering
import TypedHoles.Text

/-!
# Types

The types of programs: the unit type, type variables, functions and pairs.
Traversals read a type from left to right.
-/

namespace TypedHoles

/-- A type without quantifiers. -/
inductive Ty where
  | unit
  | var (name : TypeVar)
  | arrow (domain codomain : Ty)
  | product (first second : Ty)
  deriving DecidableEq, Repr

/-- A place of a type that holds no further types. -/
inductive TyLeaf where
  | unit
  | var (name : TypeVar)
  deriving DecidableEq, Repr

/-- The text of a leaf. -/
def TyLeaf.text : TyLeaf → String
  | .unit => "Unit"
  | .var name => name.text

namespace Ty

/-- The number of constructors of a type. -/
def size : Ty → Nat
  | unit => 1
  | var _ => 1
  | arrow domain codomain => domain.size + codomain.size + 1
  | product first second => first.size + second.size + 1

/-- The occurrences of type variables, from left to right. -/
def occurrences : Ty → List TypeVar
  | unit => []
  | var name => [name]
  | arrow domain codomain => domain.occurrences ++ codomain.occurrences
  | product first second => first.occurrences ++ second.occurrences

/-- Whether the type variable `name` occurs. -/
def contains (name : TypeVar) : Ty → Bool
  | unit => false
  | var other => other = name
  | arrow domain codomain => domain.contains name || codomain.contains name
  | product first second => first.contains name || second.contains name

theorem contains_iff {name : TypeVar} {ty : Ty} :
    ty.contains name = true ↔ name ∈ ty.occurrences := by
  induction ty with
  | unit => simp [contains, occurrences]
  | var other => simp [contains, occurrences, eq_comm]
  | arrow domain codomain domainIh codomainIh =>
      simp [contains, occurrences, domainIh, codomainIh]
  | product first second firstIh secondIh =>
      simp [contains, occurrences, firstIh, secondIh]

/-- Append to `names` the type variables that it does not list yet, in the order
of their first occurrence. -/
def extendVars (names : List TypeVar) (ty : Ty) : List TypeVar :=
  ty.occurrences.foldl
    (fun names name => if name ∈ names then names else names ++ [name]) names

/-- The type variables in the order of their first occurrence. -/
def vars (ty : Ty) : List TypeVar :=
  ty.extendVars []

/-- Replace every occurrence of the type variable `name` by `replacement`. -/
def substitute (ty : Ty) (name : TypeVar) (replacement : Ty) : Ty :=
  match ty with
  | unit => unit
  | var other => if other = name then replacement else var other
  | arrow domain codomain =>
      arrow (domain.substitute name replacement)
        (codomain.substitute name replacement)
  | product first second =>
      product (first.substitute name replacement)
        (second.substitute name replacement)

/-- Replace every type variable by the result of an action, from left to
right. -/
def traverseVars {m : Type → Type} [Monad m] (action : TypeVar → m TypeVar) :
    Ty → m Ty
  | unit => pure unit
  | var name => return var (← action name)
  | arrow domain codomain =>
      return arrow (← domain.traverseVars action)
        (← codomain.traverseVars action)
  | product first second =>
      return product (← first.traverseVars action)
        (← second.traverseVars action)

/-- Rename the type variables through a numbering. -/
def number : Ty → StateT (Numbering .typeVar) (Except Exhausted) Ty :=
  traverseVars Numbering.number

/-- Rename the type variables to `0, 1, 2, …` in the order of their first
occurrence. -/
def canonical (ty : Ty) : Except Exhausted Ty :=
  ty.number.run' .empty

/-- The leaves from left to right up to the first type variable at which the
reader stops, and whether it stopped. -/
def leavesUntil (stop : TypeVar → Bool) : Ty → List TyLeaf × Bool
  | unit => ([.unit], false)
  | var name => ([.var name], stop name)
  | arrow first second | product first second =>
      let (leaves, stopped) := first.leavesUntil stop
      if stopped then
        (leaves, true)
      else
        let (rest, stopped) := second.leavesUntil stop
        (leaves ++ rest, stopped)

/-- Replace type variables by `replacement` from left to right, up to the first
one at which the writer stops, and say whether it stopped.  That type variable
and those to its right stay. -/
def overwriteUntil (stop : TypeVar → Bool) (replacement : TypeVar) (ty : Ty) :
    Ty × Bool :=
  (ty.traverseVars write).run false
where
  /-- Write at one type variable, given whether the writer has stopped. -/
  write (name : TypeVar) : StateM Bool TypeVar := do
    if ← get then
      return name
    else if stop name then
      set true
      return name
    else
      return replacement

/-- Whether the type is a function type. -/
def isArrow : Ty → Bool
  | arrow _ _ => true
  | _ => false

/-- Whether the type is built from other types. -/
def isComposite : Ty → Bool
  | arrow _ _ => true
  | product _ _ => true
  | _ => false

/-- The text of a type.  Arrows associate to the right, and components of a
product that are composite stand in parentheses. -/
def text : Ty → String
  | unit => "Unit"
  | var name => name.text
  | arrow domain codomain =>
      parenthesizeIf domain.isArrow domain.text ++ " -> " ++ codomain.text
  | product first second =>
      parenthesizeIf first.isComposite first.text ++ " * " ++
        parenthesizeIf second.isComposite second.text

end Ty

end TypedHoles
