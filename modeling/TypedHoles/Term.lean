import TypedHoles.Numbering

/-!
# Programs with holes

A term is a program of the simply typed lambda calculus with pairs in which some
places are still open: the holes.  Traversals visit a node before its children
and the children from left to right.
-/

namespace TypedHoles

/-- The binding occurrence of a variable.  Its name is the identity of the
variable, its label only changes how the variable is shown. -/
structure Binder where
  name : VarName
  label : Option String
  deriving DecidableEq, Repr

/-- The text of a binder: its label, or its name if it has none. -/
def Binder.text (binder : Binder) : String :=
  binder.label.getD binder.name.text

/-- A possibly incomplete program. -/
inductive Term where
  | unit
  | var (name : VarName)
  | abs (binder : Binder) (body : Term)
  | app (applicant argument : Term)
  | pair (first second : Term)
  | proj1 (argument : Term)
  | proj2 (argument : Term)
  | hole (name : HoleName)
  deriving DecidableEq, Repr

namespace Term

/-- The program that consists of one hole. -/
def blank : Term :=
  hole ⟨0⟩

/-- All subterms, a term before its parts and the parts from left to right. -/
def preorder : Term → List Term
  | unit => [unit]
  | var name => [var name]
  | abs binder body => abs binder body :: body.preorder
  | app applicant argument =>
      app applicant argument :: (applicant.preorder ++ argument.preorder)
  | pair first second => pair first second :: (first.preorder ++ second.preorder)
  | proj1 argument => proj1 argument :: argument.preorder
  | proj2 argument => proj2 argument :: argument.preorder
  | hole name => [hole name]

/-- The name of this node if it is a hole. -/
def holeName? : Term → Option HoleName
  | hole name => some name
  | _ => none

/-- The binder of this node if it is an abstraction. -/
def binder? : Term → Option Binder
  | abs binder _ => some binder
  | _ => none

/-- The variable that this node mentions or binds. -/
def varName? : Term → Option VarName
  | var name => some name
  | abs binder _ => some binder.name
  | _ => none

/-- The names of the holes, in order of traversal. -/
def holes (term : Term) : List HoleName :=
  term.preorder.filterMap holeName?

/-- Whether a hole of this name occurs. -/
def hasHole (term : Term) (name : HoleName) : Bool :=
  term.holes.contains name

/-- The binders, in order of traversal. -/
def binders (term : Term) : List Binder :=
  term.preorder.filterMap binder?

/-- The first binder of the variable `name`. -/
def findBinder? (term : Term) (name : VarName) : Option Binder :=
  term.binders.find? fun binder => binder.name = name

/-- The largest variable that is mentioned or bound anywhere. -/
def maxVar? (term : Term) : Option VarName :=
  (term.preorder.filterMap varName?).max?

/-- The largest name of a hole. -/
def maxHole? (term : Term) : Option HoleName :=
  term.holes.max?

/-- Replace the first hole called `name` by `fragment`, if there is one. -/
def fillHole? (term : Term) (name : HoleName) (fragment : Term) : Option Term :=
  match term with
  | unit => none
  | var _ => none
  | hole other => if other = name then some fragment else none
  | abs binder body => (body.fillHole? name fragment).map (abs binder)
  | proj1 argument => (argument.fillHole? name fragment).map proj1
  | proj2 argument => (argument.fillHole? name fragment).map proj2
  | app applicant argument =>
      match applicant.fillHole? name fragment with
      | some applicant => some (app applicant argument)
      | none => (argument.fillHole? name fragment).map (app applicant)
  | pair first second =>
      match first.fillHole? name fragment with
      | some first => some (pair first second)
      | none => (second.fillHole? name fragment).map (pair first)

/-- Give the first binder of the variable `name` the label `label`, if there is
one. -/
def relabel? (term : Term) (name : VarName) (label : Option String) :
    Option Term :=
  match term with
  | unit => none
  | var _ => none
  | hole _ => none
  | abs binder body =>
      if binder.name = name then
        some (abs { binder with label } body)
      else
        (body.relabel? name label).map (abs binder)
  | proj1 argument => (argument.relabel? name label).map proj1
  | proj2 argument => (argument.relabel? name label).map proj2
  | app applicant argument =>
      match applicant.relabel? name label with
      | some applicant => some (app applicant argument)
      | none => (argument.relabel? name label).map (app applicant)
  | pair first second =>
      match first.relabel? name label with
      | some first => some (pair first second)
      | none => (second.relabel? name label).map (pair first)

/-- Rename the holes through a numbering. -/
def numberHoles : Term → StateT (Numbering .hole) (Except Exhausted) Term
  | unit => pure unit
  | var name => pure (var name)
  | hole name => return hole (← Numbering.number name)
  | abs binder body => return abs binder (← body.numberHoles)
  | proj1 argument => return proj1 (← argument.numberHoles)
  | proj2 argument => return proj2 (← argument.numberHoles)
  | app applicant argument =>
      return app (← applicant.numberHoles) (← argument.numberHoles)
  | pair first second =>
      return pair (← first.numberHoles) (← second.numberHoles)

/-- Rename the holes to `0, 1, 2, …` in order of traversal, and return the
numbering, too. -/
def canonicalHoles (term : Term) :
    Except Exhausted (Term × Numbering .hole) :=
  term.numberHoles.run .empty

end Term

end TypedHoles
