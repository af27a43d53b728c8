import TypedHoles.NameSupply
import TypedHoles.TermText

/-!
# Actions

An action says what is put into a hole: a constructor with fresh holes at its
open places, or a variable.
-/

namespace TypedHoles

/-- Something that can be put into a hole. -/
inductive Action where
  | unit
  | application
  | abstraction
  | pair
  | proj1
  | proj2
  | var (name : VarName)
  deriving DecidableEq, Repr

/-- Where the names of a fragment come from. -/
structure Supplies where
  vars : NameSupply .var
  holes : NameSupply .hole
  deriving DecidableEq, Repr

/-- The supplies of names that do not occur in a term. -/
def Term.supplies (term : Term) : Except Exhausted Supplies := do
  let vars ← NameSupply.after term.maxVar?
  let holes ← NameSupply.after term.maxHole?
  return { vars, holes }

/-- Computations that draw names for fragments.  Those that were drawn stay so
also if the computation fails. -/
abbrev Draw := EStateM Exhausted Supplies

namespace Draw

/-- A fresh variable. -/
def freshVar : Draw VarName := fun supplies =>
  match supplies.vars.fresh with
  | .ok (name, vars) => .ok name { supplies with vars }
  | .error reason => .error reason supplies

/-- A hole with a fresh name. -/
def freshHole : Draw Term := fun supplies =>
  match supplies.holes.fresh with
  | .ok (name, holes) => .ok (.hole name) { supplies with holes }
  | .error reason => .error reason supplies

end Draw

namespace Action

open Draw

/-- The text of an action. -/
def text : Action → String
  | unit => "unit"
  | application => "? ?"
  | abstraction => "λ. ?"
  | pair => "(?, ?)"
  | proj1 => "π₁ ?"
  | proj2 => "π₂ ?"
  | var name => name.text

/-- The actions that put a constructor, in the order in which they are
offered. -/
def constructors : List Action :=
  [unit, application, abstraction, pair, proj1, proj2]

/-- The fragment for which an action stands, with a fresh hole at each of its open
places.  An abstraction draws its variable before the hole of its body. -/
def fragment : Action → Draw Term
  | unit => return .unit
  | var name => return .var name
  | abstraction => do
      let name ← freshVar
      return .abs ⟨name, none⟩ (← freshHole)
  | application => do
      let applicant ← freshHole
      return .app applicant (← freshHole)
  | pair => do
      let first ← freshHole
      return .pair first (← freshHole)
  | proj1 => return .proj1 (← freshHole)
  | proj2 => return .proj2 (← freshHole)

/-- Put an action into the hole called `name`, and rename all holes to
`0, 1, 2, …` in order of traversal. -/
def fill (action : Action) (term : Term) (name : HoleName) :
    Except Exhausted Term := do
  let supplies ← term.supplies
  match action.fragment.run supplies with
  | .error reason _ => throw reason
  | .ok fragment _ =>
      let filled := (term.fillHole? name fragment).getD term
      return (← filled.canonicalHoles).1

end Action

/-- A step of the editor. -/
inductive Transition where
  /-- Turn to a hole. -/
  | select (hole : HoleName)
  /-- Put an action into the selected hole. -/
  | put (action : Action)
  /-- Give the binder of a variable another label, or none. -/
  | relabel (name : VarName) (label : Option String)
  deriving DecidableEq, Repr

/-- The text of a transition. -/
def Transition.text : Transition → String
  | select hole => "select " ++ hole.text
  | put action => "put " ++ action.text
  | relabel name (some label) => "relabel " ++ name.text ++ " as " ++ label
  | relabel name none => "unlabel " ++ name.text

end TypedHoles
