import TypedHoles.Action
import TypedHoles.TypeError

/-!
# Failures of the editor

The editor refuses a step for one of several reasons, and it stops if the names
of a kind have been used up.  A breach says that a state does not fit its own
program, which cannot happen to states that the editor has made.
-/

namespace TypedHoles

/-- The reason for which the editor refuses a program or a step. -/
inductive EditError where
  | unknownHole (hole : HoleName)
  | duplicateHole (hole : HoleName)
  | unfocused
  | notOffered (action : Action)
  | unknownVariable (name : VarName)
  | illTyped (error : TypeError)
  deriving DecidableEq, Repr

/-- The message for a refusal. -/
def EditError.message : EditError → String
  | unknownHole hole => "Unknown hole: " ++ hole.text
  | duplicateHole hole =>
      "Duplicate hole: " ++ hole.text ++ " occurs more than once"
  | unfocused => "No hole is selected"
  | notOffered action =>
      "Not offered: `" ++ action.text ++ "` cannot be put into the selected hole"
  | unknownVariable name => "Unknown variable: " ++ name.text
  | illTyped error => error.message

/-- A way in which a state does not fit its own program. -/
inductive Breach where
  /-- The program of the state has no type. -/
  | illTypedProgram (term : Term) (error : TypeError)
  /-- Inference found no type for a hole of the program. -/
  | holeWithoutType
  /-- Inference found no context for a hole of the program. -/
  | holeWithoutContext
  /-- A candidate is not bound in the context that lists it. -/
  | unboundCandidate
  /-- An action that was offered makes the program ill typed. -/
  | illTypedOffer (action : Action) (term : Term) (error : TypeError)
  deriving DecidableEq, Repr

/-- The message for a breach. -/
def Breach.message : Breach → String
  | illTypedProgram term error =>
      "committed term " ++ term.text ++ " is ill typed: " ++ error.message
  | holeWithoutType => "every hole of an inferred term has a type"
  | holeWithoutContext => "every hole of an inferred term has a context"
  | unboundCandidate => "candidate variable is bound in the hole's context"
  | illTypedOffer action term error =>
      "offered action " ++ action.text ++ " produced ill typed " ++ term.text ++
        ": " ++ error.message

/-- The reason for which the editor has no next state. -/
inductive EditFailure where
  /-- The program or the step is refused. -/
  | refused (error : EditError)
  /-- The names of a kind have been used up. -/
  | exhausted
  /-- The state does not fit its own program. -/
  | breach (breach : Breach)
  deriving DecidableEq, Repr

end TypedHoles
