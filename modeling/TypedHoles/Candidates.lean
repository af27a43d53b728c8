import TypedHoles.EditFailure
import TypedHoles.Inference

/-!
# Candidates for a hole

The candidates for a hole are the actions after which the program is still well
typed.  A constructor is tried on a copy of the program.  A variable is either
tried in the same way, or its type is unified with the type of the hole, which is
less work.
-/

namespace TypedHoles

/-- How variables are checked. -/
inductive VariableCheck where
  /-- Put the variable into a copy of the program and infer its type. -/
  | inProgram
  /-- Unify the type of the variable with the type of the hole. -/
  | byType
  deriving DecidableEq, Repr

/-- Whether a program is well typed after an action has been put into a hole. -/
def Action.fits (action : Action) (term : Term) (hole : HoleName) :
    Except Exhausted Bool := do
  match infer (← action.fill term hole) with
  | .ok _ => return true
  | .error (.illTyped _) => return false
  | .error .exhausted => throw .exhausted

/-- Unify two types on their own. -/
def unifyAlone (left right : Ty) : Except Clash Unit :=
  match (Unify.unify left right).run .empty with
  | .ok _ _ => .ok ()
  | .error clash _ => .error clash

/-- Whether an action is a candidate for a hole of the given type and context. -/
def Action.accepts (action : Action) (term : Term) (hole : HoleName) (ty : Ty)
    (context : Context) (check : VariableCheck) : Except EditFailure Bool :=
  match check, action with
  | .byType, .var name =>
      match context.lookup name with
      | some binding => .ok (unifyAlone binding ty).isOk
      | none => .error (.breach .unboundCandidate)
  | _, action => (action.fits term hole).mapError fun _ => .exhausted

/-- Keep the actions that pass a check, which is made in order. -/
def Action.keep (check : Action → Except EditFailure Bool) :
    List Action → Except EditFailure (List Action)
  | [] => return []
  | action :: actions => do
      let accepted ← check action
      let others ← keep check actions
      return if accepted then action :: others else others

/-- All actions that may be candidates in a context: the constructors, then the
variables that are not hidden, the innermost first. -/
def Context.actions (context : Context) : List Action :=
  Action.constructors ++ context.bindings.map fun binding => .var binding.1

/-- The actions after which a program is still well typed, for a hole of the
given type and context. -/
def candidates (term : Term) (hole : HoleName) (ty : Ty) (context : Context)
    (check : VariableCheck) : Except EditFailure (List Action) :=
  Action.keep (fun action => action.accepts term hole ty context check)
    context.actions

end TypedHoles
