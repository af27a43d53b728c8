import TypedHoles.Candidates

/-!
# The editor

The editor holds a well-typed program and may be focused on one of its holes.
The focus lists the steps that can be taken from there: the candidates for the
hole and, if wanted, turning to another hole.  Steps give new states; a state
never changes.
-/

namespace TypedHoles

/-- How the editor behaves. -/
structure EditorOptions where
  /-- How variables are checked. -/
  variableCheck : VariableCheck
  /-- Whether a focus also offers to turn to the other holes. -/
  offerSelections : Bool
  deriving DecidableEq, Repr

/-- The options of an editor for which none are given. -/
def EditorOptions.standard : EditorOptions where
  variableCheck := .inProgram
  offerSelections := false

/-- The selected hole and what is known about it. -/
structure Focus where
  hole : HoleName
  ty : Ty
  context : Context
  transitions : List Transition
  deriving DecidableEq, Repr

namespace Focus

/-- Whether an action is among the steps that a focus lists. -/
def offers (focus : Focus) (action : Action) : Bool :=
  focus.transitions.contains (.put action)

/-- The action of a step that puts one. -/
def putAction? : Transition → Option Action
  | .put action => some action
  | _ => none

/-- The actions that a focus offers, in order. -/
def actions (focus : Focus) : List Action :=
  focus.transitions.filterMap putAction?

/-- The text of a focus. -/
def text (focus : Focus) : String :=
  "hole: " ++ focus.hole.text ++ "; type: " ++ focus.ty.text ++
    "; context: " ++ focus.context.text ++ "; transitions: " ++
    commaSeparated (focus.transitions.map Transition.text)

end Focus

/-- A program that is being edited. -/
structure EditorState where
  term : Term
  ty : Ty
  focus : Option Focus
  options : EditorOptions
  deriving DecidableEq, Repr

/-- What is kept of a state when it is saved; the rest follows from it. -/
structure Snapshot where
  term : Term
  hole : Option HoleName
  options : EditorOptions
  deriving DecidableEq, Repr

/-- The first name that stands already in front of it, given the names `seen`
before. -/
def firstRepeated {kind : NameKind} (seen : List (Name kind)) :
    List (Name kind) → Option (Name kind)
  | [] => none
  | name :: names =>
      if name ∈ seen then some name else firstRepeated (name :: seen) names

namespace EditorState

/-- The editor with a program that consists of one hole. -/
def blank : EditorState where
  term := .blank
  ty := .var ⟨0⟩
  focus := none
  options := .standard

/-- Start editing a program, which has to be well typed and to give different
names to its holes. -/
def start (term : Term) (options : EditorOptions) :
    Except EditFailure EditorState :=
  match firstRepeated [] term.holes with
  | some hole => .error (.refused (.duplicateHole hole))
  | none =>
      match infer term with
      | .ok inference =>
          .ok { term, ty := inference.ty, focus := none, options }
      | .error (.illTyped error) => .error (.refused (.illTyped error))
      | .error .exhausted => .error .exhausted

/-- The inference for the program of a state. -/
def inference (state : EditorState) : Except EditFailure Inference :=
  match infer state.term with
  | .ok inference => .ok inference
  | .error (.illTyped error) =>
      .error (.breach (.illTypedProgram state.term error))
  | .error .exhausted => .error .exhausted

/-- The focus on a hole of a program, given its inference. -/
def focusOn (state : EditorState) (inference : Inference) (hole : HoleName) :
    Except EditFailure Focus := do
  let some ty := inference.holeType? hole
    | throw (.breach .holeWithoutType)
  let some context := inference.holeContext? hole
    | throw (.breach .holeWithoutContext)
  let actions ←
    candidates state.term hole ty context state.options.variableCheck
  let selections :=
    if state.options.offerSelections then
      inference.holes.filter (· ≠ hole)
    else
      []
  return {
    hole, ty, context
    transitions := actions.map .put ++ selections.map .select }

/-- Turn to a hole and find out what can be put into it. -/
def select (state : EditorState) (hole : HoleName) :
    Except EditFailure EditorState :=
  if state.term.hasHole hole then do
    let inference ← state.inference
    let focus ← state.focusOn inference hole
    return { state with focus := some focus }
  else
    .error (.refused (.unknownHole hole))

/-- Put an action, which has to be offered, into the selected hole. -/
def put (state : EditorState) (action : Action) :
    Except EditFailure EditorState :=
  match state.focus with
  | none => .error (.refused .unfocused)
  | some focus =>
      if focus.offers action then
        match action.fill state.term focus.hole with
        | .error _ => .error .exhausted
        | .ok term =>
            match infer term with
            | .ok inference =>
                .ok { state with term, ty := inference.ty, focus := none }
            | .error (.illTyped error) =>
                .error (.breach (.illTypedOffer action term error))
            | .error .exhausted => .error .exhausted
      else
        .error (.refused (.notOffered action))

/-- Change how a variable is shown.  Type and focus stay. -/
def relabel (state : EditorState) (name : VarName) (label : Option String) :
    Except EditFailure EditorState :=
  match state.term.relabel? name label with
  | some term => .ok { state with term }
  | none => .error (.refused (.unknownVariable name))

/-- Take a step. -/
def update (state : EditorState) : Transition → Except EditFailure EditorState
  | .select hole => state.select hole
  | .put action => state.put action
  | .relabel name label => state.relabel name label

/-- What is kept of a state. -/
def snapshot (state : EditorState) : Snapshot where
  term := state.term
  hole := state.focus.map Focus.hole
  options := state.options

/-- Check a saved state again and find out what follows from it. -/
def ofSnapshot (snapshot : Snapshot) : Except EditFailure EditorState := do
  let state ← start snapshot.term snapshot.options
  match snapshot.hole with
  | some hole => state.select hole
  | none => return state

/-- The text of a state. -/
def text (state : EditorState) : String :=
  "term: " ++ state.term.text ++ "; type: " ++ state.ty.text ++ "; focus: " ++
    match state.focus with
    | some focus => focus.text
    | none => "unfocused"

end EditorState

end TypedHoles
