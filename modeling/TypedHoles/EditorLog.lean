import TypedHoles.EditorState
import TypedHoles.InferenceLog

/-!
# What the editor logs

The events of a step are those of the inferences it makes, on copies of the
program included, the candidates it rejects, and its outcome.
-/

namespace TypedHoles

/-- Something that happens in the editor. -/
inductive EditorEvent where
  | inference (event : InferenceEvent)
  /-- An action makes a copy of the program ill typed. -/
  | rejectedInPlace (action : Action) (hole : HoleName) (error : TypeError)
  /-- The type of a variable does not fit the type of the hole. -/
  | rejectedAlone (action : Action) (clash : Clash)
  /-- A step is about to be taken. -/
  | updating (transition : Transition)
  /-- A hole has been selected. -/
  | selected (focus : Focus)
  /-- An action has been put into a hole. -/
  | filled (action : Action) (hole : HoleName) (term : Term) (ty : Ty)

/-- The log record of an event. -/
def EditorEvent.record : EditorEvent → LogRecord
  | inference event => event.record
  | rejectedInPlace action hole error =>
      ⟨.debug, "Rejected " ++ action.text ++ " for " ++ hole.text ++ ": " ++
        error.message⟩
  | rejectedAlone action clash =>
      ⟨.debug, "Rejected " ++ action.text ++ ": " ++ clash.message⟩
  | updating transition => ⟨.debug, "Update with " ++ transition.text⟩
  | selected focus =>
      ⟨.debug, "Selected " ++ focus.hole.text ++ " : " ++ focus.ty.text ++
        " with " ++ toString focus.transitions.length ++ " transitions"⟩
  | filled action hole term ty =>
      ⟨.debug, "Put " ++ action.text ++ " into " ++ hole.text ++ ": " ++
        term.text ++ " : " ++ ty.text⟩

/-- The events of inferring the type of a term. -/
def Term.inferenceInEditor (term : Term) : List EditorEvent :=
  term.inferenceEvents.map .inference

/-- The events of finding out whether an action can be put into a hole. -/
def Action.fitsEvents (action : Action) (term : Term) (hole : HoleName) :
    List EditorEvent :=
  match action.fill term hole with
  | .error _ => []
  | .ok filled =>
      filled.inferenceInEditor ++
        match infer filled with
        | .error (.illTyped error) => [.rejectedInPlace action hole error]
        | _ => []

/-- The events of checking an action. -/
def Action.acceptsEvents (action : Action) (term : Term) (hole : HoleName)
    (ty : Ty) (context : Context) (check : VariableCheck) : List EditorEvent :=
  match check, action with
  | .byType, .var name =>
      match (context.lookup name).map (unifyAlone · ty) with
      | some (.error clash) => [.rejectedAlone action clash]
      | _ => []
  | _, action => action.fitsEvents term hole

/-- The events of checking actions in order. -/
def Action.keepEvents (check : Action → Except EditFailure Bool)
    (events : Action → List EditorEvent) : List Action → List EditorEvent
  | [] => []
  | action :: actions =>
      events action ++
        match check action with
        | .ok _ => keepEvents check events actions
        | .error _ => []

/-- The events of finding the candidates for a hole. -/
def candidatesEvents (term : Term) (hole : HoleName) (ty : Ty)
    (context : Context) (check : VariableCheck) : List EditorEvent :=
  Action.keepEvents (fun action => action.accepts term hole ty context check)
    (fun action => action.acceptsEvents term hole ty context check)
    context.actions

namespace EditorState

/-- The events of starting to edit a program. -/
def startEvents (term : Term) : List EditorEvent :=
  match firstRepeated [] term.holes with
  | some _ => []
  | none => term.inferenceInEditor

/-- The events of finding the focus on a hole. -/
def focusOnEvents (state : EditorState) (inference : Inference)
    (hole : HoleName) : List EditorEvent :=
  match inference.holeType? hole, inference.holeContext? hole with
  | some ty, some context =>
      candidatesEvents state.term hole ty context
        state.options.variableCheck ++
        match state.focusOn inference hole with
        | .ok focus => [.selected focus]
        | .error _ => []
  | _, _ => []

/-- The events of turning to a hole. -/
def selectEvents (state : EditorState) (hole : HoleName) : List EditorEvent :=
  if state.term.hasHole hole then
    state.term.inferenceInEditor ++
      match state.inference with
      | .ok inference => state.focusOnEvents inference hole
      | .error _ => []
  else
    []

/-- The events of putting an action into the selected hole. -/
def putEvents (state : EditorState) (action : Action) : List EditorEvent :=
  match state.focus with
  | none => []
  | some focus =>
      if focus.offers action then
        match action.fill state.term focus.hole with
        | .error _ => []
        | .ok term =>
            term.inferenceInEditor ++
              match infer term with
              | .ok inference =>
                  [.filled action focus.hole term inference.ty]
              | .error _ => []
      else
        []

/-- The events of taking a step. -/
def updateEvents (state : EditorState) (transition : Transition) :
    List EditorEvent :=
  .updating transition ::
    match transition with
    | .select hole => state.selectEvents hole
    | .put action => state.putEvents action
    | .relabel _ _ => []

/-- The events of checking a saved state. -/
def ofSnapshotEvents (snapshot : Snapshot) : List EditorEvent :=
  startEvents snapshot.term ++
    match start snapshot.term snapshot.options, snapshot.hole with
    | .ok state, some hole => state.selectEvents hole
    | _, _ => []

end EditorState

end TypedHoles
