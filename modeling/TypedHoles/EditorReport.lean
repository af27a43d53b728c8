import TypedHoles.EditorState

/-!
# Reports on the state of the editor

A report shows a state on several lines with colours.  Variables are shown by
their labels.
-/

namespace TypedHoles

namespace EditorState

/-- The text of a variable: that of its first binder in the program. -/
def varText (state : EditorState) (name : VarName) : String :=
  match state.term.findBinder? name with
  | some binder => binder.text
  | none => name.text

/-- The text of an action in a report. -/
def actionText (state : EditorState) : Action → String
  | .var name => state.varText name
  | action => action.text

/-- The text of a transition in a report. -/
def transitionText (state : EditorState) : Transition → String
  | .select hole => "select " ++ hole.text
  | .put action => "put " ++ state.actionText action
  | .relabel name _ => "relabel " ++ state.varText name

/-- The lines of a report about the focus. -/
def focusLines (state : EditorState) : List String :=
  match state.focus with
  | none =>
      [Emphasis.heading.apply "focus:" ++ " " ++ Emphasis.dimmed.apply "none"]
  | some focus =>
      [Emphasis.heading.apply "focus:" ++ " " ++
          Emphasis.yellow.apply focus.hole.text ++ " : " ++
          Emphasis.green.apply focus.ty.text,
        Emphasis.heading.apply "context:"] ++
      (focus.context.entries.map fun (name, ty) =>
        "  " ++ Emphasis.red.apply (state.varText name) ++ " : " ++
          Emphasis.green.apply ty.text) ++
      [Emphasis.heading.apply "transitions:"] ++
      (focus.transitions.map fun transition =>
        "  " ++ Emphasis.blue.apply (state.transitionText transition))

/-- The lines of a report. -/
def reportLines (state : EditorState) : List String :=
  [Emphasis.heading.apply "term:" ++ " " ++ state.term.text,
    Emphasis.heading.apply "type:" ++ " " ++ Emphasis.green.apply state.ty.text] ++
  state.focusLines

/-- A report on a state.  Each line is ended. -/
def report (state : EditorState) : String :=
  String.join (state.reportLines.map (· ++ "\n"))

end EditorState

end TypedHoles
