import TypedHoles.AnnotatedTermJson
import TypedHoles.EditorState

/-!
# The JSON form of the editor's states

A saved state holds all parts of the state.  Only its program, the selected hole
and the options are read back.
-/

namespace TypedHoles

namespace Action

/-- The JSON form of an action. -/
def toJson : Action → Json
  | unit => .string "Unit"
  | application => .string "Application"
  | abstraction => .string "Abstraction"
  | pair => .string "Pair"
  | proj1 => .string "Proj1"
  | proj2 => .string "Proj2"
  | var name => .variant "Variable" name.toJson

/-- The constructor of the given tag. -/
def ofTag? : String → Option Action
  | "Unit" => some unit
  | "Application" => some application
  | "Abstraction" => some abstraction
  | "Pair" => some pair
  | "Proj1" => some proj1
  | "Proj2" => some proj2
  | _ => none

/-- Read an action. -/
def ofJson? (json : Json) : Option Action := do
  let (tag, content) ← json.variant?
  if tag = "Variable" then
    return var (← Name.ofJson? content.val)
  else if content.val.isNull then
    ofTag? tag
  else
    none

end Action

namespace Transition

/-- The JSON form of a transition. -/
def toJson : Transition → Json
  | select hole => .variant "Select" hole.toJson
  | put action => .variant "Put" action.toJson
  | relabel name label =>
      .variant "Relabel" (.array [name.toJson, .ofLabel label])

/-- Read a transition. -/
def ofJson? (json : Json) : Option Transition := do
  let (tag, content) ← json.variant?
  match tag with
  | "Select" => return select (← Name.ofJson? content.val)
  | "Put" => return put (← Action.ofJson? content.val)
  | "Relabel" => do
      let (name, label) ← content.val.pair? Name.ofJson? Json.label?
      return relabel name label
  | _ => none

end Transition

namespace VariableCheck

/-- The JSON form of a way to check variables. -/
def toJson : VariableCheck → Json
  | inProgram => .string "speculative"
  | byType => .string "unification"

/-- Read a way to check variables. -/
def ofJson? (json : Json) : Option VariableCheck := do
  let (tag, content) ← json.variant?
  if content.val.isNull then
    match tag with
    | "speculative" => some inProgram
    | "unification" => some byType
    | _ => none
  else
    none

end VariableCheck

/-- Read a Boolean. -/
def Json.bool? : Json → Option Bool
  | .bool value => some value
  | _ => none

/-- Read a field that has a value also if it is missing. -/
def Json.fieldOr {α : Type} {json : Json} (read : Json → Option α) (value : α) :
    Option json.Part → Option α
  | some part => read part.val
  | none => some value

namespace EditorOptions

/-- The JSON form of options. -/
def toJson (options : EditorOptions) : Json :=
  .object [("candidate_check", options.variableCheck.toJson),
    ("offer_selections", .bool options.offerSelections)]

/-- Read options.  Those that are missing are the standard ones. -/
def ofJson? (json : Json) : Option EditorOptions := do
  let [check, selections] ←
    json.fields? ["candidate_check", "offer_selections"] 0 | none
  return {
    variableCheck :=
      ← Json.fieldOr VariableCheck.ofJson? standard.variableCheck check
    offerSelections :=
      ← Json.fieldOr Json.bool? standard.offerSelections selections }

end EditorOptions

namespace Focus

/-- The JSON form of a focus. -/
def toJson (focus : Focus) : Json :=
  .object [("hole", focus.hole.toJson), ("ty", focus.ty.toJson),
    ("context", focus.context.toJson),
    ("transitions", .array (focus.transitions.map Transition.toJson))]

/-- Read a focus. -/
def ofJson? (json : Json) : Option Focus := do
  let [hole, ty, context, transitions] ←
    json.complete? ["hole", "ty", "context", "transitions"] | none
  return {
    hole := ← Name.ofJson? hole.val
    ty := ← Ty.ofJson? ty.val
    context := ← Context.ofJson? context.val
    transitions := ← transitions.val.list? Transition.ofJson? }

/-- Read the hole of a focus, or `null` for no focus. -/
def hole? (json : Json) : Option (Option HoleName) :=
  if json.isNull then
    some none
  else do
    let [hole] ← json.complete? ["hole"] | none
    return some (← Name.ofJson? hole.val)

end Focus

/-- Read what is kept of a saved state.  Focus and options may be missing. -/
def Snapshot.ofJson? (json : Json) : Option Snapshot := do
  let [some term, focus, options] ←
    json.fields? ["term", "focus", "options"] 1 | none
  return {
    term := ← Term.ofJson? term.val
    hole := ← Json.fieldOr Focus.hole? none focus
    options := ← Json.fieldOr EditorOptions.ofJson? .standard options }

/-- The JSON form of a state. -/
def EditorState.toJson (state : EditorState) : Json :=
  .object [("term", state.term.toJson), ("ty", state.ty.toJson),
    ("focus", match state.focus with
      | some focus => focus.toJson
      | none => .null),
    ("options", state.options.toJson)]

end TypedHoles
