import TypedHoles.Inference
import TypedHoles.TyJson

/-!
# The JSON form of annotated terms and inferences
-/

namespace TypedHoles

namespace AnnotatedTerm

/-- The JSON form of an annotated term. -/
def toJson : AnnotatedTerm → Json
  | unit => .string "Unit"
  | var name ty =>
      .variant "Var" (.object [("name", name.toJson), ("ty", ty.toJson)])
  | abs binder domain body =>
      .variant "Abs" (.object [("binder", binder.toJson),
        ("domain", domain.toJson), ("body", body.toJson)])
  | app applicant argument ty =>
      .variant "App" (.object [("applicant", applicant.toJson),
        ("argument", argument.toJson), ("ty", ty.toJson)])
  | pair first second ty =>
      .variant "Pair" (.object [("first", first.toJson),
        ("second", second.toJson), ("ty", ty.toJson)])
  | proj1 argument ty second =>
      .variant "Proj1" (.object [("argument", argument.toJson),
        ("ty", ty.toJson), ("second", second.toJson)])
  | proj2 argument ty first =>
      .variant "Proj2" (.object [("argument", argument.toJson),
        ("ty", ty.toJson), ("first", first.toJson)])
  | hole name ty =>
      .variant "Hole" (.object [("name", name.toJson), ("ty", ty.toJson)])

/-- Read an annotated term. -/
def ofJson? (json : Json) : Option AnnotatedTerm := do
  let (tag, content) ← json.variant?
  match tag with
  | "Unit" => if content.val.isNull then some unit else none
  | "Var" => do
      let [name, ty] ← content.members? ["name", "ty"] | none
      return var (← Name.ofJson? name.val) (← Ty.ofJson? ty.val)
  | "Abs" => do
      let [binder, domain, body] ←
        content.members? ["binder", "domain", "body"] | none
      return abs (← Binder.ofJson? binder.val) (← Ty.ofJson? domain.val)
        (← ofJson? body.val)
  | "App" => do
      let [applicant, argument, ty] ←
        content.members? ["applicant", "argument", "ty"] | none
      return app (← ofJson? applicant.val) (← ofJson? argument.val)
        (← Ty.ofJson? ty.val)
  | "Pair" => do
      let [first, second, ty] ←
        content.members? ["first", "second", "ty"] | none
      return pair (← ofJson? first.val) (← ofJson? second.val)
        (← Ty.ofJson? ty.val)
  | "Proj1" => do
      let [argument, ty, second] ←
        content.members? ["argument", "ty", "second"] | none
      return proj1 (← ofJson? argument.val) (← Ty.ofJson? ty.val)
        (← Ty.ofJson? second.val)
  | "Proj2" => do
      let [argument, ty, first] ←
        content.members? ["argument", "ty", "first"] | none
      return proj2 (← ofJson? argument.val) (← Ty.ofJson? ty.val)
        (← Ty.ofJson? first.val)
  | "Hole" => do
      let [name, ty] ← content.members? ["name", "ty"] | none
      return hole (← Name.ofJson? name.val) (← Ty.ofJson? ty.val)
  | _ => none
termination_by sizeOf json
decreasing_by all_goals exact Json.Part.sizeOf_lt _

end AnnotatedTerm

/-- The JSON form of a map from holes, whose keys are the texts of the indices. -/
def OrderedMap.toJson {α : Type} (value : α → Json)
    (map : OrderedMap HoleName α) : Json :=
  .object (map.entries.map fun entry =>
    (toString entry.1.index.toNat, value entry.2))

/-- The JSON form of an inference. -/
def Inference.toJson (inference : Inference) : Json :=
  .object [("term", inference.term.toJson), ("ty", inference.ty.toJson),
    ("hole_types", inference.holeTypes.toJson Ty.toJson),
    ("hole_contexts", inference.holeContexts.toJson Context.toJson)]

end TypedHoles
