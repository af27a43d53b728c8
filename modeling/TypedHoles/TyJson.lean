import TypedHoles.Constraint
import TypedHoles.TermJson

/-!
# The JSON form of types, contexts and constraints
-/

namespace TypedHoles

namespace Ty

/-- The JSON form of a type. -/
def toJson : Ty → Json
  | unit => .string "Unit"
  | var name => .variant "Var" name.toJson
  | arrow domain codomain =>
      .variant "Arrow"
        (.object [("domain", domain.toJson), ("codomain", codomain.toJson)])
  | product first second =>
      .variant "Product"
        (.object [("first", first.toJson), ("second", second.toJson)])

/-- Read a type. -/
def ofJson? (json : Json) : Option Ty := do
  let (tag, content) ← json.variant?
  match tag with
  | "Unit" => if content.val.isNull then some unit else none
  | "Var" => return var (← Name.ofJson? content.val)
  | "Arrow" => do
      let [domain, codomain] ← content.complete? ["domain", "codomain"] | none
      return arrow (← ofJson? domain.val) (← ofJson? codomain.val)
  | "Product" => do
      let [first, second] ← content.complete? ["first", "second"] | none
      return product (← ofJson? first.val) (← ofJson? second.val)
  | _ => none
termination_by sizeOf json
decreasing_by all_goals exact Json.Part.sizeOf_lt _

end Ty

/-- The JSON form of a shadow list, given those of its keys and values. -/
def ShadowList.toJson {κ α : Type} (key : κ → Json) (value : α → Json)
    (list : ShadowList κ α) : Json :=
  .object [("entries", .array (list.entries.map fun entry =>
    .array [key entry.1, value entry.2]))]

namespace Context

/-- The JSON form of a context. -/
def toJson (context : Context) : Json :=
  ShadowList.toJson Name.toJson Ty.toJson context

/-- Read a context. -/
def ofJson? (json : Json) : Option Context := do
  let [entries] ← json.complete? ["entries"] | none
  return ⟨← entries.val.list? (Json.pair? Name.ofJson? Ty.ofJson?)⟩

end Context

namespace Constraint

/-- The JSON form of a constraint. -/
def toJson (constraint : Constraint) : Json :=
  .object [("expected", constraint.expected.toJson),
    ("actual", constraint.actual.toJson)]

/-- Read a constraint. -/
def ofJson? (json : Json) : Option Constraint := do
  let [expected, actual] ← json.complete? ["expected", "actual"] | none
  return ⟨← Ty.ofJson? expected.val, ← Ty.ofJson? actual.val⟩

end Constraint

end TypedHoles
