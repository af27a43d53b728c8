import TypedHoles.Json
import TypedHoles.Term

/-!
# The JSON form of terms

A name is its index, a binder a record, and a term a variant.
-/

namespace TypedHoles

namespace Name

variable {kind : NameKind}

/-- The JSON form of a name. -/
def toJson (name : Name kind) : Json :=
  .int name.index.toNat

/-- Read a name. -/
def ofJson? : Json → Option (Name kind)
  | .int index =>
      if 0 ≤ index ∧ index < UInt32.size then
        some ⟨.ofNat index.toNat⟩
      else
        none
  | _ => none

end Name

namespace Binder

/-- The JSON form of a binder. -/
def toJson (binder : Binder) : Json :=
  .object [("name", binder.name.toJson), ("label", .ofLabel binder.label)]

/-- Read a binder.  The label of an object may be missing. -/
def ofJson? (json : Json) : Option Binder := do
  let [some name, label] ← json.record? ["name", "label"] | none
  let name ← Name.ofJson? name.val
  let label ← match label with
    | some label => Json.label? label.val
    | none => some none
  return { name, label }

end Binder

namespace Term

/-- The JSON form of a term. -/
def toJson : Term → Json
  | unit => .string "Unit"
  | var name => .variant "Var" name.toJson
  | abs binder body => .variant "Abs" (.array [binder.toJson, body.toJson])
  | app applicant argument =>
      .variant "App" (.array [applicant.toJson, argument.toJson])
  | pair first second => .variant "Pair" (.array [first.toJson, second.toJson])
  | proj1 argument => .variant "Proj1" argument.toJson
  | proj2 argument => .variant "Proj2" argument.toJson
  | hole name => .variant "Hole" name.toJson

/-- Read a term. -/
def ofJson? (json : Json) : Option Term := do
  let (tag, content) ← json.variant?
  match tag with
  | "Unit" => if content.val.isNull then some unit else none
  | "Var" => return var (← Name.ofJson? content.val)
  | "Abs" => do
      let [binder, body] ← content.items? | none
      return abs (← Binder.ofJson? binder.val) (← ofJson? body.val)
  | "App" => do
      let [applicant, argument] ← content.items? | none
      return app (← ofJson? applicant.val) (← ofJson? argument.val)
  | "Pair" => do
      let [first, second] ← content.items? | none
      return pair (← ofJson? first.val) (← ofJson? second.val)
  | "Proj1" => return proj1 (← ofJson? content.val)
  | "Proj2" => return proj2 (← ofJson? content.val)
  | "Hole" => return hole (← Name.ofJson? content.val)
  | _ => none
termination_by sizeOf json
decreasing_by all_goals exact Json.Part.sizeOf_lt _

end Term

end TypedHoles
