import TypedHoles.ShadowList
import TypedHoles.Ty

/-!
# Contexts

A context lists the variables in scope at a place of a program with their types.
Going below an abstraction adds its variable in front, so looking up a name
finds its innermost binding.
-/

namespace TypedHoles

/-- The variables in scope, the innermost first, with their types. -/
abbrev Context := ShadowList VarName Ty

namespace Context

/-- The context below an abstraction that binds `name : ty`. -/
def extend (context : Context) (name : VarName) (ty : Ty) : Context :=
  context.push name ty

/-- The type of the innermost binding of `name`. -/
def lookup (context : Context) (name : VarName) : Option Ty :=
  context.get? name

/-- The bindings that no inner binding hides, the innermost first. -/
def bindings (context : Context) : List (VarName × Ty) :=
  context.visible

/-- The text of a context, hidden bindings included. -/
def text (context : Context) : String :=
  commaSeparated (context.entries.map fun (name, ty) =>
    name.text ++ " : " ++ ty.text)

end Context

end TypedHoles
