import TypedHoles.Ty

/-!
# Type errors

The reasons for which a program has no type.
-/

namespace TypedHoles

/-- The reason for which two types cannot be made equal. -/
inductive Clash where
  /-- The two types have different shapes. -/
  | mismatch (expected actual : Ty)
  /-- The type variable `name` would have to stand for a type that contains it. -/
  | circularity (name : TypeVar) (ty : Ty)
  deriving DecidableEq, Repr

/-- The message for a clash. -/
def Clash.message : Clash → String
  | mismatch expected actual =>
      "Cannot Unify: Expected `" ++ expected.text ++ "` but got `" ++
        actual.text ++ "`"
  | circularity name ty =>
      "Circularity: `" ++ name.text ++ "` occurs in `" ++ ty.text ++ "`"

/-- The reason for which a program has no type. -/
inductive TypeError where
  /-- Two types that have to be equal cannot be made so. -/
  | clash (reason : Clash)
  /-- A variable occurs outside the scope of a binder for it. -/
  | unbound (name : VarName)
  deriving DecidableEq, Repr

/-- The message for a type error. -/
def TypeError.message : TypeError → String
  | clash reason => reason.message
  | unbound name => "Unbound: " ++ name.text

end TypedHoles
