import TypedHoles.Term
import TypedHoles.Text

/-!
# Texts of terms

An abstraction extends as far to the right as possible, applications associate
to the left, and operands that are not atomic stand in parentheses.  A variable
is shown by the label of the innermost binder around it inside the shown term.
-/

namespace TypedHoles

namespace Term

/-- How tightly the place binds in which a term is shown. -/
inductive Position where
  /-- Anything may stand here. -/
  | top
  /-- The left side of an application. -/
  | applicant
  /-- The operand of an application or of a projection. -/
  | atom
  deriving DecidableEq, Repr

/-- The text of a variable under the given binders, the innermost first. -/
def varText (scope : List Binder) (name : VarName) : String :=
  match scope.find? fun binder => binder.name = name with
  | some binder => binder.text
  | none => name.text

/-- The text of a term at a position under the given binders, the innermost
first. -/
def textAt (scope : List Binder) (position : Position) : Term → String
  | unit => "unit"
  | var name => varText scope name
  | hole name => name.text
  | pair first second =>
      "(" ++ first.textAt scope .top ++ ", " ++ second.textAt scope .top ++ ")"
  | abs binder body =>
      parenthesizeIf (position ≠ .top)
        ("λ" ++ binder.text ++ ". " ++ body.textAt (binder :: scope) .top)
  | app applicant argument =>
      parenthesizeIf (position = .atom)
        (applicant.textAt scope .applicant ++ " " ++ argument.textAt scope .atom)
  | proj1 argument =>
      parenthesizeIf (position = .atom) ("π₁ " ++ argument.textAt scope .atom)
  | proj2 argument =>
      parenthesizeIf (position = .atom) ("π₂ " ++ argument.textAt scope .atom)

/-- The text of a term. -/
def text (term : Term) : String :=
  term.textAt [] .top

end Term

end TypedHoles
