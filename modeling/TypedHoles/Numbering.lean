import TypedHoles.Name

/-!
# Canonical numbering

A numbering maps names to `0, 1, 2, …` in the order in which it first sees
them, so the image of a name is its position among the names seen so far.
Reading names in the same order a second time changes nothing.
-/

namespace TypedHoles

/-- The distinct names seen so far, in the order of their first appearance. -/
structure Numbering (kind : NameKind) where
  seen : List (Name kind)
  deriving DecidableEq, Repr

namespace Numbering

variable {kind : NameKind}

/-- The numbering that has seen no name. -/
def empty : Numbering kind :=
  ⟨[]⟩

/-- The canonical name for `name`, which takes the next position on first
sight. -/
def number (name : Name kind) :
    StateT (Numbering kind) (Except Exhausted) (Name kind) := fun numbering =>
  match numbering.seen.idxOf? name with
  | some position => .ok (⟨.ofNat position⟩, numbering)
  | none =>
      let position : Name kind := ⟨.ofNat numbering.seen.length⟩
      if numbering.seen.length + 1 < UInt32.size then
        .ok (position, ⟨numbering.seen ++ [name]⟩)
      else
        .error .exhausted

/-- Whether every name seen so far is its own canonical name. -/
def isIdentity (numbering : Numbering kind) : Bool :=
  numbering.seen.map (·.index.toNat) == List.range numbering.seen.length

end Numbering

end TypedHoles
