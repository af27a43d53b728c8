import TypedHoles.Name

/-!
# Supplies of fresh names

A supply hands out names in increasing order.  It lives as long as the pass
that draws from it, so names are fresh within that pass only.
-/

namespace TypedHoles

/-- The names from `next` on are still to be handed out. -/
structure NameSupply (kind : NameKind) where
  next : Name kind
  deriving DecidableEq, Repr

namespace NameSupply

variable {kind : NameKind}

/-- The supply that has not handed out any name. -/
def full : NameSupply kind :=
  ⟨⟨0⟩⟩

/-- A supply that never yields `largest` or a smaller name. -/
def after : Option (Name kind) → Except Exhausted (NameSupply kind)
  | none => .ok full
  | some largest => largest.succ?.map NameSupply.mk

/-- Draw the next name.  The last name of all is never drawn, because no supply
could follow it. -/
def fresh (supply : NameSupply kind) :
    Except Exhausted (Name kind × NameSupply kind) :=
  supply.next.succ?.map fun next => (supply.next, ⟨next⟩)

/-- The number of names handed out or skipped so far. -/
def count (supply : NameSupply kind) : Nat :=
  supply.next.index.toNat

theorem fresh_eq_ok_iff {supply rest : NameSupply kind} {name : Name kind} :
    supply.fresh = .ok (name, rest) ↔
      name = supply.next ∧ rest.count = supply.count + 1 := by
  simp only [fresh, count, ← Name.succ?_eq_ok_iff]
  cases supply.next.succ? with
  | error _ => simp [Except.map]
  | ok next =>
      cases rest
      simp [Except.map, eq_comm]

theorem fresh_eq_error_iff {supply : NameSupply kind} :
    supply.fresh = .error .exhausted ↔ supply.count = UInt32.size - 1 := by
  simp only [fresh, count, ← Name.succ?_eq_error_iff]
  cases supply.next.succ? with
  | error _ => simp [Except.map]
  | ok next => simp [Except.map]

end NameSupply

end TypedHoles
