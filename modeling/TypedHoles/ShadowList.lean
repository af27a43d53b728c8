/-!
# Shadowing association lists

A shadow list keeps all its entries, the most recent first.  An entry hides the
older entries for its key, which is the rule of lexical scoping.
-/

namespace TypedHoles

/-- Entries, the most recent first. -/
@[ext]
structure ShadowList (κ α : Type) where
  entries : List (κ × α)
  deriving DecidableEq, Repr

namespace ShadowList

variable {κ α : Type}

/-- The list without entries. -/
def empty : ShadowList κ α :=
  ⟨[]⟩

/-- Add an entry in front of all others. -/
def push (list : ShadowList κ α) (key : κ) (value : α) : ShadowList κ α :=
  ⟨(key, value) :: list.entries⟩

/-- Push the given entries one after the other, so the last one ends up in
front. -/
def ofList (entries : List (κ × α)) : ShadowList κ α :=
  entries.foldl (fun list entry => list.push entry.1 entry.2) empty

/-- The number of entries, hidden ones included. -/
def size (list : ShadowList κ α) : Nat :=
  list.entries.length

/-- Whether there is no entry. -/
def isEmpty (list : ShadowList κ α) : Bool :=
  list.entries.isEmpty

section Lookup

variable [DecidableEq κ]

/-- The value of the most recent entry for `key`. -/
def get? (list : ShadowList κ α) (key : κ) : Option α :=
  (list.entries.find? fun entry => entry.1 = key).map Prod.snd

@[simp]
theorem get?_empty (key : κ) : (empty : ShadowList κ α).get? key = none :=
  rfl

theorem get?_push (list : ShadowList κ α) (key other : κ) (value : α) :
    (list.push key value).get? other =
      if other = key then some value else list.get? other := by
  by_cases same : other = key
  · simp [get?, push, same]
  · simp [get?, push, same, Ne.symm same]

theorem isSome_get?_iff {list : ShadowList κ α} {key : κ} :
    (list.get? key).isSome = true ↔ key ∈ list.entries.map Prod.fst := by
  simp [get?]

/-- The entries that no earlier entry of the list hides. -/
def unhidden : List (κ × α) → List (κ × α)
  | [] => []
  | entry :: older =>
      entry :: (unhidden older).filter fun other => other.1 ≠ entry.1

/-- The entries that are not hidden, the most recent first. -/
def visible (list : ShadowList κ α) : List (κ × α) :=
  unhidden list.entries

end Lookup

end ShadowList

end TypedHoles
