/-!
# Maps in order of insertion

An ordered map lists each key once, in the order in which the keys were first
inserted.  Inserting a key again changes its value and keeps its place.
-/

namespace TypedHoles

/-- Entries with pairwise different keys, in order of first insertion. -/
structure OrderedMap (κ α : Type) where
  entries : List (κ × α)
  nodup : (entries.map Prod.fst).Nodup

namespace OrderedMap

variable {κ α : Type}

instance [DecidableEq κ] [DecidableEq α] : DecidableEq (OrderedMap κ α) :=
  fun first second =>
    decidable_of_iff (first.entries = second.entries) (by
      cases first
      cases second
      simp)

/-- The map without entries. -/
def empty : OrderedMap κ α :=
  ⟨[], by simp⟩

/-- The keys, in order of first insertion. -/
def keys (map : OrderedMap κ α) : List κ :=
  map.entries.map Prod.fst

/-- The number of keys. -/
def size (map : OrderedMap κ α) : Nat :=
  map.entries.length

section Lookup

variable [DecidableEq κ]

/-- The value of the first entry for `key`. -/
def find? (key : κ) (entries : List (κ × α)) : Option α :=
  (entries.find? fun entry => entry.1 = key).map Prod.snd

/-- The value of `key`. -/
def get? (map : OrderedMap κ α) (key : κ) : Option α :=
  find? key map.entries

/-- Give `key` the value `value`: in place if the key is there, else at the
end. -/
def put (key : κ) (value : α) : List (κ × α) → List (κ × α)
  | [] => [(key, value)]
  | entry :: rest =>
      if entry.1 = key then
        (key, value) :: rest
      else
        entry :: put key value rest

theorem mem_keys_put {key other : κ} {value : α} {entries : List (κ × α)} :
    other ∈ (put key value entries).map Prod.fst ↔
      other = key ∨ other ∈ entries.map Prod.fst := by
  induction entries with
  | nil => simp [put]
  | cons entry rest ih =>
      by_cases same : entry.1 = key
      · simp [put, same]
      · simp only [put, same, if_false, List.map_cons, List.mem_cons, ih]
        exact or_left_comm

theorem nodup_put (key : κ) (value : α) {entries : List (κ × α)}
    (nodup : (entries.map Prod.fst).Nodup) :
    ((put key value entries).map Prod.fst).Nodup := by
  induction entries with
  | nil => simp [put]
  | cons entry rest ih =>
      obtain ⟨notInRest, restNodup⟩ := List.nodup_cons.mp nodup
      by_cases same : entry.1 = key
      · simpa [put, same] using nodup
      · rw [put, if_neg same, List.map_cons, List.nodup_cons, mem_keys_put]
        exact ⟨not_or.mpr ⟨same, notInRest⟩, ih restNodup⟩

/-- The map with the value of `key` set to `value`. -/
def insert (map : OrderedMap κ α) (key : κ) (value : α) : OrderedMap κ α :=
  ⟨put key value map.entries, nodup_put key value map.nodup⟩

theorem find?_put (key other : κ) (value : α) (entries : List (κ × α)) :
    find? other (put key value entries) =
      if other = key then some value else find? other entries := by
  induction entries with
  | nil =>
      by_cases wanted : other = key
      · simp [find?, put, wanted]
      · simp [find?, put, wanted, Ne.symm wanted]
  | cons entry rest ih =>
      simp only [find?] at ih
      by_cases same : entry.1 = key
      · by_cases wanted : other = key
        · simp [find?, put, same, wanted]
        · simp [find?, put, same, Ne.symm wanted, wanted]
      · by_cases found : entry.1 = other
        · have differs : ¬ other = key := found ▸ same
          simp [find?, put, found, differs]
        · simp [find?, put, same, found, ih]

@[simp]
theorem get?_empty (key : κ) : (empty : OrderedMap κ α).get? key = none :=
  rfl

theorem get?_insert (map : OrderedMap κ α) (key other : κ) (value : α) :
    (map.insert key value).get? other =
      if other = key then some value else map.get? other :=
  find?_put key other value map.entries

theorem mem_keys_insert (map : OrderedMap κ α) (key other : κ) (value : α) :
    other ∈ (map.insert key value).keys ↔ other = key ∨ other ∈ map.keys :=
  mem_keys_put

theorem isSome_get?_iff (map : OrderedMap κ α) (key : κ) :
    (map.get? key).isSome ↔ key ∈ map.keys := by
  simp [get?, find?, keys]

/-- The map made by inserting the given entries one after the other. -/
def ofList (entries : List (κ × α)) : OrderedMap κ α :=
  entries.foldl (fun map entry => map.insert entry.1 entry.2) empty

end Lookup

end OrderedMap

end TypedHoles
