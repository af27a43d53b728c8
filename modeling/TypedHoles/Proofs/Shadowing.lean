import Mathlib.Data.List.Nodup
import TypedHoles.ShadowList

/-!
# Entries that hide others

A shadow list shows of each key the entry that has been inserted last, which is also the
one that a look-up finds.  This holds of all lists, in whatever way they have been built
up from collected and single entries.
-/

namespace TypedHoles

namespace ShadowList

variable {κ α : Type}

/-! ## Insertion -/

theorem entries_foldl_push (items : List (κ × α)) (list : ShadowList κ α) :
    (items.foldl (fun list entry => list.push entry.1 entry.2) list).entries =
      items.reverse ++ list.entries := by
  induction items generalizing list with
  | nil => rfl
  | cons item items ih =>
      rw [List.foldl_cons, ih, push, List.reverse_cons, List.append_assoc]
      rfl

/-- The entry that is collected last stands in front. -/
theorem entries_ofList (items : List (κ × α)) : (ofList items).entries = items.reverse := by
  rw [ofList, entries_foldl_push, empty, List.append_nil]

/-- Whether a list has been built by inserting the given items, the oldest first: some of
them were collected into a new list, and the others were pushed one after the other, be it
in place or onto a copy. -/
inductive BuiltBy : List (κ × α) → ShadowList κ α → Prop
  | collect (items : List (κ × α)) : BuiltBy items (ofList items)
  | push {items : List (κ × α)} {list : ShadowList κ α} (built : BuiltBy items list)
      (key : κ) (value : α) : BuiltBy (items ++ [(key, value)]) (list.push key value)

theorem BuiltBy.entries_eq {items : List (κ × α)} {list : ShadowList κ α}
    (built : BuiltBy items list) : list.entries = items.reverse := by
  induction built with
  | collect items => exact entries_ofList items
  | push _ key value ih => rw [ShadowList.push, ih, List.reverse_concat]

/-- Whether the last of the items for `key` has the value `value`. -/
def MostRecent (items : List (κ × α)) (key : κ) (value : α) : Prop :=
  ∃ earlier later, items = earlier ++ (key, value) :: later ∧ key ∉ later.map Prod.fst

variable [DecidableEq κ]

/-! ## Entries that are not hidden -/

theorem mem_unhidden_iff {entries : List (κ × α)} {key : κ} {value : α} :
    (key, value) ∈ unhidden entries ↔
      (entries.find? fun entry => entry.1 = key).map Prod.snd = some value := by
  induction entries with
  | nil => simp [unhidden]
  | cons entry older ih =>
      obtain ⟨first, stored⟩ := entry
      by_cases same : first = key
      · simp [unhidden, same, eq_comm]
      · have other : ¬ key = first := Ne.symm same
        simpa [unhidden, same, other] using ih

theorem mem_visible_iff {list : ShadowList κ α} {key : κ} {value : α} :
    (key, value) ∈ list.visible ↔ list.get? key = some value :=
  mem_unhidden_iff

theorem sublist_unhidden (entries : List (κ × α)) : (unhidden entries).Sublist entries := by
  induction entries with
  | nil => exact .slnil
  | cons entry older ih => exact (List.filter_sublist.trans ih).cons_cons entry

theorem nodup_keys_unhidden (entries : List (κ × α)) :
    ((unhidden entries).map Prod.fst).Nodup := by
  induction entries with
  | nil => exact List.nodup_nil
  | cons entry older ih =>
      rw [unhidden, List.map_cons, List.nodup_cons]
      refine ⟨?_, (List.filter_sublist.map Prod.fst).nodup ih⟩
      intro repeated
      obtain ⟨other, member, same⟩ := List.mem_map.mp repeated
      simp [same] at member

/-- The entry at a place, unless its key occurs in front of it. -/
def visibleAt? (entries : List (κ × α)) (index : Nat) : Option (κ × α) :=
  entries[index]?.filter fun entry =>
    !(entries.take index).any fun newer => newer.1 = entry.1

theorem visibleAt?_cons_succ (entry : κ × α) (older : List (κ × α)) (index : Nat) :
    visibleAt? (entry :: older) (index + 1) =
      (visibleAt? older index).filter fun other => other.1 ≠ entry.1 := by
  rw [visibleAt?, visibleAt?, List.getElem?_cons_succ, List.take_succ_cons,
    Option.filter_filter]
  congr 1
  funext other
  simp [Bool.and_comm, eq_comm]

/-- An entry is shown at its place exactly if no newer entry has its key. -/
theorem unhidden_eq_filterMap (entries : List (κ × α)) :
    unhidden entries = (List.range entries.length).filterMap (visibleAt? entries) := by
  induction entries with
  | nil => rfl
  | cons entry older ih =>
      have head : visibleAt? (entry :: older) 0 = some entry := rfl
      rw [List.length_cons, List.range_succ_eq_map, List.filterMap_cons_some head,
        List.filterMap_map, unhidden, ih, List.filter_filterMap]
      simp only [Function.comp_def, Nat.succ_eq_add_one, visibleAt?_cons_succ]

/-! ## Look-ups -/

theorem get?_eq_some_iff_mostRecent {items : List (κ × α)} {list : ShadowList κ α}
    (newestFirst : list.entries = items.reverse) {key : κ} {value : α} :
    list.get? key = some value ↔ MostRecent items key value := by
  rw [get?, newestFirst, Option.map_eq_some_iff]
  constructor
  · rintro ⟨⟨stored, _⟩, found, rfl⟩
    obtain ⟨isKey, newer, older, split, notNewer⟩ := List.find?_eq_some_iff_append.mp found
    obtain rfl : stored = key := by simpa using isKey
    refine ⟨older.reverse, newer.reverse, ?_, ?_⟩
    · rw [← List.reverse_inj, split]
      simp
    · intro later
      obtain ⟨entry, member, same⟩ := List.mem_map.mp later
      simpa [same] using notNewer entry (List.mem_reverse.mp member)
  · rintro ⟨earlier, later, rfl, notLater⟩
    refine ⟨(key, value), List.find?_eq_some_iff_append.mpr ⟨by simp, later.reverse,
      earlier.reverse, by simp, ?_⟩, rfl⟩
    intro entry member
    have differs : entry.1 ≠ key := fun same =>
      notLater (List.mem_map.mpr ⟨entry, List.mem_reverse.mp member, same⟩)
    simpa using differs

/-- Of a key that occurs, one entry is shown. -/
theorem exists_filter_visible_eq {list : ShadowList κ α} {key : κ}
    (present : key ∈ list.entries.map Prod.fst) :
    ∃ value, list.get? key = some value ∧
      list.visible.filter (fun entry => entry.1 = key) = [(key, value)] := by
  obtain ⟨value, found⟩ := Option.isSome_iff_exists.mp (isSome_get?_iff.mpr present)
  refine ⟨value, found, ?_⟩
  obtain ⟨before, after, split⟩ := List.append_of_mem (mem_visible_iff.mpr found)
  have distinct : (list.visible.map Prod.fst).Nodup := nodup_keys_unhidden list.entries
  rw [split, List.map_append, List.map_cons, List.nodup_middle, List.nodup_cons,
    List.mem_append, not_or] at distinct
  have absent {entries : List (κ × α)} (notKey : key ∉ entries.map Prod.fst) :
      entries.filter (fun entry => entry.1 = key) = [] := by
    rw [List.filter_eq_nil_iff]
    intro entry member same
    exact notKey (List.mem_map.mpr ⟨entry, member, by simpa using same⟩)
  rw [split, List.filter_append, absent distinct.1.1, List.filter_cons_of_pos (by simp),
    absent distinct.1.2, List.nil_append]

/-- The entries of a list are its insertions, the newest first.  Shown are those whose key
does not occur in front of them, which is one for each key that occurs, and it is the one
that was inserted last.  A look-up finds the same, and after one more insertion it finds
the new value for that key and the old one for all others. -/
theorem shows_most_recent {items : List (κ × α)} {list : ShadowList κ α}
    (built : BuiltBy items list) :
    list.entries = items.reverse ∧
    list.visible.Sublist list.entries ∧ (list.visible.map Prod.fst).Nodup ∧
    list.visible = (List.range list.size).filterMap (visibleAt? list.entries) ∧
    (∀ key ∈ list.entries.map Prod.fst, ∃ value, MostRecent items key value ∧
      list.visible.filter (fun entry => entry.1 = key) = [(key, value)]) ∧
    (∀ key value, (key, value) ∈ list.visible ↔ list.get? key = some value) ∧
    (∀ key value, list.get? key = some value ↔ MostRecent items key value) ∧
    (∀ key value other, (list.push key value).get? other =
      if other = key then some value else list.get? other) ∧
    ∀ collected : List (κ × α), (ofList collected).entries = collected.reverse ∧
      ∀ key value, (ofList collected).get? key = some value ↔
        MostRecent collected key value := by
  have newestFirst := built.entries_eq
  refine ⟨newestFirst, sublist_unhidden list.entries, nodup_keys_unhidden list.entries,
    unhidden_eq_filterMap list.entries, ?_, fun _ _ => mem_visible_iff,
    fun _ _ => get?_eq_some_iff_mostRecent newestFirst,
    fun key value other => get?_push list key other value, fun collected => ?_⟩
  · intro key present
    obtain ⟨value, found, shown⟩ := exists_filter_visible_eq present
    exact ⟨value, (get?_eq_some_iff_mostRecent newestFirst).mp found, shown⟩
  · exact ⟨entries_ofList collected,
      fun _ _ => get?_eq_some_iff_mostRecent (entries_ofList collected)⟩

/-- Two keys that are collected, and a new value for one of them. -/
def insertedTwice : ShadowList String Nat :=
  (ofList [("x", 1), ("y", 2), ("y", 3)]).push "x" 4

theorem shows_most_recent_insertedTwice :
    BuiltBy [("x", 1), ("y", 2), ("y", 3), ("x", 4)] insertedTwice ∧
    insertedTwice.entries = [("x", 4), ("y", 3), ("y", 2), ("x", 1)] ∧
    insertedTwice.visible = [("x", 4), ("y", 3)] ∧
    insertedTwice.get? "y" = some 3 ∧
    MostRecent [("x", 1), ("y", 2), ("y", 3), ("x", 4)] "y" 3 ∧
    (insertedTwice.push "z" 5).get? "y" = some 3 := by
  have built : BuiltBy [("x", 1), ("y", 2), ("y", 3), ("x", 4)] insertedTwice :=
    (BuiltBy.collect [("x", 1), ("y", 2), ("y", 3)]).push "x" 4
  obtain ⟨entries, -, -, -, -, shown, found, inserted, -⟩ := shows_most_recent built
  have visible : insertedTwice.visible = [("x", 4), ("y", 3)] := by decide
  have lookup : insertedTwice.get? "y" = some 3 :=
    (shown "y" 3).mp (by rw [visible]; decide)
  refine ⟨built, entries, visible, lookup, (found "y" 3).mp lookup, ?_⟩
  rw [inserted, if_neg (by decide), lookup]

end ShadowList

end TypedHoles
