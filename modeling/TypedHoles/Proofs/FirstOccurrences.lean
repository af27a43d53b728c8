import TypedHoles.Proofs.CanonicalNumbering

/-!
# Lists in order of first occurrence

A numbering, the type variables of a type or of an annotated term and the keys of an
ordered map are all listed in the same way: each once, in the order in which they are
first met.  This is what is left of a list when later copies are erased.
-/

namespace TypedHoles

/-! ## Erasing later copies -/

section EraseDups

variable {α : Type} [DecidableEq α] {list : List α} {entry : α}

theorem eraseDups_concat_of_mem (listed : entry ∈ list) :
    (list ++ [entry]).eraseDups = list.eraseDups := by
  simp [List.eraseDups_append, List.removeAll, listed]

theorem eraseDups_concat_of_not_mem (absent : entry ∉ list) :
    (list ++ [entry]).eraseDups = list.eraseDups ++ [entry] := by
  simp [List.eraseDups_append, List.removeAll, absent, List.eraseDups_cons]

theorem nodup_eraseDups (list : List α) : list.eraseDups.Nodup := by
  induction list using List.reverseRecOn with
  | nil => exact .nil
  | append_singleton list entry ih =>
      by_cases listed : entry ∈ list
      · rwa [eraseDups_concat_of_mem listed]
      · have absent : entry ∉ list.eraseDups := mt List.mem_eraseDups.mp listed
        rw [eraseDups_concat_of_not_mem listed, ← List.concat_eq_append]
        exact ih.concat absent

theorem eraseDups_eq_self (distinct : list.Nodup) : list.eraseDups = list := by
  induction list using List.reverseRecOn with
  | nil => rfl
  | append_singleton list entry ih =>
      have absent : entry ∉ list := fun listed =>
        List.disjoint_of_nodup_append distinct listed (List.mem_singleton_self entry)
      rw [eraseDups_concat_of_not_mem absent, ih distinct.of_append_left]

theorem prefix_eraseDups {start : List α} (starts : start <+: list) :
    start.eraseDups <+: list.eraseDups := by
  obtain ⟨rest, rfl⟩ := starts
  rw [List.eraseDups_append]
  exact List.prefix_append _ _

end EraseDups

/-! ## Numberings -/

namespace Numbering

variable {kind : NameKind}

theorem seen_see_empty (names : List (Name kind)) :
    (empty.see names).seen = names.eraseDups := by
  induction names using List.reverseRecOn with
  | nil => rfl
  | append_singleton names name ih =>
      have seenBefore : name ∈ (empty.see names).seen ↔ name ∈ names := by
        rw [ih, List.mem_eraseDups]
      rw [see_append]
      by_cases listed : name ∈ names
      · rw [see_singleton_of_mem (seenBefore.mpr listed), ih, eraseDups_concat_of_mem listed]
      · rw [see_singleton_of_not_mem (mt seenBefore.mp listed), ih,
          eraseDups_concat_of_not_mem listed]

end Numbering

/-! ## Type variables -/

theorem Ty.extendVars_eq (names : List TypeVar) (ty : Ty) :
    ty.extendVars names = ((Numbering.mk names).see ty.occurrences).seen := by
  simp only [extendVars, Numbering.see, List.contains_iff_mem]

theorem Ty.vars_eq (ty : Ty) : ty.vars = ty.occurrences.eraseDups := by
  rw [vars, extendVars_eq]
  exact Numbering.seen_see_empty _

theorem foldl_extendVars (types : List Ty) (numbering : Numbering .typeVar) :
    types.foldl Ty.extendVars numbering.seen =
      (numbering.see (types.flatMap Ty.occurrences)).seen := by
  induction types generalizing numbering with
  | nil => rfl
  | cons ty types ih =>
      rw [List.foldl_cons, Ty.extendVars_eq, ih, List.flatMap_cons, Numbering.see_append]

namespace AnnotatedTerm

theorem seen_numbering (term : AnnotatedTerm) : term.numbering.seen = term.typeVars :=
  (foldl_extendVars term.types .empty).symm

theorem typeVars_eq (term : AnnotatedTerm) : term.typeVars = term.occurrences.eraseDups := by
  rw [← seen_numbering, numbering, Numbering.seen_see_empty]

end AnnotatedTerm

/-! ## Keys -/

namespace OrderedMap

variable {κ α : Type} [DecidableEq κ]

theorem keys_put_of_mem {key : κ} (value : α) {entries : List (κ × α)}
    (listed : key ∈ entries.map Prod.fst) :
    (put key value entries).map Prod.fst = entries.map Prod.fst := by
  induction entries with
  | nil => simp at listed
  | cons entry entries ih =>
      by_cases same : entry.1 = key
      · simp [put, same]
      · have inRest := (List.mem_cons.mp listed).resolve_left (Ne.symm same)
        rw [put, if_neg same, List.map_cons, ih inRest, List.map_cons]

theorem keys_insert_of_mem {map : OrderedMap κ α} {key : κ} (value : α)
    (listed : key ∈ map.keys) : (map.insert key value).keys = map.keys :=
  keys_put_of_mem value listed

theorem keys_insert_of_not_mem {map : OrderedMap κ α} {key : κ} (value : α)
    (absent : key ∉ map.keys) : (map.insert key value).keys = map.keys ++ [key] := by
  have notFound : map.get? key = none := by
    rwa [← Option.not_isSome_iff_eq_none, isSome_get?_iff]
  have appended : (map.insert key value).entries = map.entries ++ [(key, value)] :=
    put_of_absent value notFound
  rw [keys, appended, List.map_append]
  rfl

/-- The keys of a map stand in the order in which they are first inserted. -/
theorem keys_ofList (entries : List (κ × α)) :
    (ofList entries).keys = (entries.map Prod.fst).eraseDups := by
  induction entries using List.reverseRecOn with
  | nil => rfl
  | append_singleton entries entry ih =>
      have inserted : ofList (entries ++ [entry]) =
          (ofList entries).insert entry.1 entry.2 := by
        simp [ofList, List.foldl_append]
      have known : entry.1 ∈ (ofList entries).keys ↔ entry.1 ∈ entries.map Prod.fst := by
        rw [ih, List.mem_eraseDups]
      rw [inserted, List.map_append]
      by_cases listed : entry.1 ∈ entries.map Prod.fst
      · rw [keys_insert_of_mem _ (known.mpr listed), ih]
        exact (eraseDups_concat_of_mem listed).symm
      · rw [keys_insert_of_not_mem _ (mt known.mp listed), ih]
        exact (eraseDups_concat_of_not_mem listed).symm

end OrderedMap

end TypedHoles
