import TypedHoles.Proofs.FirstOccurrences
import TypedHoles.Proofs.Places

/-!
# What inference records about holes

Inference lists every name of a hole once, in the order in which the traversal first
meets it, with the type of the last hole of that name and with the abstractions around
that hole.  If no name is repeated, then every hole is listed with its own type and
context.
-/

namespace TypedHoles

/-- The last entry for a key gives its value. -/
theorem OrderedMap.get?_ofList_of_last {κ α : Type} [DecidableEq κ]
    {before after : List (κ × α)} {key : κ} {value : α}
    (last : key ∉ after.map Prod.fst) :
    (ofList (before ++ (key, value) :: after)).get? key = some value := by
  have notLater : after.reverse.find? (fun entry => entry.1 = key) = none := by
    rw [List.find?_eq_none]
    intro entry member same
    have isKey : entry.1 = key := by simpa using same
    exact last (List.mem_map.mpr ⟨entry, List.mem_reverse.mp member, isKey⟩)
  rw [get?_ofList, find?, List.reverse_append, List.reverse_cons, List.append_assoc,
    List.find?_append, notLater, Option.none_or]
  simp

/-! ## Last holes -/

/-- Whether a path leads to the last hole of a name that the traversal visits. -/
structure Term.IsLastHole (term : Term) (name : HoleName) (path : Path) : Prop where
  isHole : term.nodeAt? path = some (.hole name)
  last : ∀ other, term.nodeAt? other = some (.hole name) → ¬ path.Before other

namespace Term

variable {term : Term} {name : HoleName} {path : Path}

instance : Decidable (term.IsLastHole name path) :=
  decidable_of_iff (term.nodeAt? path = some (.hole name) ∧ ∀ other ∈ term.paths,
      term.nodeAt? other = some (.hole name) → ¬ path.Before other)
    ⟨fun ⟨isHole, last⟩ =>
        ⟨isHole, fun other found => last other (mem_paths_of_nodeAt? found) found⟩,
      fun ⟨isHole, last⟩ => ⟨isHole, fun other _ => last other⟩⟩

/-- A path splits the traversal into what comes before its end and what comes after. -/
theorem exists_paths_split {node : Term} (found : term.nodeAt? path = some node) :
    ∃ before after, term.paths = before ++ path :: after ∧
      (∀ other ∈ before, other.Before path) ∧ ∀ other ∈ after, path.Before other := by
  obtain ⟨before, after, split⟩ := List.append_of_mem (mem_paths_of_nodeAt? found)
  have inOrder := term.pairwise_paths
  rw [split, List.pairwise_append, List.pairwise_cons] at inOrder
  exact ⟨before, after, split, fun other member =>
    inOrder.2.2 other member path List.mem_cons_self, inOrder.2.1.1⟩

/-- Every name of a hole has a last hole. -/
theorem exists_isLastHole (member : name ∈ term.holes) :
    ∃ path, term.IsLastHole name path := by
  let places := term.paths.filter fun path => term.nodeAt? path = some (.hole name)
  have mem_places (path : Path) : path ∈ places ↔ term.nodeAt? path = some (.hole name) := by
    simpa [places] using mem_paths_of_nodeAt?
  have inOrder : places.Pairwise Path.Before := term.pairwise_paths.filter _
  rcases List.eq_nil_or_concat places with none | ⟨earlier, path, split⟩
  · obtain ⟨path, isHole⟩ := mem_holes_iff_exists_path.mp member
    have found := (mem_places path).mpr isHole
    simp [none] at found
  · rw [split, List.concat_eq_append] at inOrder mem_places
    refine ⟨path, (mem_places path).mp (by simp), ?_⟩
    intro other isHole
    rcases List.mem_append.mp ((mem_places other).mpr isHole) with before | same
    · exact (inOrder.rel_of_mem_append before (List.mem_singleton_self path)).asymm
    · rw [List.mem_singleton.mp same]
      exact Path.Before.irrefl path

/-- If no name is repeated, then every hole is the last one of its name. -/
theorem isLastHole_of_nodup (distinct : term.holes.Nodup)
    (isHole : term.nodeAt? path = some (.hole name)) : term.IsLastHole name path := by
  refine ⟨isHole, ?_⟩
  intro other otherHole later
  obtain ⟨before, after, split, earlierPaths, -⟩ := exists_paths_split isHole
  have inAfter : other ∈ after := by
    have visited := mem_paths_of_nodeAt? otherHole
    rw [split, List.mem_append, List.mem_cons] at visited
    rcases visited with early | rfl | late
    · exact absurd later (earlierPaths other early).asymm
    · exact absurd later (Path.Before.irrefl _)
    · exact late
  -- Both places are visited, so the name is listed twice.
  rw [holes_eq_filterMap_paths, split, List.filterMap_append, List.Nodup,
    List.pairwise_append] at distinct
  have listed := distinct.2.1
  rw [List.pairwise_filterMap, List.pairwise_cons] at listed
  exact listed.1 other inAfter name (by simp [isHole, holeName?]) name
    (by simp [otherHole, holeName?]) rfl

end Term

/-! ## The maps -/

namespace Inference

variable {term : Term} {inference : Inference} {name : HoleName} {path : Path}

/-- Whether the maps give the hole `name` of `term` what stands at the end of `path` in
the annotated term: the type that is stored there, and as context the abstractions on
the way with the domains that are stored at them. -/
structure DescribesAt (inference : Inference) (term : Term) (name : HoleName)
    (path : Path) : Prop where
  ty : ∃ ty, inference.term.nodeAt? path = some (.hole name ty) ∧
    inference.holeType? name = some ty
  context : ∃ context, inference.holeContext? name = some context ∧
    context.entries = inference.term.bindingsAround path ∧
    context.entries.map Prod.fst = (term.bindersAround path).map Binder.name

theorem holeTypes_eq (inferred : infer term = .ok inference) :
    inference.holeTypes = .ofList ((inference.term.holesIn .empty).map fun entry =>
      (entry.1, entry.2.1)) :=
  congrArg holeTypes (eq_ofAnnotated inferred)

theorem holeContexts_eq (inferred : infer term = .ok inference) :
    inference.holeContexts = .ofList ((inference.term.holesIn .empty).map fun entry =>
      (entry.1, entry.2.2)) :=
  congrArg holeContexts (eq_ofAnnotated inferred)

theorem keys_holeTypes (inferred : infer term = .ok inference) :
    inference.holeTypes.keys = term.holes.eraseDups := by
  rw [holeTypes_eq inferred, OrderedMap.keys_ofList, List.map_map,
    ← map_fst_holesIn inferred]
  rfl

theorem keys_holeContexts (inferred : infer term = .ok inference) :
    inference.holeContexts.keys = term.holes.eraseDups := by
  rw [holeContexts_eq inferred, OrderedMap.keys_ofList, List.map_map,
    ← map_fst_holesIn inferred]
  rfl

/-- The holes that the traversal visits before and after the last hole of a name. -/
theorem exists_holesIn_split (inferred : infer term = .ok inference)
    (last : term.IsLastHole name path) :
    ∃ ty before after, inference.term.nodeAt? path = some (.hole name ty) ∧
      inference.term.holesIn .empty =
        before ++ (name, ty, ⟨inference.term.bindingsAround path⟩) :: after ∧
      name ∉ after.map Prod.fst := by
  have erases := (isPrincipal inferred).erases
  have node := last.isHole
  rw [← erases, AnnotatedTerm.nodeAt?_erase, Option.map_eq_some_iff] at node
  obtain ⟨node, found, isHole⟩ := node
  obtain ⟨ty, rfl⟩ := AnnotatedTerm.exists_of_erase_eq_hole isHole
  obtain ⟨before, after, split, -, later⟩ := Term.exists_paths_split last.isHole
  refine ⟨ty, before.filterMap (inference.term.holeAt? .empty),
    after.filterMap (inference.term.holeAt? .empty), found, ?_, ?_⟩
  · have entry : inference.term.holeAt? .empty path =
        some (name, ty, ⟨inference.term.bindingsAround path⟩) := by
      simp only [AnnotatedTerm.holeAt?, found]
      simp [ShadowList.empty]
    rw [AnnotatedTerm.holesIn_eq_filterMap_paths, erases, split, List.filterMap_append,
      List.filterMap_cons_some entry]
  · intro listed
    obtain ⟨entry, member, sameName⟩ := List.mem_map.mp listed
    obtain ⟨other, inAfter, otherEntry⟩ := List.mem_filterMap.mp member
    have otherHole : term.nodeAt? other = some (.hole name) := by
      rw [← erases, AnnotatedTerm.nodeAt?_erase,
        AnnotatedTerm.nodeAt?_of_holeAt? otherEntry, sameName]
      rfl
    exact last.last other otherHole (later other inAfter)

/-- The maps describe the last hole of a name. -/
theorem describesAt_of_isLastHole (inferred : infer term = .ok inference)
    (last : term.IsLastHole name path) : inference.DescribesAt term name path := by
  obtain ⟨ty, before, after, found, split, notLater⟩ := exists_holesIn_split inferred last
  have holeType : inference.holeType? name = some ty := by
    rw [holeType?, holeTypes_eq inferred, split, List.map_append, List.map_cons]
    exact OrderedMap.get?_ofList_of_last (by rwa [List.map_map])
  have holeContext : inference.holeContext? name =
      some ⟨inference.term.bindingsAround path⟩ := by
    rw [holeContext?, holeContexts_eq inferred, split, List.map_append, List.map_cons]
    exact OrderedMap.get?_ofList_of_last (by rwa [List.map_map])
  refine ⟨⟨ty, found, holeType⟩, ⟨_, holeContext, rfl, ?_⟩⟩
  rw [AnnotatedTerm.map_fst_bindingsAround, (isPrincipal inferred).erases]

/-- The maps list the names of the holes in order of first occurrence and describe the
last hole of each name, with all binders around it.  If no name is repeated, then they
list all holes in order of traversal and describe each of them. -/
theorem hole_maps_exact (inferred : infer term = .ok inference) :
    inference.holeTypes.keys = term.holes.eraseDups ∧
    inference.holeContexts.keys = term.holes.eraseDups ∧
    (∀ name ∈ term.holes, ∃ path, term.IsLastHole name path) ∧
    (∀ name path, term.IsLastHole name path → inference.DescribesAt term name path) ∧
    (term.holes.Nodup →
      inference.holeTypes.keys = term.holes ∧ inference.holeContexts.keys = term.holes ∧
      ∀ name path, term.nodeAt? path = some (.hole name) →
        inference.DescribesAt term name path) := by
  have types := keys_holeTypes inferred
  have contexts := keys_holeContexts inferred
  refine ⟨types, contexts, fun _ => Term.exists_isLastHole,
    fun _ _ => describesAt_of_isLastHole inferred, ?_⟩
  intro distinct
  rw [types, contexts, eraseDups_eq_self distinct]
  refine ⟨rfl, rfl, ?_⟩
  intro name path isHole
  exact describesAt_of_isLastHole inferred (Term.isLastHole_of_nodup distinct isHole)

/-- A derivation for a pair in which the first hole stands below two binders of one name,
and the last one has the name of the first. -/
def repeatedHoles : AnnotatedTerm :=
  .pair
    (.abs ⟨⟨0⟩, none⟩ (.var ⟨0⟩) (.abs ⟨⟨0⟩, none⟩ (.var ⟨1⟩) (.hole ⟨4⟩ (.var ⟨2⟩))))
    (.abs ⟨⟨1⟩, none⟩ (.var ⟨3⟩)
      (.pair (.hole ⟨1⟩ (.var ⟨4⟩)) (.hole ⟨4⟩ (.var ⟨5⟩))
        (.product (.var ⟨4⟩) (.var ⟨5⟩))))
    (.product (.arrow (.var ⟨0⟩) (.arrow (.var ⟨1⟩) (.var ⟨2⟩)))
      (.arrow (.var ⟨3⟩) (.product (.var ⟨4⟩) (.var ⟨5⟩))))

/-- The first component of that pair, with the types that it has on its own. -/
def hiddenBinder : AnnotatedTerm :=
  .abs ⟨⟨0⟩, none⟩ (.var ⟨0⟩) (.abs ⟨⟨0⟩, none⟩ (.var ⟨1⟩) (.hole ⟨4⟩ (.var ⟨2⟩)))

theorem hole_maps_exact_repeatedHoles :
    (infer repeatedHoles.erase = .ok (ofAnnotated repeatedHoles) ∧
      (ofAnnotated repeatedHoles).holeTypes.keys = [⟨4⟩, ⟨1⟩, ⟨4⟩].eraseDups ∧
      repeatedHoles.erase.IsLastHole ⟨4⟩ [1, 0, 1] ∧
      (ofAnnotated repeatedHoles).DescribesAt repeatedHoles.erase ⟨4⟩ [1, 0, 1]) ∧
    infer hiddenBinder.erase = .ok (ofAnnotated hiddenBinder) ∧
      hiddenBinder.erase.holes.Nodup ∧
      (ofAnnotated hiddenBinder).DescribesAt hiddenBinder.erase ⟨4⟩ [0, 0] := by
  have repeated : infer repeatedHoles.erase = .ok (ofAnnotated repeatedHoles) := by decide
  have single : infer hiddenBinder.erase = .ok (ofAnnotated hiddenBinder) := by decide
  obtain ⟨keys, -, -, describes, -⟩ := hole_maps_exact repeated
  obtain ⟨-, -, -, -, distinct⟩ := hole_maps_exact single
  have last : repeatedHoles.erase.IsLastHole ⟨4⟩ [1, 0, 1] := by decide
  have noRepetition : hiddenBinder.erase.holes.Nodup := by decide
  exact ⟨⟨repeated, keys, last, describes _ _ last⟩, single, noRepetition,
    (distinct noRepetition).2.2 _ _ (by decide)⟩

end Inference

end TypedHoles
