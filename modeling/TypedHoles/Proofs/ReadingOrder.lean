import TypedHoles.Proofs.CanonicalForms
import TypedHoles.Proofs.HoleMaps

/-!
# The order of type variables

An abstraction stores its domain only, and its type is put together from the domains and
the type of what stands below them.  Reading what is stored still meets the type
variables in the same order as reading the whole type at every node.  So the type of a
program comes first, and what inference shows of a program is numbered from there on.
-/

namespace TypedHoles

theorem Numbering.see_of_seen {kind : NameKind} {numbering : Numbering kind}
    {names : List (Name kind)} (seen : ∀ name ∈ names, name ∈ numbering.seen) :
    numbering.see names = numbering := by
  induction names with
  | nil => rfl
  | cons name names ih =>
      rw [List.forall_mem_cons] at seen
      rw [see_cons, see_singleton_of_mem seen.1, ih seen.2]

/-! ## Complete types -/

namespace AnnotatedTerm

/-- The types of all nodes in order of traversal, at each node its whole type and then
that of the component that it discards. -/
def completeTypes : AnnotatedTerm → List Ty
  | unit => [.unit]
  | var _ ty => [ty]
  | abs _ domain body => .arrow domain body.ty :: body.completeTypes
  | app applicant argument ty =>
      ty :: (applicant.completeTypes ++ argument.completeTypes)
  | pair first second ty => ty :: (first.completeTypes ++ second.completeTypes)
  | proj1 argument ty second => ty :: second :: argument.completeTypes
  | proj2 argument ty first => ty :: first :: argument.completeTypes
  | hole _ ty => [ty]

theorem completeTypes_instantiate (term : AnnotatedTerm) (assignment : Assignment) :
    (term.instantiate assignment).completeTypes =
      term.completeTypes.map (Ty.instantiate assignment) := by
  induction term with
  | unit | var | hole => rfl
  | abs _ _ _ ih | proj1 _ _ _ ih | proj2 _ _ _ ih =>
      simp [instantiate, completeTypes, ih]
  | app _ _ _ leftIh rightIh | pair _ _ _ leftIh rightIh =>
      simp [instantiate, completeTypes, leftIh, rightIh]

/-- What a complete type repeats has been read, or is read next. -/
theorem see_completeTypes (term : AnnotatedTerm) (numbering : Numbering .typeVar) :
    numbering.see (term.completeTypes.flatMap Ty.occurrences) =
      numbering.see term.occurrences := by
  induction term generalizing numbering with
  | unit | var | hole => rfl
  | proj1 _ _ _ ih | proj2 _ _ _ ih =>
      simp only [completeTypes, List.flatMap_cons, occurrences_proj1, occurrences_proj2,
        Numbering.see_append, ih]
  | app _ _ _ leftIh rightIh | pair _ _ _ leftIh rightIh =>
      simp only [completeTypes, List.flatMap_cons, List.flatMap_append, occurrences_app,
        occurrences_pair, Numbering.see_append, leftIh, rightIh]
  | abs binder domain body ih =>
      simp only [completeTypes, List.flatMap_cons, occurrences_abs, Ty.occurrences,
        Numbering.see_append, ih]
      -- The type of the body is read with the abstraction, and then once more.
      obtain ⟨rest, split⟩ := body.prefix_occurrences_ty
      have again (before : Numbering .typeVar) :
          (before.see body.ty.occurrences).see body.ty.occurrences =
            before.see body.ty.occurrences :=
        Numbering.see_of_seen fun name member => Numbering.mem_see.mpr (.inr member)
      rw [← split, Numbering.see_append, Numbering.see_append, again]

end AnnotatedTerm

theorem Ty.reads_mapM_number (types : List Ty) :
    Numbering.Reads (types.mapM number) (types.flatMap occurrences) fun rename =>
      types.map (instantiate fun name => var (rename name)) := by
  induction types with
  | nil => exact Numbering.reads_pure []
  | cons ty types ih =>
      rw [List.mapM_cons]
      exact ty.reads_number.bind fun ty => ih.map (ty :: ·)

namespace AnnotatedTerm

/-- Numbering the complete types in order leads to the same numbers as numbering the types
that are stored. -/
theorem number_completeTypes (term : AnnotatedTerm) :
    (term.completeTypes.mapM Ty.number).run .empty =
      term.canonical.map fun result => (result.1.completeTypes, result.2) := by
  rw [(Ty.reads_mapM_number term.completeTypes).run .empty Numbering.fits_empty,
    see_completeTypes, canonical_eq, numbering]
  split
  · rw [← completeTypes_instantiate]
    rfl
  · rfl

/-- The type variables of the type come first. -/
theorem prefix_vars_ty (term : AnnotatedTerm) : term.ty.vars <+: term.typeVars := by
  rw [Ty.vars_eq, typeVars_eq]
  exact prefix_eraseDups term.prefix_occurrences_ty

/-- The type variables of a canonical term are `0, 1, 2, …`. -/
theorem map_index_typeVars {term : AnnotatedTerm} {numbering : Numbering .typeVar}
    (canonical : term.canonical = .ok (term, numbering)) :
    term.typeVars.map (fun name => name.index.toNat) = List.range term.typeVars.length := by
  obtain ⟨fits, unchanged, -⟩ := (mentions.run_eq_ok_iff reads_number).mp canonical
  rw [typeVars_eq]
  exact mentions.map_index_eraseDups_names fits unchanged

theorem index_lt_of_mem_types {term : AnnotatedTerm} {numbering : Numbering .typeVar}
    (canonical : term.canonical = .ok (term, numbering)) {ty : Ty} (stored : ty ∈ term.types)
    {name : TypeVar} (member : name ∈ ty.vars) :
    name.index.toNat < term.typeVars.length := by
  have listed : name ∈ term.typeVars := by
    rw [Ty.vars_eq, List.mem_eraseDups] at member
    rw [typeVars_eq, List.mem_eraseDups]
    exact List.mem_flatMap.mpr ⟨ty, stored, member⟩
  have numbered : name.index.toNat ∈ term.typeVars.map fun name => name.index.toNat :=
    List.mem_map_of_mem listed
  rwa [map_index_typeVars canonical, List.mem_range] at numbered

theorem mem_types_of_binding? {node : AnnotatedTerm} {binding : VarName × Ty}
    (isBinding : node.binding? = some binding) : binding.2 ∈ node.types := by
  cases node with
  | abs binder domain body =>
      obtain rfl := Option.some.inj isBinding
      simp [types]
  | _ => simp [binding?] at isBinding

theorem mem_types_of_mem_bindingsAround {term : AnnotatedTerm} {path : Path}
    {binding : VarName × Ty} (member : binding ∈ term.bindingsAround path) :
    binding.2 ∈ term.types := by
  obtain ⟨depth, -, found⟩ := List.mem_filterMap.mp member
  obtain ⟨node, found, isBinding⟩ := Option.bind_eq_some_iff.mp found
  exact types_subset_of_nodeAt? found _ (mem_types_of_binding? isBinding)

end AnnotatedTerm

/-! ## What inference shows -/

namespace Inference

variable {term : Term} {inference : Inference} {name : HoleName}

theorem exists_canonical_term (inferred : infer term = .ok inference) :
    ∃ again, inference.term.canonical = .ok (inference.term, again) ∧
      again.isIdentity = true := by
  obtain ⟨_, _, _, _, -, -, canonical⟩ := exists_canonical_eq inferred
  exact AnnotatedTerm.decidesRenaming_canonical.idempotent canonical

/-- The types of holes are stored in the annotated term. -/
theorem mem_types_of_holeType? (inferred : infer term = .ok inference) {ty : Ty}
    (holeType : inference.holeType? name = some ty) : ty ∈ inference.term.types := by
  have isHole : name ∈ term.holes :=
    (isSome_holeType?_iff inferred).mp (by rw [holeType]; rfl)
  obtain ⟨path, last⟩ := Term.exists_isLastHole isHole
  obtain ⟨⟨stored, found, described⟩, -⟩ := describesAt_of_isLastHole inferred last
  obtain rfl := Option.some.inj (holeType.symm.trans described)
  exact AnnotatedTerm.types_subset_of_nodeAt? found ty (by simp [AnnotatedTerm.types])

theorem mem_types_of_holeContext? (inferred : infer term = .ok inference)
    {context : Context} (holeContext : inference.holeContext? name = some context)
    {binding : VarName × Ty} (member : binding ∈ context.entries) :
    binding.2 ∈ inference.term.types := by
  have isHole : name ∈ term.holes :=
    (isSome_holeContext?_iff inferred).mp (by rw [holeContext]; rfl)
  obtain ⟨path, last⟩ := Term.exists_isLastHole isHole
  obtain ⟨-, described, found, entries, -⟩ := describesAt_of_isLastHole inferred last
  obtain rfl := Option.some.inj (holeContext.symm.trans found)
  exact AnnotatedTerm.mem_types_of_mem_bindingsAround (entries ▸ member)

/-- The type variables of a type are the first ones of every annotated term of that type.
Therefore inference shows the type variables `0, 1, 2, …` in the order in which they are
met when the complete types of the solved term are read. -/
theorem type_vars_in_reading_order :
    (∀ annotated : AnnotatedTerm, annotated.ty.vars <+: annotated.typeVars) ∧
    ∀ (term : Term) (inference : Inference), infer term = .ok inference →
      inference.term.typeVars.map (fun name => name.index.toNat) =
        List.range inference.term.typeVars.length ∧
      inference.ty.canonical = .ok inference.ty ∧
      (∃ again, inference.term.canonical = .ok (inference.term, again) ∧
        again.isIdentity = true) ∧
      (∀ hole ty, inference.holeType? hole = some ty →
        ∀ name ∈ ty.vars, name.index.toNat < inference.term.typeVars.length) ∧
      (∀ hole context, inference.holeContext? hole = some context →
        ∀ binding ∈ context.entries, ∀ name ∈ binding.2.vars,
          name.index.toNat < inference.term.typeVars.length) ∧
      ∃ draft supply solution numbering, term.annotated = .ok draft supply ∧
        (Unify.solve draft.constraints).run .empty = .ok () solution ∧
        (draft.applySubstitution solution).canonical = .ok (inference.term, numbering) ∧
        ((draft.applySubstitution solution).completeTypes.mapM Ty.number).run .empty =
          .ok (inference.term.completeTypes, numbering) := by
  refine ⟨AnnotatedTerm.prefix_vars_ty, ?_⟩
  intro term inference inferred
  obtain ⟨again, canonical, identity⟩ := exists_canonical_term inferred
  obtain ⟨draft, supply, solution, numbering, annotated, solved, numbered⟩ :=
    exists_canonical_eq inferred
  refine ⟨AnnotatedTerm.map_index_typeVars canonical, canonical_ty inferred,
    ⟨again, canonical, identity⟩, ?_, ?_, draft, supply, solution, numbering, annotated,
    solved, numbered, ?_⟩
  · intro hole ty holeType name member
    exact AnnotatedTerm.index_lt_of_mem_types canonical
      (mem_types_of_holeType? inferred holeType) member
  · intro hole context holeContext binding bound name member
    exact AnnotatedTerm.index_lt_of_mem_types canonical
      (mem_types_of_holeContext? inferred holeContext bound) member
  · rw [AnnotatedTerm.number_completeTypes, numbered]
    rfl

theorem type_vars_in_reading_order_projectedHole :
    let derivation := projectedHole (.var ⟨0⟩) (.var ⟨1⟩) (.var ⟨2⟩)
    infer derivation.erase = .ok (ofAnnotated derivation) ∧
      derivation.ty.vars <+: derivation.typeVars ∧
      derivation.typeVars.map (fun name => name.index.toNat) =
        List.range derivation.typeVars.length ∧
      ∃ draft supply solution numbering, derivation.erase.annotated = .ok draft supply ∧
        (Unify.solve draft.constraints).run .empty = .ok () solution ∧
        (draft.applySubstitution solution).canonical = .ok (derivation, numbering) ∧
        ((draft.applySubstitution solution).completeTypes.mapM Ty.number).run .empty =
          .ok (derivation.completeTypes, numbering) := by
  intro derivation
  have inferred : infer derivation.erase = .ok (ofAnnotated derivation) := by decide
  obtain ⟨tyFirst, surfaced⟩ := type_vars_in_reading_order
  obtain ⟨numbers, -, -, -, -, numbering⟩ := surfaced _ _ inferred
  exact ⟨inferred, tyFirst derivation, numbers, numbering⟩

end Inference

end TypedHoles
