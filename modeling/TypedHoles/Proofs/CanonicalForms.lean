import TypedHoles.Proofs.RenamingClasses

/-!
# Canonical forms

Canonical numbering forgets which names were used and keeps which of them were
equal.  So terms that differ by a renaming have the same canonical form, and a
canonical form is its own canonical form.  Two terms that are instances of each
other differ by a renaming.  The type of an annotated term is read before
everything else, and therefore it is canonical on its own if the term is.
-/

namespace TypedHoles

/-! ## Renamings -/

namespace Ty

variable {ty : Ty} {rename : TypeVar → TypeVar}

/-- An assignment that does not change a type leaves its type variables alone. -/
theorem eq_var_of_instantiate_eq_self {assignment : Assignment}
    (fixed : ty.instantiate assignment = ty) :
    ∀ name ∈ ty.occurrences, assignment name = var name := by
  induction ty with
  | unit => simp [occurrences]
  | var name => simpa [occurrences] using fixed
  | arrow domain codomain domainIh codomainIh =>
      simp only [instantiate_arrow, arrow.injEq] at fixed
      simp only [occurrences, List.forall_mem_append]
      exact ⟨domainIh fixed.1, codomainIh fixed.2⟩
  | product first second firstIh secondIh =>
      simp only [instantiate_product, product.injEq] at fixed
      simp only [occurrences, List.forall_mem_append]
      exact ⟨firstIh fixed.1, secondIh fixed.2⟩

/-- The numbering of the type variables of a type. -/
def numbering (ty : Ty) : Numbering .typeVar :=
  Numbering.empty.see ty.occurrences

theorem canonical_eq (ty : Ty) :
    ty.canonical =
      if ty.numbering.Fits then
        .ok (ty.instantiate fun name => var (ty.numbering.rename name))
      else
        .error .exhausted := by
  have run := ty.reads_number.run .empty Numbering.fits_empty
  rw [canonical, StateT.run'_eq, run, numbering]
  split <;> rfl

theorem canonical_instantiate_rename
    (injective : Set.InjOn rename {name | name ∈ ty.occurrences}) :
    (ty.instantiate fun name => var (rename name)).canonical = ty.canonical := by
  rw [canonical, canonical, StateT.run'_eq, StateT.run'_eq]
  exact mentions.map_fst_run_rename reads_number injective

end Ty

/-- If one assignment undoes another one on some type variables, then that one renames
them and keeps them apart. -/
theorem exists_rename_of_inverse {names : List TypeVar} {forth back : Assignment}
    (inverse : ∀ name ∈ names, (forth name).instantiate back = .var name) :
    ∃ rename : TypeVar → TypeVar, (∀ name ∈ names, forth name = .var (rename name)) ∧
      Set.InjOn rename {name | name ∈ names} := by
  have isVar (name : TypeVar) (member : name ∈ names) :
      ∃ image, forth name = .var image := by
    have undone := inverse name member
    cases image : forth name with
    | var other => exact ⟨other, rfl⟩
    | unit | arrow | product => simp [image] at undone
  choose! rename renames using isVar
  refine ⟨rename, renames, ?_⟩
  intro left leftMember right rightMember equal
  have leftBack := inverse left leftMember
  rw [renames left leftMember, equal, ← renames right rightMember,
    inverse right rightMember] at leftBack
  exact (Ty.var.inj leftBack).symm

/-- Types that are instances of each other have the same canonical form. -/
theorem Ty.canonical_eq_of_instances {left right : Ty} {forth back : Assignment}
    (rightInstance : left.instantiate forth = right)
    (leftInstance : right.instantiate back = left) : left.canonical = right.canonical := by
  have inverse := eq_var_of_instantiate_eq_self
    (show left.instantiate (fun name => (forth name).instantiate back) = left by
      rw [← instantiate_instantiate, rightInstance, leftInstance])
  obtain ⟨rename, renames, injective⟩ := exists_rename_of_inverse inverse
  rw [← rightInstance, instantiate_congr renames, canonical_instantiate_rename injective]

namespace AnnotatedTerm

variable {term : AnnotatedTerm} {rename : TypeVar → TypeVar}

theorem eq_var_of_instantiate_eq_self {assignment : Assignment}
    (fixed : term.instantiate assignment = term) :
    ∀ name ∈ term.occurrences, assignment name = .var name := by
  have types := term.types_instantiate assignment
  rw [fixed] at types
  intro name member
  obtain ⟨ty, stored, occurs⟩ := List.mem_flatMap.mp member
  have unchanged : ty.instantiate assignment = ty :=
    List.map_inj_left.mp (types.symm.trans (List.map_id _).symm) ty stored
  exact Ty.eq_var_of_instantiate_eq_self unchanged name occurs

/-- The canonical form of an annotated term, without the numbering that led to it. -/
def canonicalForm (term : AnnotatedTerm) : Except Exhausted AnnotatedTerm :=
  term.canonical.map Prod.fst

theorem canonicalForm_eq (term : AnnotatedTerm) :
    term.canonicalForm =
      if term.numbering.Fits then
        .ok (term.instantiate fun name => .var (term.numbering.rename name))
      else
        .error .exhausted := by
  rw [canonicalForm, canonical_eq]
  split <;> rfl

theorem canonicalForm_instantiate_rename
    (injective : Set.InjOn rename {name | name ∈ term.occurrences}) :
    (term.instantiate fun name => .var (rename name)).canonicalForm =
      term.canonicalForm :=
  mentions.map_fst_run_rename reads_number injective

/-- Terms that are instances of each other have the same canonical form. -/
theorem canonicalForm_eq_of_instances {left right : AnnotatedTerm}
    {forth back : Assignment} (rightInstance : left.instantiate forth = right)
    (leftInstance : right.instantiate back = left) :
    left.canonicalForm = right.canonicalForm := by
  have inverse := eq_var_of_instantiate_eq_self
    (show left.instantiate (fun name => (forth name).instantiate back) = left by
      rw [← instantiate_instantiate, rightInstance, leftInstance])
  obtain ⟨rename, renames, injective⟩ := exists_rename_of_inverse inverse
  have isRenaming : left.instantiate forth =
      left.instantiate fun name => .var (rename name) := by
    apply instantiate_congr
    intro ty stored name occurs
    exact renames name (List.mem_flatMap.mpr ⟨ty, stored, occurs⟩)
  rw [← rightInstance, isRenaming, canonicalForm_instantiate_rename injective]

/-! ## Canonical terms -/

theorem canonicalForm_idem {normal : AnnotatedTerm}
    (form : term.canonicalForm = .ok normal) : normal.canonicalForm = .ok normal := by
  cases numbered : term.canonical with
  | error reason => simp [canonicalForm, numbered, Except.map] at form
  | ok result =>
      obtain rfl : result.1 = normal := by
        simpa [canonicalForm, numbered, Except.map] using form
      obtain ⟨again, same, -⟩ := decidesRenaming_canonical.idempotent numbered
      rw [canonicalForm, same]
      rfl

theorem prefix_occurrences_ty (term : AnnotatedTerm) :
    term.ty.occurrences <+: term.occurrences := by
  induction term with
  | unit => exact List.prefix_refl _
  | abs binder domain body ih =>
      rw [ty, Ty.occurrences, occurrences_abs]
      exact (List.prefix_append_right_inj _).mpr ih
  | var | hole => simp [ty]
  | app | pair | proj1 | proj2 => simp [ty]

/-- The type of a canonical term is canonical, since its type variables come first. -/
theorem canonical_ty (canonical : term.canonicalForm = .ok term) :
    term.ty.canonical = .ok term.ty := by
  have form := term.canonicalForm_eq
  by_cases fits : term.numbering.Fits
  · rw [if_pos fits, canonical] at form
    have fixed := eq_var_of_instantiate_eq_self (Except.ok.inj form).symm
    obtain ⟨rest, split⟩ := term.prefix_occurrences_ty
    have continued : term.numbering = term.ty.numbering.see rest := by
      rw [numbering, ← split, Numbering.see_append, Ty.numbering]
    have tyFits : term.ty.numbering.Fits := (continued ▸ fits).of_see
    rw [Ty.canonical_eq, if_pos tyFits, Ty.instantiate_eq_self]
    intro name member
    have seen : name ∈ term.ty.numbering.seen := Numbering.mem_see.mpr (.inr member)
    rw [← Numbering.rename_see seen rest, ← continued]
    exact fixed name (split ▸ List.mem_append_left rest member)
  · rw [if_neg fits, canonical] at form
    simp at form

end AnnotatedTerm

namespace Inference

variable {term : Term} {inference : Inference}

/-- What inference numbers: the draft of the term, solved. -/
theorem exists_canonical_eq (inferred : infer term = .ok inference) :
    ∃ draft supply solution numbering, term.annotated = .ok draft supply ∧
      (Unify.solve draft.constraints).run .empty = .ok () solution ∧
      (draft.applySubstitution solution).canonical = .ok (inference.term, numbering) := by
  cases annotated : term.annotated with
  | error failure rest => simp [infer, annotated] at inferred
  | ok draft rest =>
      cases solved : (Unify.solve draft.constraints).run .empty with
      | error clash after => simp [infer, annotated, solved] at inferred
      | ok _ solution =>
          cases canonical : (draft.applySubstitution solution).canonical with
          | error reason => simp [infer, annotated, solved, canonical] at inferred
          | ok result =>
              obtain rfl : ofAnnotated result.1 = inference := by
                simpa [infer, annotated, solved, canonical] using inferred
              exact ⟨draft, rest, solution, result.2, rfl, solved, canonical⟩

theorem canonicalForm_term (inferred : infer term = .ok inference) :
    inference.term.canonicalForm = .ok inference.term := by
  obtain ⟨draft, _, solution, _, -, -, canonical⟩ := exists_canonical_eq inferred
  have form : (draft.applySubstitution solution).canonicalForm = .ok inference.term := by
    rw [AnnotatedTerm.canonicalForm, canonical]
    rfl
  exact AnnotatedTerm.canonicalForm_idem form

theorem canonical_ty (inferred : infer term = .ok inference) :
    inference.ty.canonical = .ok inference.ty := by
  rw [eq_ofAnnotated inferred]
  exact AnnotatedTerm.canonical_ty (canonicalForm_term inferred)

/-- The inferred type depends only on which types a program has. -/
theorem ty_eq_of_hasType_iff {other : Term} {otherInference : Inference}
    (inferred : infer term = .ok inference) (otherInferred : infer other = .ok otherInference)
    (same : ∀ ty, term.HasType .empty ty ↔ other.HasType .empty ty) :
    inference.ty = otherInference.ty := by
  obtain ⟨forth, otherInstance⟩ :=
    exists_instance inferred ((same _).mpr (hasType otherInferred))
  obtain ⟨back, instanceOfOther⟩ :=
    exists_instance otherInferred ((same _).mp (hasType inferred))
  have canonical := Ty.canonical_eq_of_instances otherInstance instanceOfOther
  rw [canonical_ty inferred, canonical_ty otherInferred] at canonical
  exact Except.ok.inj canonical

end Inference

end TypedHoles
