import TypedHoles.Proofs.FreshAnnotation

/-!
# Principal typings

Inference returns a typing derivation for its term, of which every other
derivation for the same term is an instance.  It fails only if a variable is not
bound, if the constraints have no solution, or if the type variables do not
suffice.
-/

namespace TypedHoles

namespace AnnotatedTerm

theorem occurrences_ty_subset (term : AnnotatedTerm) :
    ∀ name ∈ term.ty.occurrences, name ∈ term.occurrences := by
  induction term with
  | unit => simp [ty, Ty.occurrences]
  | abs binder domain body ih =>
      intro name member
      simp only [ty, Ty.occurrences, List.mem_append] at member
      rw [occurrences_abs, List.mem_append]
      exact member.imp_right (ih name)
  | var | app | pair | proj1 | proj2 | hole => simp +contextual [ty]

theorem constraints_within {names : Set TypeVar} {term : AnnotatedTerm}
    (within : ∀ name ∈ term.occurrences, name ∈ names) :
    ∀ constraint ∈ term.constraints, Unify.Within names constraint := by
  induction term with
  | unit | var | hole => simp [constraints]
  | abs binder domain body ih =>
      exact ih fun name member => within name (by simp [member])
  | app applicant argument ty applicantIh argumentIh =>
      have applicantTy := applicant.occurrences_ty_subset
      have argumentTy := argument.occurrences_ty_subset
      rw [constraints, List.forall_mem_cons, List.forall_mem_append]
      refine ⟨fun name member => within name ?_,
        applicantIh fun name member => within name (by simp [member]),
        argumentIh fun name member => within name (by simp [member])⟩
      simp only [Ty.occurrences, List.mem_append] at member
      simp only [occurrences_app, List.mem_append]
      grind
  | pair first second ty firstIh secondIh =>
      have firstTy := first.occurrences_ty_subset
      have secondTy := second.occurrences_ty_subset
      rw [constraints, List.forall_mem_cons, List.forall_mem_append]
      refine ⟨fun name member => within name ?_,
        firstIh fun name member => within name (by simp [member]),
        secondIh fun name member => within name (by simp [member])⟩
      simp only [Ty.occurrences, List.mem_append] at member
      simp only [occurrences_pair, List.mem_append]
      grind
  | proj1 argument ty second ih =>
      have argumentTy := argument.occurrences_ty_subset
      rw [constraints, List.forall_mem_cons]
      refine ⟨fun name member => within name ?_,
        ih fun name member => within name (by simp [member])⟩
      simp only [Ty.occurrences, List.mem_append] at member
      simp only [occurrences_proj1, List.mem_append]
      grind
  | proj2 argument ty first ih =>
      have argumentTy := argument.occurrences_ty_subset
      rw [constraints, List.forall_mem_cons]
      refine ⟨fun name member => within name ?_,
        ih fun name member => within name (by simp [member])⟩
      simp only [Ty.occurrences, List.mem_append] at member
      simp only [occurrences_proj2, List.mem_append]
      grind

theorem types_instantiate (term : AnnotatedTerm) (assignment : Assignment) :
    (term.instantiate assignment).types =
      term.types.map (Ty.instantiate assignment) := by
  induction term with
  | unit | var | hole => rfl
  | abs binder domain body ih => simp [instantiate, types, ih]
  | app applicant argument ty applicantIh argumentIh =>
      simp [instantiate, types, applicantIh, argumentIh]
  | pair first second ty firstIh secondIh =>
      simp [instantiate, types, firstIh, secondIh]
  | proj1 argument ty second ih => simp [instantiate, types, ih]
  | proj2 argument ty first ih => simp [instantiate, types, ih]

theorem occurrences_resolved_within {names : Set TypeVar} {term : AnnotatedTerm}
    {substitution : Substitution} (kept : substitution.Keeps names)
    (within : ∀ name ∈ term.occurrences, name ∈ names) :
    ∀ name ∈ (term.instantiate substitution.resolution).occurrences,
      name ∈ names := by
  intro name member
  simp only [occurrences, types_instantiate, List.mem_flatMap, List.mem_map] at member
  obtain ⟨_, ⟨ty, stored, rfl⟩, member⟩ := member
  exact kept.instantiate
    (fun other occurs => within other (List.mem_flatMap.mpr ⟨ty, stored, occurs⟩))
    name member

theorem traverseTypes_yields (term : AnnotatedTerm) {base : Substitution}
    {rank : TypeVar → Nat} :
    base.Yields rank (term.traverseTypes Substitution.apply)
      (term.instantiate base.resolution) := by
  induction term with
  | unit => exact Substitution.yields_pure _
  | var name ty | hole name ty =>
      exact (Substitution.apply_yields ty).bind (Substitution.yields_pure _)
  | abs binder domain body ih =>
      exact (Substitution.apply_yields domain).bind
        (ih.bind (Substitution.yields_pure _))
  | app applicant argument ty applicantIh argumentIh =>
      exact (Substitution.apply_yields ty).bind
        (applicantIh.bind (argumentIh.bind (Substitution.yields_pure _)))
  | pair first second ty firstIh secondIh =>
      exact (Substitution.apply_yields ty).bind
        (firstIh.bind (secondIh.bind (Substitution.yields_pure _)))
  | proj1 argument ty second ih =>
      exact (Substitution.apply_yields ty).bind
        ((Substitution.apply_yields second).bind
          (ih.bind (Substitution.yields_pure _)))
  | proj2 argument ty first ih =>
      exact (Substitution.apply_yields ty).bind
        ((Substitution.apply_yields first).bind
          (ih.bind (Substitution.yields_pure _)))

theorem applySubstitution_eq (term : AnnotatedTerm) {substitution : Substitution}
    (coherent : substitution.Coherent) :
    term.applySubstitution substitution =
      term.instantiate substitution.resolution := by
  obtain ⟨rank, ranked⟩ := coherent.ranked
  obtain ⟨_, run, -⟩ := term.traverseTypes_yields substitution rfl ranked coherent
  rw [applySubstitution, run]

end AnnotatedTerm

/-! ## What inference returns -/

/-- A derivation for a closed term of which every other one is an instance. -/
structure Term.IsPrincipal (term : Term) (derivation : AnnotatedTerm) : Prop where
  erases : derivation.erase = term
  wellTyped : derivation.WellTyped .empty
  general : ∀ other : AnnotatedTerm, other.erase = term → other.WellTyped .empty →
    ∃ assignment, derivation.instantiate assignment = other

/-- What inference can answer for a term, and in which case. -/
inductive InferOutcome (term : Term) : Except InferFailure Inference → Prop
  | unbound {name : VarName}
      (free : (term.freeOccurrences []).head? = some name) :
      InferOutcome term (.error (.illTyped (.unbound name)))
  | exhausted (many : UInt32.size ≤ term.typeVarCount) :
      InferOutcome term (.error .exhausted)
  | clash {reason : Clash} (few : term.typeVarCount < UInt32.size)
      (bound : term.freeOccurrences [] = [])
      (untypable : ∀ derivation : AnnotatedTerm,
        derivation.erase = term → ¬ derivation.WellTyped .empty) :
      InferOutcome term (.error (.illTyped (.clash reason)))
  | typed {derivation : AnnotatedTerm} (few : term.typeVarCount < UInt32.size)
      (principal : term.IsPrincipal derivation) :
      InferOutcome term (.ok (.ofAnnotated derivation))

namespace Term

variable {term : Term}

theorem occurrences_draft_within :
    ∀ name ∈ (term.draft .empty 0).occurrences,
      name ∈ {name : TypeVar | name.index.toNat < term.typeVarCount} := by
  intro name member
  obtain ⟨ty, stored, occurs⟩ := List.mem_flatMap.mp member
  simpa using below_draft (Context.below_empty 0) ty stored name occurs

/-- The derivations of a term are the instances of its draft under the solutions
of the constraints. -/
theorem exists_solution_of_wellTyped {derivation : AnnotatedTerm}
    (few : term.typeVarCount < UInt32.size) (erases : derivation.erase = term)
    (wellTyped : derivation.WellTyped .empty) :
    ∃ assignment, Unify.Solves (term.draft .empty 0).constraints assignment ∧
      (term.draft .empty 0).instantiate assignment = derivation := by
  subst erases
  have inScope : derivation.Scoped .empty := (AnnotatedTerm.wellTyped_iff.mp wellTyped).1
  have draftInScope : derivation.Scoped (Context.instantiate .empty Ty.var) := inScope
  obtain ⟨assignment, -, isInstance⟩ :=
    draftInScope.exists_instance_draft (Context.below_empty 0) (by omega)
  refine ⟨assignment, ?_, isInstance⟩
  rw [← AnnotatedTerm.wellTyped_instantiate_iff
    (scoped_draft 0 inScope.freeOccurrences_eq_nil), isInstance]
  exact wellTyped

/-- A most general solution keeps to the type variables of the draft, so there
are enough numbers for those that are left. -/
theorem fits_numbering_resolved {solution : Substitution}
    (few : term.typeVarCount < UInt32.size)
    (kept : solution.Keeps {name | name.index.toNat < term.typeVarCount}) :
    ((term.draft .empty 0).instantiate solution.resolution).numbering.Fits := by
  refine Nat.lt_of_le_of_lt (Numbering.length_seen_le ?_ ?_) few
  · exact Numbering.nodup_see List.nodup_nil _
  · intro name seen
    have occurs := (Numbering.mem_see.mp seen).resolve_left List.not_mem_nil
    exact AnnotatedTerm.occurrences_resolved_within kept occurrences_draft_within
      name occurs

end Term

/-- Every instance that satisfies the bindings of a substitution is an instance
of what the substitution makes of the term. -/
theorem AnnotatedTerm.instantiate_resolution {solution : Substitution}
    (coherent : solution.Coherent) {assignment : Assignment}
    (satisfied : solution.SatisfiedBy assignment) (term : AnnotatedTerm) :
    (term.instantiate solution.resolution).instantiate assignment =
      term.instantiate assignment := by
  rw [instantiate_instantiate]
  apply instantiate_congr
  intro ty _ name _
  exact coherent.instantiate_resolution satisfied (.var name)

/-- From a most general solution to a most general derivation. -/
theorem inferOutcome_of_solution {term : Term} {solution : Substitution}
    (few : term.typeVarCount < UInt32.size)
    (bound : term.freeOccurrences [] = [])
    (run : (Unify.solve (term.draft .empty 0).constraints).run .empty =
      .ok () solution) :
    ∃ derivation numbering,
      ((term.draft .empty 0).applySubstitution solution).canonical =
        .ok (derivation, numbering) ∧
      InferOutcome term (.ok (.ofAnnotated derivation)) := by
  obtain ⟨coherent, kept, solves, general⟩ := Unify.solve_run_ok
    (AnnotatedTerm.constraints_within Term.occurrences_draft_within) run
  have fits := Term.fits_numbering_resolved few kept
  rw [AnnotatedTerm.applySubstitution_eq _ coherent, AnnotatedTerm.canonical_eq,
    if_pos fits]
  refine ⟨_, _, rfl, .typed few ⟨?_, ?_, ?_⟩⟩
  · simp
  · -- The equations hold under the solution, and renaming keeps them.
    have inScope : (term.draft .empty 0).Scoped .empty := Term.scoped_draft 0 bound
    have solved := (AnnotatedTerm.wellTyped_instantiate_iff inScope
      solution.resolution).mpr solves
    exact solved.instantiate _
  · intro other erases wellTyped
    obtain ⟨assignment, otherSolves, rfl⟩ :=
      Term.exists_solution_of_wellTyped few erases wellTyped
    refine ⟨_, (AnnotatedTerm.instantiate_origin fits assignment).trans ?_⟩
    exact AnnotatedTerm.instantiate_resolution coherent (general _ otherSolves) _

theorem infer_outcome (term : Term) : InferOutcome term (infer term) := by
  have annotated := Annotate.annotate_draws .empty term .full
  unfold infer Term.annotated
  cases ran : (Annotate.annotate .empty term).run .full with
  | error failure rest =>
      rw [ran] at annotated
      cases failure with
      | exhausted =>
          have many : UInt32.size ≤ 0 + term.typeVarCount := annotated
          exact .exhausted (by omega)
      | illTyped error =>
          obtain ⟨name, rfl, free⟩ := annotated
          exact .unbound free
  | ok draft rest =>
      rw [ran] at annotated
      obtain ⟨isDraft, drawn, bound⟩ := annotated
      obtain rfl : draft = term.draft .empty 0 := isDraft
      -- The supply counts what it has drawn in 32 bits.
      have count : rest.count = 0 + term.typeVarCount := drawn
      have few : term.typeVarCount < UInt32.size := by
        rw [← Nat.zero_add term.typeVarCount, ← count]
        exact rest.next.index.toNat_lt
      simp only
      cases solved : (Unify.solve (term.draft .empty 0).constraints).run .empty with
      | error reason after =>
          refine .clash few bound ?_
          intro derivation erases wellTyped
          obtain ⟨assignment, solves, -⟩ :=
            Term.exists_solution_of_wellTyped few erases wellTyped
          exact Unify.solve_run_error solved assignment solves
      | ok _ solution =>
          obtain ⟨derivation, numbering, canonical, outcome⟩ :=
            inferOutcome_of_solution few bound solved
          simp only [canonical]
          exact outcome

/-! ## Soundness, completeness and principality -/

section Consequences

variable {term : Term} {inference : Inference}

theorem infer_eq_ok (inferred : infer term = .ok inference) :
    inference = .ofAnnotated inference.term ∧ term.typeVarCount < UInt32.size ∧
      term.IsPrincipal inference.term := by
  have outcome := infer_outcome term
  rw [inferred] at outcome
  cases outcome with
  | typed few principal => exact ⟨rfl, few, principal⟩

theorem Inference.eq_ofAnnotated (inferred : infer term = .ok inference) :
    inference = .ofAnnotated inference.term :=
  (infer_eq_ok inferred).1

theorem Inference.ty_eq (inferred : infer term = .ok inference) :
    inference.ty = inference.term.ty := by
  rw [eq_ofAnnotated inferred]
  rfl

theorem Inference.typeVarCount_lt (inferred : infer term = .ok inference) :
    term.typeVarCount < UInt32.size :=
  (infer_eq_ok inferred).2.1

theorem Inference.isPrincipal (inferred : infer term = .ok inference) :
    term.IsPrincipal inference.term :=
  (infer_eq_ok inferred).2.2

theorem Inference.hasType (inferred : infer term = .ok inference) :
    term.HasType .empty inference.ty := by
  have principal := isPrincipal inferred
  rw [ty_eq inferred, ← principal.erases]
  exact principal.wellTyped.hasType

/-- Every type of a program is an instance of the inferred one. -/
theorem Inference.exists_instance (inferred : infer term = .ok inference) {ty : Ty}
    (typed : term.HasType .empty ty) :
    ∃ assignment, inference.ty.instantiate assignment = ty := by
  obtain ⟨derivation, erases, wellTyped, rfl⟩ :=
    Term.hasType_iff_exists_derivation.mp typed
  obtain ⟨assignment, rfl⟩ := (isPrincipal inferred).general derivation erases wellTyped
  exact ⟨assignment, by rw [ty_eq inferred, AnnotatedTerm.ty_instantiate]⟩

theorem Term.HasType.freeOccurrences_eq_nil {ty : Ty}
    (typed : term.HasType .empty ty) : term.freeOccurrences [] = [] := by
  obtain ⟨derivation, rfl, wellTyped, -⟩ :=
    Term.hasType_iff_exists_derivation.mp typed
  exact (AnnotatedTerm.wellTyped_iff.mp wellTyped).1.freeOccurrences_eq_nil

/-- Inference succeeds on the terms that have a type and do not need too many
type variables. -/
theorem exists_infer_iff :
    (∃ inference, infer term = .ok inference) ↔
      term.typeVarCount < UInt32.size ∧ ∃ ty, term.HasType .empty ty := by
  constructor
  · rintro ⟨inference, inferred⟩
    exact ⟨Inference.typeVarCount_lt inferred, inference.ty, Inference.hasType inferred⟩
  · rintro ⟨few, ty, typed⟩
    have bound := typed.freeOccurrences_eq_nil
    obtain ⟨derivation, rfl, wellTyped, -⟩ :=
      Term.hasType_iff_exists_derivation.mp typed
    generalize answer : infer derivation.erase = result
    have outcome := infer_outcome derivation.erase
    rw [answer] at outcome
    cases outcome with
    | unbound free => simp [bound] at free
    | exhausted many => omega
    | clash _ _ untypable => exact absurd wellTyped (untypable derivation rfl)
    | typed => exact ⟨_, rfl⟩

theorem Inference.freeOccurrences_eq_nil (inferred : infer term = .ok inference) :
    term.freeOccurrences [] = [] :=
  (hasType inferred).freeOccurrences_eq_nil

/-- Unless the type variables run out, inference succeeds exactly on the terms that
have a type. -/
theorem infer_exhausted_or_exists_infer_iff (term : Term) :
    infer term = .error .exhausted ∧ UInt32.size ≤ term.typeVarCount ∨
      ((∃ inference, infer term = .ok inference) ↔ ∃ ty, term.HasType .empty ty) := by
  generalize answer : infer term = result
  have outcome := infer_outcome term
  rw [answer] at outcome
  cases outcome with
  | exhausted many => exact .inl ⟨rfl, many⟩
  | unbound free =>
      refine .inr (iff_of_false (by simp) ?_)
      rintro ⟨ty, typed⟩
      simp [typed.freeOccurrences_eq_nil] at free
  | clash few | typed few =>
      rw [← answer, exists_infer_iff]
      exact .inr (and_iff_right few)

end Consequences

/-- The term of an inference is a derivation in the empty context for the term
that was inferred. -/
theorem infer_sound {term : Term} {inference : Inference}
    (inferred : infer term = .ok inference) :
    inference.term.erase = term ∧ inference.term.WellTyped .empty ∧
      inference.ty = inference.term.ty := by
  have principal := Inference.isPrincipal inferred
  refine ⟨principal.erases, principal.wellTyped, ?_⟩
  rw [Inference.eq_ofAnnotated inferred]
  rfl

/-- A derivation for a function that pairs the first component of a hole with
the result of its argument. -/
def projectedHole (result first second : Ty) : AnnotatedTerm :=
  .abs ⟨⟨0⟩, none⟩ (.arrow .unit result)
    (.pair (.proj1 (.hole ⟨0⟩ (.product first second)) first second)
      (.app (.var ⟨0⟩ (.arrow .unit result)) .unit result)
      (.product first result))

theorem infer_sound_projectedHole :
    let derivation := projectedHole (.var ⟨0⟩) (.var ⟨1⟩) (.var ⟨2⟩)
    infer (projectedHole .unit .unit .unit).erase = .ok (.ofAnnotated derivation) ∧
      derivation.erase = (projectedHole .unit .unit .unit).erase ∧
      derivation.WellTyped .empty ∧
      (Inference.ofAnnotated derivation).ty = derivation.ty :=
  have inferred : infer (projectedHole .unit .unit .unit).erase =
      .ok (.ofAnnotated (projectedHole (.var ⟨0⟩) (.var ⟨1⟩) (.var ⟨2⟩))) := by decide
  ⟨inferred, infer_sound inferred⟩

/-- Inference succeeds on every term that has a derivation, and every derivation
is an instance of the one that is found.  A clash is reported only for terms that
have none. -/
theorem infer_complete_and_principal (term : Term) :
    (term.typeVarCount < UInt32.size → ∀ derivation : AnnotatedTerm,
      derivation.erase = term → derivation.WellTyped .empty →
        ∃ inference assignment, infer term = .ok inference ∧
          inference.term.instantiate assignment = derivation) ∧
    ∀ reason, infer term = .error (.illTyped (.clash reason)) →
      ¬ ∃ derivation : AnnotatedTerm,
        derivation.erase = term ∧ derivation.WellTyped .empty := by
  constructor
  · intro few derivation erases wellTyped
    obtain ⟨inference, inferred⟩ :=
      exists_infer_iff.mpr ⟨few, derivation.ty, erases ▸ wellTyped.hasType⟩
    obtain ⟨assignment, isInstance⟩ :=
      (Inference.isPrincipal inferred).general derivation erases wellTyped
    exact ⟨inference, assignment, inferred, isInstance⟩
  · rintro reason failed ⟨derivation, erases, wellTyped⟩
    have outcome := infer_outcome term
    rw [failed] at outcome
    cases outcome with
    | clash _ _ untypable => exact untypable derivation erases wellTyped

theorem infer_complete_and_principal_projectedHole :
    (∃ inference assignment,
      infer (projectedHole .unit .unit .unit).erase = .ok inference ∧
        inference.term.instantiate assignment =
          projectedHole (.arrow .unit .unit) .unit (.var ⟨7⟩)) ∧
    ¬ ∃ derivation : AnnotatedTerm,
      derivation.erase =
          .abs ⟨⟨0⟩, none⟩ (.app (.var ⟨0⟩) (.var ⟨0⟩)) ∧
        derivation.WellTyped .empty :=
  ⟨(infer_complete_and_principal (projectedHole .unit .unit .unit).erase).1
      (by decide) (projectedHole (.arrow .unit .unit) .unit (.var ⟨7⟩)) rfl (by decide),
    (infer_complete_and_principal _).2
      (.circularity ⟨0⟩ (.arrow (.var ⟨0⟩) (.var ⟨1⟩))) (by decide)⟩

end TypedHoles
