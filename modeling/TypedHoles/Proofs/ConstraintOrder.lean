import TypedHoles.Proofs.CanonicalForms

/-!
# The order of constraints does not matter

Solving constraints in another order, or with their sides exchanged, binds other type
variables in other directions.  But each of the two substitutions is most general, so
what they make of a term are instances of each other, and numbering the type
variables removes the difference.
-/

namespace TypedHoles

namespace Constraint

/-- The same equation with its sides exchanged. -/
def swapped (constraint : Constraint) : Constraint :=
  ⟨constraint.actual, constraint.expected⟩

/-- Whether two lists hold the same equations, in any order and each of them in either
direction. -/
def Rearranges (constraints others : List Constraint) : Prop :=
  ∃ permuted, constraints.Perm permuted ∧
    List.Forall₂ (fun original turned => turned = original ∨ turned = original.swapped)
      permuted others

end Constraint

namespace Unify

theorem solves_perm_iff {constraints permuted : List Constraint}
    (permutation : constraints.Perm permuted) (assignment : Assignment) :
    Solves constraints assignment ↔ Solves permuted assignment := by
  simp only [Solves, permutation.mem_iff]

theorem solves_cons_iff (constraint : Constraint) (constraints : List Constraint)
    (assignment : Assignment) :
    Solves (constraint :: constraints) assignment ↔
      Equates constraint.expected constraint.actual assignment ∧
        Solves constraints assignment :=
  List.forall_mem_cons

theorem solves_turned_iff {constraints others : List Constraint}
    (turned : List.Forall₂
      (fun original turned => turned = original ∨ turned = original.swapped)
      constraints others) (assignment : Assignment) :
    Solves constraints assignment ↔ Solves others assignment := by
  induction turned with
  | nil => rfl
  | cons head tail ih =>
      rw [solves_cons_iff, solves_cons_iff, ih]
      rcases head with rfl | rfl
      · rfl
      · exact and_congr_left' eq_comm

theorem solves_rearranges_iff {constraints others : List Constraint}
    (rearranges : Constraint.Rearranges constraints others) (assignment : Assignment) :
    Solves constraints assignment ↔ Solves others assignment := by
  obtain ⟨permuted, permutation, turned⟩ := rearranges
  rw [solves_perm_iff permutation, solves_turned_iff turned]

/-- Solving succeeds exactly if some assignment solves the constraints. -/
theorem exists_solve_run_ok_iff (constraints : List Constraint) :
    (∃ solution, (solve constraints).run .empty = .ok () solution) ↔
      ∃ assignment, Solves constraints assignment := by
  cases run : (solve constraints).run .empty with
  | ok _ solution =>
      obtain ⟨-, -, solves, -⟩ := solve_run_ok (fun _ _ _ _ => Set.mem_univ _) run
      exact iff_of_true ⟨solution, rfl⟩ ⟨_, solves⟩
  | error clash after =>
      refine iff_of_false (by simp) ?_
      rintro ⟨assignment, solves⟩
      exact solve_run_error run assignment solves

/-- What a most general solution makes of a term has every other solution's result as
an instance. -/
theorem instantiate_applySubstitution {constraints : List Constraint}
    {solution other : Substitution}
    (run : (solve constraints).run .empty = .ok () solution) (coherent : other.Coherent)
    (solves : Solves constraints other.resolution) (term : AnnotatedTerm) :
    (term.applySubstitution solution).instantiate other.resolution =
      term.applySubstitution other := by
  obtain ⟨solutionCoherent, -, -, general⟩ :=
    solve_run_ok (fun _ _ _ _ => Set.mem_univ _) run
  rw [AnnotatedTerm.applySubstitution_eq _ solutionCoherent,
    AnnotatedTerm.applySubstitution_eq _ coherent]
  exact AnnotatedTerm.instantiate_resolution solutionCoherent (general _ solves) term

/-- Rearranged constraints are solved or not together, and their solutions make the
same canonical form of every term. -/
theorem solve_rearranged {constraints others : List Constraint}
    (rearranges : Constraint.Rearranges constraints others) :
    ((∃ solution, (solve constraints).run .empty = .ok () solution) ↔
      ∃ solution, (solve others).run .empty = .ok () solution) ∧
    ∀ solution otherSolution, (solve constraints).run .empty = .ok () solution →
      (solve others).run .empty = .ok () otherSolution → ∀ term : AnnotatedTerm,
        (term.applySubstitution solution).canonicalForm =
          (term.applySubstitution otherSolution).canonicalForm := by
  have same := solves_rearranges_iff rearranges
  constructor
  · rw [exists_solve_run_ok_iff, exists_solve_run_ok_iff]
    exact exists_congr same
  · intro solution otherSolution run otherRun term
    obtain ⟨coherent, -, solves, -⟩ := solve_run_ok (fun _ _ _ _ => Set.mem_univ _) run
    obtain ⟨otherCoherent, -, otherSolves, -⟩ :=
      solve_run_ok (fun _ _ _ _ => Set.mem_univ _) otherRun
    exact AnnotatedTerm.canonicalForm_eq_of_instances
      (instantiate_applySubstitution run otherCoherent ((same _).mpr otherSolves) term)
      (instantiate_applySubstitution otherRun coherent ((same _).mp solves) term)

/-- Two equations that share a type variable. -/
def sharedVariable : List Constraint :=
  [⟨.var ⟨0⟩, .var ⟨1⟩⟩, ⟨.var ⟨2⟩, .arrow (.var ⟨0⟩) .unit⟩]

/-- The same equations in the other order, both of them turned. -/
def sharedVariableTurned : List Constraint :=
  [⟨.arrow (.var ⟨0⟩) .unit, .var ⟨2⟩⟩, ⟨.var ⟨1⟩, .var ⟨0⟩⟩]

theorem solve_rearranged_sharedVariable :
    let term : AnnotatedTerm := .app (.hole ⟨0⟩ (.var ⟨2⟩)) (.hole ⟨1⟩ (.var ⟨1⟩)) .unit
    ∃ solution otherSolution, (solve sharedVariable).run .empty = .ok () solution ∧
      (solve sharedVariableTurned).run .empty = .ok () otherSolution ∧
      term.applySubstitution solution ≠ term.applySubstitution otherSolution ∧
      (term.applySubstitution solution).canonicalForm =
        (term.applySubstitution otherSolution).canonicalForm := by
  have rearranges : Constraint.Rearranges sharedVariable sharedVariableTurned :=
    ⟨sharedVariable.reverse, (List.reverse_perm _).symm,
      .cons (.inr rfl) (.cons (.inr rfl) .nil)⟩
  obtain ⟨-, same⟩ := solve_rearranged rearranges
  exact ⟨_, _, rfl, rfl, by decide, same _ _ rfl rfl _⟩

end Unify

end TypedHoles
