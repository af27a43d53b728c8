import TypedHoles.Proofs.MostGeneralUnifier

/-!
# The substitutions that unification reaches

A substitution starts empty.  It is applied to types, types are unified under it
and constraints are solved under it, and some of this fails on the way.  All the
substitutions that come up are coherent, those that a failure leaves behind, too.
So at every point a unification that succeeds finds a most general unifier for
the bindings made so far, and one that fails tells the truth about why there is
none.
-/

namespace TypedHoles

namespace Substitution

/-- Something that is done with a substitution. -/
inductive Operation where
  | apply (ty : Ty)
  | unify (left right : Ty)
  | solve (constraints : List Constraint)
  deriving DecidableEq, Repr

/-- The substitution with which a computation ends, whether or not it fails. -/
def leftBy : EStateM.Result Clash Substitution Unit → Substitution
  | .ok _ after => after
  | .error _ after => after

/-- The substitution after an operation. -/
def perform (substitution : Substitution) : Operation → Substitution
  | .apply ty => ((apply ty).run substitution).2
  | .unify left right => leftBy ((Unify.unify left right).run substitution)
  | .solve constraints => leftBy ((Unify.solve constraints).run substitution)

/-- The substitutions that come up when operations are performed one after the
other, from the empty one on. -/
inductive Reachable : Substitution → Prop
  | empty : Reachable .empty
  | perform {substitution : Substitution} (earlier : Reachable substitution)
      (operation : Operation) : Reachable (substitution.perform operation)

theorem extends_leftBy {names : Set TypeVar} {goal : Assignment → Prop}
    {before : Substitution} {result : EStateM.Result Clash Substitution Unit}
    (outcome : Unify.Outcome names goal before result) :
    Extends names before (leftBy result) := by
  cases result with
  | ok _ after => exact outcome.1
  | error clash after => exact outcome.1

section Coherent

variable {substitution : Substitution}

/-- Every operation amounts to changes that unification makes. -/
theorem Coherent.extends_perform (coherent : substitution.Coherent)
    (operation : Operation) :
    Extends Set.univ substitution (substitution.perform operation) := by
  cases operation with
  | apply ty =>
      obtain ⟨next, run, same, nextCoherent⟩ := coherent.apply_run ty
      have performed : substitution.perform (.apply ty) = next := by
        rw [perform, run]
      rw [performed]
      exact .step (.remember same nextCoherent)
  | unify left right =>
      exact extends_leftBy (Unify.unify_outcome_univ coherent left right)
  | solve constraints =>
      exact extends_leftBy (Unify.solve_outcome_univ coherent constraints)

theorem Coherent.get?_eq_none_iff (coherent : substitution.Coherent)
    {name : TypeVar} :
    substitution.get? name = none ↔ substitution.binds name = false := by
  rw [get?, Option.or_eq_none_iff, binds_eq_false, and_iff_right_iff_imp]
  intro free
  -- The cache knows only type variables that the table binds.
  cases cached : substitution.cache.get? name with
  | none => rfl
  | some ty =>
      have bound := coherent.binds_of_remembered cached
      simp [binds, free] at bound

/-- Applying a coherent substitution gives the same types before and after it has
been applied to another type. -/
theorem Coherent.apply_twice (coherent : substitution.Coherent) (first second : Ty) :
    ∃ middle last,
      (apply first).run substitution =
        (first.instantiate substitution.resolution, middle) ∧
      (apply second).run middle =
        (second.instantiate substitution.resolution, last) := by
  obtain ⟨middle, firstRun, same, middleCoherent⟩ := coherent.apply_run first
  obtain ⟨last, secondRun, -, -⟩ := middleCoherent.apply_run second
  rw [resolution_eq_of_table same] at secondRun
  exact ⟨middle, last, firstRun, secondRun⟩

end Coherent

theorem Reachable.extends_empty {substitution : Substitution}
    (reachable : substitution.Reachable) : Extends Set.univ .empty substitution := by
  induction reachable with
  | empty => exact .refl _
  | perform _ operation ih =>
      -- What has been done so far keeps the substitution coherent, failures included.
      exact ih.trans ((ih.coherent coherent_empty).extends_perform operation)

theorem Reachable.coherent {substitution : Substitution}
    (reachable : substitution.Reachable) : substitution.Coherent :=
  reachable.extends_empty.coherent coherent_empty

end Substitution

namespace Unify

open Substitution

/-- A unification that succeeds makes the two types equal, and it adds to what a
satisfying assignment has to fulfil that it does so, and nothing else. -/
theorem unify_most_general {before after : Substitution} {left right : Ty}
    (reachable : before.Reachable)
    (unified : (unify left right).run before = .ok () after) :
    (∃ ty middle last, (Substitution.apply left).run after = (ty, middle) ∧
      (Substitution.apply right).run middle = (ty, last) ∧
      ((Substitution.apply right).run after).1 = ty) ∧
    ∀ assignment, after.SatisfiedBy assignment ↔
      before.SatisfiedBy assignment ∧
        left.instantiate assignment = right.instantiate assignment := by
  have outcome := unify_outcome_univ reachable.coherent left right
  rw [unified] at outcome
  obtain ⟨steps, satisfied⟩ := outcome
  have coherent := steps.coherent reachable.coherent
  refine ⟨?_, satisfied⟩
  have equal : left.instantiate after.resolution = right.instantiate after.resolution :=
    ((satisfied _).mp coherent.satisfiedBy_resolution).2
  obtain ⟨middle, last, leftRun, rightRun⟩ := coherent.apply_twice left right
  obtain ⟨_, alone, -⟩ := coherent.apply_run right
  refine ⟨_, middle, last, leftRun, ?_, ?_⟩
  · rw [rightRun, equal]
  · rw [alone, equal]

theorem unify_most_general_pairedResult :
    let before := Substitution.empty.perform
      (.unify (.var ⟨0⟩) (.arrow (.var ⟨1⟩) (.var ⟨2⟩)))
    let left : Ty := .product (.var ⟨0⟩) (.var ⟨3⟩)
    let right : Ty := .product (.arrow .unit (.var ⟨3⟩)) (.var ⟨2⟩)
    before.Reachable ∧ ∃ after, (unify left right).run before = .ok () after ∧
      ((Substitution.apply right).run after).1 =
        .product (.arrow .unit (.var ⟨3⟩)) (.var ⟨3⟩) ∧
      ∀ assignment, after.SatisfiedBy assignment ↔
        before.SatisfiedBy assignment ∧
          left.instantiate assignment = right.instantiate assignment :=
  have reachable := Reachable.empty.perform
    (.unify (.var ⟨0⟩) (.arrow (.var ⟨1⟩) (.var ⟨2⟩)))
  ⟨reachable, _, rfl, rfl, (unify_most_general reachable rfl).2⟩

/-- A unification fails exactly if no assignment satisfies the bindings and makes
the two types equal.  The types that it reports have different shapes, or one is a
type variable that occurs inside the other, and what it reports is resolved as far
as the bindings that it leaves behind go. -/
theorem unify_fails_iff_unsolvable {before : Substitution}
    (reachable : before.Reachable) (left right : Ty) :
    ((∃ clash after, (unify left right).run before = .error clash after) ↔
      ¬ ∃ assignment, before.SatisfiedBy assignment ∧
        left.instantiate assignment = right.instantiate assignment) ∧
    (∀ expected actual after,
      (unify left right).run before = .error (.mismatch expected actual) after →
      (∃ expectedShape actualShape, expected.shape? = some expectedShape ∧
        actual.shape? = some actualShape ∧ expectedShape ≠ actualShape) ∧
      ∀ name ∈ expected.occurrences ++ actual.occurrences,
        after.get? name = none) ∧
    ∀ name ty after,
      (unify left right).run before = .error (.circularity name ty) after →
      ty.shape?.isSome = true ∧ name ∈ ty.occurrences ∧
        ∀ other ∈ name :: ty.occurrences, after.get? other = none := by
  have outcome := unify_outcome_univ reachable.coherent left right
  refine ⟨?_, ?_, ?_⟩
  · have decided := exists_unify_run_ok_iff reachable.coherent left right
    refine Iff.trans ?_ (not_congr decided)
    cases (unify left right).run before <;> simp
  · intro expected actual after failed
    rw [failed] at outcome
    obtain ⟨steps, ⟨shapes, free⟩, -⟩ := outcome
    have coherent := steps.coherent reachable.coherent
    exact ⟨shapes, fun name member => coherent.get?_eq_none_iff.mpr (free name member)⟩
  · intro name ty after failed
    rw [failed] at outcome
    obtain ⟨steps, ⟨shaped, occurs, free⟩, -⟩ := outcome
    have coherent := steps.coherent reachable.coherent
    refine ⟨shaped, occurs, List.forall_mem_cons.mpr ⟨?_, ?_⟩⟩
    · exact coherent.get?_eq_none_iff.mpr (free name occurs)
    · exact fun other member => coherent.get?_eq_none_iff.mpr (free other member)

/-- What a unification leaves behind that has bound the third type variable before
it came upon different shapes. -/
def leftByMismatch : Substitution :=
  (Substitution.empty.perform
    (.unify (.var ⟨0⟩) (.arrow (.var ⟨1⟩) .unit))).perform
    (.unify (.product (.var ⟨2⟩) .unit) (.product (.var ⟨1⟩) (.arrow .unit .unit)))

theorem unify_fails_iff_unsolvable_leftByMismatch :
    leftByMismatch.Reachable ∧
    (¬ ∃ assignment : Assignment, leftByMismatch.SatisfiedBy assignment ∧
      assignment ⟨2⟩ = assignment ⟨0⟩) ∧
    ∃ after,
      (unify (.var ⟨0⟩) (.product (.var ⟨2⟩) .unit)).run leftByMismatch =
        .error (.mismatch (.arrow (.var ⟨1⟩) .unit) (.product (.var ⟨1⟩) .unit)) after ∧
      ∀ name ∈ [(⟨1⟩ : TypeVar), ⟨1⟩], after.get? name = none := by
  have reachable : leftByMismatch.Reachable := (Reachable.empty.perform _).perform _
  obtain ⟨unsolvable, -, -⟩ :=
    unify_fails_iff_unsolvable reachable (.var ⟨2⟩) (.var ⟨0⟩)
  obtain ⟨-, mismatch, -⟩ :=
    unify_fails_iff_unsolvable reachable (.var ⟨0⟩) (.product (.var ⟨2⟩) .unit)
  refine ⟨reachable, unsolvable.mp ?_, _, rfl, (mismatch _ _ _ rfl).2⟩
  exact ⟨.circularity ⟨1⟩ (.arrow (.var ⟨1⟩) .unit), _, rfl⟩

end Unify

end TypedHoles
