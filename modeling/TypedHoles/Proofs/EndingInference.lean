import TypedHoles.Inference
import TypedHoles.Proofs.EndingUnification

/-!
# Inference that ends

Of the phases of inference, solving the constraints and applying the solution follow
bindings, and the others go through the term once.  Their rules are put together here.
Resolving types, unifying and solving end for every sound substitution, and inference
ends for every term.
-/

namespace TypedHoles

namespace Substitution

/-- Computations over a substitution that need not end, given by what they may end
with. -/
def Endings (α : Type) : Type :=
  Substitution → α → Substitution → Prop

namespace Endings

instance : Monad Endings where
  pure value := fun before result after => result = value ∧ after = before
  bind first rest := fun before result after =>
    ∃ value middle, first before value middle ∧ rest value middle result after

/-- Apply the current substitution to a type, by the rules. -/
def apply (ty : Ty) : Endings Ty := fun before result after =>
  ∃ new, Replaces before ty new after ∧ result = new.getD ty

variable {α β : Type}

/-- Whether, for coherent substitutions, what a computation may end with is what another
one does. -/
def Matches (endings : Endings α) (computation : StateM Substitution α) : Prop :=
  ∀ before : Substitution, before.Coherent →
    (∀ result after, endings before result after ↔
      computation.run before = (result, after)) ∧
    (computation.run before).2.Coherent

theorem matches_pure (value : α) : Matches (pure value) (pure value) := by
  intro before coherent
  refine ⟨fun result after => ?_, coherent⟩
  change result = value ∧ after = before ↔ (value, before) = (result, after)
  rw [Prod.mk.injEq, eq_comm, @eq_comm _ after]

theorem Matches.bind {first : Endings α} {firstComputation : StateM Substitution α}
    {rest : α → Endings β} {restComputation : α → StateM Substitution β}
    (firstMatches : Matches first firstComputation)
    (restMatches : ∀ value, Matches (rest value) (restComputation value)) :
    Matches (first >>= rest) (firstComputation >>= restComputation) := by
  intro before coherent
  obtain ⟨firstIff, middleCoherent⟩ := firstMatches before coherent
  obtain ⟨restIff, afterCoherent⟩ := restMatches (firstComputation.run before).1 _ middleCoherent
  rw [StateT.run_bind]
  refine ⟨fun result after => ?_, afterCoherent⟩
  constructor
  · rintro ⟨value, middle, ends, restEnds⟩
    have ran := (firstIff value middle).mp ends
    rw [ran] at restIff ⊢
    exact (restIff result after).mp restEnds
  · intro ran
    exact ⟨_, _, (firstIff _ _).mpr rfl, (restIff result after).mpr ran⟩

theorem matches_apply (ty : Ty) : Matches (apply ty) (Substitution.apply ty) := by
  intro before coherent
  obtain ⟨next, run, -, nextCoherent⟩ := coherent.apply_run ty
  have replaced : (Substitution.apply ty).run before =
      (((replace? ty).run before).1.getD ty, ((replace? ty).run before).2) :=
    rfl
  refine ⟨fun result after => ?_, by rw [run]; exact nextCoherent⟩
  rw [replaced]
  constructor
  · rintro ⟨new, replaces, rfl⟩
    rw [coherent.replaces_iff.mp replaces]
  · intro ran
    obtain ⟨rfl, rfl⟩ := Prod.mk.inj ran
    exact ⟨_, coherent.replaces_iff.mpr rfl, rfl⟩

theorem matches_traverseTypes (term : AnnotatedTerm) :
    Matches (term.traverseTypes apply) (term.traverseTypes Substitution.apply) := by
  induction term with
  | unit => exact matches_pure _
  | var _ ty | hole _ ty => exact (matches_apply ty).bind fun _ => matches_pure _
  | abs _ domain _ ih =>
      exact (matches_apply domain).bind fun _ => ih.bind fun _ => matches_pure _
  | app _ _ ty leftIh rightIh | pair _ _ ty leftIh rightIh =>
      exact (matches_apply ty).bind fun _ => leftIh.bind fun _ => rightIh.bind fun _ =>
        matches_pure _
  | proj1 _ ty other ih | proj2 _ ty other ih =>
      exact (matches_apply ty).bind fun _ => (matches_apply other).bind fun _ =>
        ih.bind fun _ => matches_pure _

end Endings

end Substitution

open Substitution

/-- What inference ends with, and the bindings that are made on the way. -/
inductive Infers (term : Term) : List Insertion → Except InferFailure Inference → Prop
  | undrafted {failure : InferFailure} {supply : NameSupply .typeVar}
      (failed : term.annotated = .error failure supply) : Infers term [] (.error failure)
  | clash {draft : AnnotatedTerm} {supply : NameSupply .typeVar} {made : List Insertion}
      {clash : Clash} {after : Substitution} (drafted : term.annotated = .ok draft supply)
      (solves : Unify.SolvesInTurn .empty draft.constraints made (.error clash after)) :
      Infers term made (.error (.illTyped (.clash clash)))
  | exhausted {draft resolved : AnnotatedTerm} {supply : NameSupply .typeVar}
      {made : List Insertion} {solution last : Substitution} {reason : Exhausted}
      (drafted : term.annotated = .ok draft supply)
      (solves : Unify.SolvesInTurn .empty draft.constraints made (.ok () solution))
      (applies : draft.traverseTypes Endings.apply solution resolved last)
      (numbered : resolved.canonical = .error reason) :
      Infers term made (.error .exhausted)
  | typed {draft resolved normal : AnnotatedTerm} {supply : NameSupply .typeVar}
      {made : List Insertion} {solution last : Substitution} {numbering : Numbering .typeVar}
      (drafted : term.annotated = .ok draft supply)
      (solves : Unify.SolvesInTurn .empty draft.constraints made (.ok () solution))
      (applies : draft.traverseTypes Endings.apply solution resolved last)
      (numbered : resolved.canonical = .ok (normal, numbering)) :
      Infers term made (.ok (.ofAnnotated normal))

section Inference

variable {term : Term} {made : List Insertion} {result : Except InferFailure Inference}

/-- At most the constraints of the annotated term make bindings. -/
theorem Infers.solves (infers : Infers term made result) :
    (made = [] ∧ ∃ failure supply, term.annotated = .error failure supply) ∨
    ∃ draft supply ending, term.annotated = .ok draft supply ∧
      Unify.SolvesInTurn .empty draft.constraints made ending := by
  cases infers with
  | undrafted failed => exact .inl ⟨rfl, _, _, failed⟩
  | clash drafted solves | exhausted drafted solves | typed drafted solves =>
      exact .inr ⟨_, _, _, drafted, solves⟩

theorem Infers.checked (infers : Infers term made result) :
    ∀ insertion ∈ made, insertion.Checked := by
  obtain ⟨rfl, -⟩ | ⟨draft, supply, ending, -, solves⟩ := infers.solves
  · simp
  · exact (solves.checked coherent_empty grounded_empty).2

theorem Infers.made_eq {otherMade : List Insertion}
    {otherResult : Except InferFailure Inference} (infers : Infers term made result)
    (other : Infers term otherMade otherResult) : made = otherMade := by
  obtain ⟨rfl, failure, supply, failed⟩ | ⟨draft, supply, ending, drafted, solves⟩ :=
    infers.solves
  · obtain ⟨rfl, -⟩ | ⟨_, _, _, drafted, -⟩ := other.solves
    · rfl
    · simp [failed] at drafted
  · obtain ⟨-, _, _, failed⟩ | ⟨_, _, _, again, otherSolves⟩ := other.solves
    · simp [drafted] at failed
    · obtain ⟨rfl, -⟩ := EStateM.Result.ok.inj (drafted.symm.trans again)
      exact (solves.unique otherSolves).1

theorem traverseTypes_apply_iff {draft resolved : AnnotatedTerm}
    {solution last : Substitution}
    (solves : Unify.SolvesInTurn .empty draft.constraints made (.ok () solution)) :
    draft.traverseTypes Endings.apply solution resolved last ↔
      (draft.traverseTypes Substitution.apply).run solution = (resolved, last) := by
  obtain ⟨sound, -⟩ := solves.checked coherent_empty grounded_empty
  exact (Endings.matches_traverseTypes draft solution (sound_iff.mp sound).1).1 resolved last

/-- What the rules end with is what inference gives. -/
theorem Infers.eq_infer (infers : Infers term made result) : result = infer term := by
  cases infers with
  | undrafted failed => simp only [infer, failed]
  | clash drafted solves =>
      simp only [infer, drafted, ← solves.eq_run coherent_empty]
  | exhausted drafted solves applies numbered | typed drafted solves applies numbered =>
      have ran := (traverseTypes_apply_iff solves).mp applies
      simp only [infer, drafted, ← solves.eq_run coherent_empty,
        AnnotatedTerm.applySubstitution, ran, numbered]

theorem exists_infers (term : Term) : ∃ made, Infers term made (infer term) := by
  suffices ∃ made result, Infers term made result by
    obtain ⟨made, result, infers⟩ := this
    exact ⟨made, infers.eq_infer ▸ infers⟩
  cases drafted : term.annotated with
  | error failure supply => exact ⟨[], _, .undrafted drafted⟩
  | ok draft supply =>
      obtain ⟨made, solves⟩ := Unify.exists_solvesInTurn coherent_empty draft.constraints
      cases ran : (Unify.solve draft.constraints).run .empty with
      | error clash after =>
          rw [ran] at solves
          exact ⟨made, _, .clash drafted solves⟩
      | ok _ solution =>
          rw [ran] at solves
          have applies := (traverseTypes_apply_iff solves).mpr rfl
          cases numbered : ((draft.traverseTypes Substitution.apply).run solution).1.canonical with
          | error reason => exact ⟨made, _, .exhausted drafted solves applies numbered⟩
          | ok normal => exact ⟨made, _, .typed drafted solves applies numbered⟩

end Inference

/-- Following bindings, unifying and solving end from every substitution whose bindings are
acyclic and agree with what is remembered, and they leave such a substitution behind.  No
binding made on the way closes a cycle, since the occurs check refuses those that would.  So
inference ends for every term. -/
theorem Substitution.Sound.lookups_and_unification_end {substitution : Substitution}
    (sound : substitution.Sound) :
    (∀ ty, ((replace? ty).run substitution).2.Sound ∧
      ((replace? ty).run substitution).2.table = substitution.table ∧
      ∀ new next, Replaces substitution ty new next ↔
        (replace? ty).run substitution = (new, next)) ∧
    (∀ left right, (leftBy ((Unify.unify left right).run substitution)).Sound ∧
      (∀ name ty after,
        (Unify.unify left right).run substitution = .error (.circularity name ty) after →
          ¬ Bindings.Acyclic (after.insert name ty).table) ∧
      ∃ made : List Insertion, (∀ insertion ∈ made, insertion.Checked) ∧
        ∀ others ending, Unify.Unifies .given substitution left right others ending ↔
          others = made ∧ ending = (Unify.unify left right).run substitution) ∧
    (∀ constraints, (leftBy ((Unify.solve constraints).run substitution)).Sound ∧
      ∃ made : List Insertion, (∀ insertion ∈ made, insertion.Checked) ∧
        ∀ others ending, Unify.SolvesInTurn substitution constraints others ending ↔
          others = made ∧ ending = (Unify.solve constraints).run substitution) ∧
    ∀ term, ∃ made : List Insertion, (∀ insertion ∈ made, insertion.Checked) ∧
      ∀ others result, Infers term others result ↔ others = made ∧ result = infer term := by
  obtain ⟨coherent, grounded⟩ := sound_iff.mp sound
  refine ⟨fun ty => ⟨sound.replace ty, ?_, fun _ _ => coherent.replaces_iff⟩, ?_, ?_, ?_⟩
  · exact (coherent.replaces_iff.mpr rfl).table_eq
  · intro left right
    obtain ⟨made, unifies, leftSound, checked⟩ := sound.unify left right
    refine ⟨leftSound, fun _ _ _ => sound.not_acyclic_of_circularity, made, checked,
      fun others ending => ⟨fun other => other.unique unifies, ?_⟩⟩
    rintro ⟨rfl, rfl⟩
    exact unifies
  · intro constraints
    obtain ⟨made, solves, leftSound, checked⟩ := sound.solve constraints
    refine ⟨leftSound, made, checked, fun others ending => ⟨fun other => other.unique solves, ?_⟩⟩
    rintro ⟨rfl, rfl⟩
    exact solves
  · intro term
    obtain ⟨made, infers⟩ := exists_infers term
    refine ⟨made, infers.checked, fun others result => ?_⟩
    constructor
    · exact fun other => ⟨other.made_eq infers, other.eq_infer⟩
    · rintro ⟨rfl, rfl⟩
      exact infers

theorem Substitution.Sound.lookups_and_unification_end_leftOutdated :
    leftOutdated.Sound ∧
    (∃ next, Replaces leftOutdated (.var ⟨0⟩) (some (.arrow .unit (.var ⟨2⟩))) next) ∧
    (∃ made after, Unify.Unifies .given leftOutdated (.var ⟨2⟩) (.var ⟨0⟩) made
      (.error (.circularity ⟨2⟩ (.arrow .unit (.var ⟨2⟩))) after) ∧
      ¬ Bindings.Acyclic (after.insert ⟨2⟩ (.arrow .unit (.var ⟨2⟩))).table) ∧
    (∃ made after, Unify.SolvesInTurn leftOutdated
      [⟨.var ⟨3⟩, .var ⟨0⟩⟩, ⟨.var ⟨2⟩, .product (.var ⟨1⟩) .unit⟩] made (.ok () after) ∧
      ∀ insertion ∈ made, insertion.Checked) ∧
    ∃ made, Infers (.abs ⟨⟨0⟩, none⟩ (.app (.var ⟨0⟩) (.var ⟨0⟩))) made
      (.error (.illTyped (.clash (.circularity ⟨0⟩ (.arrow (.var ⟨0⟩) (.var ⟨1⟩)))))) := by
  have reachable : leftOutdated.Reachable :=
    ((Reachable.empty.perform _).perform _).perform _
  have sound := reachable.sound
  obtain ⟨lookups, unifies, solves, infers⟩ := sound.lookups_and_unification_end
  refine ⟨sound, ⟨_, ((lookups _).2.2 _ _).mpr rfl⟩, ?_, ?_, ?_⟩
  · obtain ⟨-, refused, made, -, derived⟩ := unifies (.var ⟨2⟩) (.var ⟨0⟩)
    exact ⟨made, _, (derived _ _).mpr ⟨rfl, rfl⟩, refused _ _ _ rfl⟩
  · obtain ⟨-, made, checked, derived⟩ :=
      solves [⟨.var ⟨3⟩, .var ⟨0⟩⟩, ⟨.var ⟨2⟩, .product (.var ⟨1⟩) .unit⟩]
    exact ⟨made, _, (derived _ _).mpr ⟨rfl, rfl⟩, checked⟩
  · obtain ⟨made, -, derived⟩ := infers (.abs ⟨⟨0⟩, none⟩ (.app (.var ⟨0⟩) (.var ⟨0⟩)))
    exact ⟨made, (derived _ _).mpr ⟨rfl, rfl⟩⟩

end TypedHoles
