import TypedHoles.Proofs.EndingLookups

/-!
# Unification that ends

Unification applies the substitution at every step and goes on with types that may have
become larger than those it started with.  Here unifying and solving are sets of rules
that apply the substitution as often as they like, and that record the bindings that are
made.  Every substitution on the way is sound, and the occurs check alone keeps it so.
Each binding uses up a type variable, so that there is a derivation for all types, and it
gives what unification gives.
-/

namespace TypedHoles

namespace Substitution

/-! ## The occurs check -/

/-- Whether a binding is added to a sound substitution, whether the occurs check tells if
it closes a cycle, and whether it passes. -/
structure Insertion.Checked (insertion : Insertion) : Prop where
  sound : insertion.before.Sound
  decides : Bindings.Acyclic (insertion.before.insert insertion.name insertion.ty).table ↔
    insertion.ty.contains insertion.name = false
  passes : insertion.ty.contains insertion.name = false

section Checked

variable {substitution : Substitution} {name : TypeVar} {ty : Ty}

theorem not_acyclic_insert (substitution : Substitution) (occurs : name ∈ ty.occurrences) :
    ¬ Bindings.Acyclic (substitution.insert name ty).table := by
  intro acyclic
  refine acyclic name (.single ⟨ty, ?_, occurs⟩)
  rw [Substitution.insert, OrderedMap.get?_insert, if_pos rfl]

/-- A binding of a free type variable to a resolved type closes a cycle exactly if the
type variable occurs in the type. -/
theorem Coherent.acyclic_insert_iff (coherent : substitution.Coherent)
    (free : substitution.binds name = false)
    (resolved : ∀ other ∈ ty.occurrences, substitution.binds other = false) :
    Bindings.Acyclic (substitution.insert name ty).table ↔ ty.contains name = false := by
  rw [← Bool.not_eq_true, Ty.contains_iff]
  constructor
  · exact fun acyclic occurs => not_acyclic_insert substitution occurs acyclic
  · intro absent
    exact (coherent.insert free resolved absent).acyclic

/-- What a coherent substitution makes of two types, one after the other. -/
theorem Coherent.of_replaces_both (coherent : substitution.Coherent)
    {first second : Substitution} {left right : Ty} {newLeft newRight : Option Ty}
    (leftReplaces : Replaces substitution left newLeft first)
    (rightReplaces : Replaces first right newRight second) :
    newLeft.getD left = left.instantiate substitution.resolution ∧
      newRight.getD right = right.instantiate substitution.resolution ∧
      second.table = substitution.table ∧ second.Coherent := by
  obtain ⟨leftResolved, firstCoherent⟩ := coherent.of_replaces leftReplaces
  obtain ⟨rightResolved, secondCoherent⟩ := firstCoherent.of_replaces rightReplaces
  rw [resolution_eq_of_table leftReplaces.table_eq] at rightResolved
  exact ⟨leftResolved, rightResolved, rightReplaces.table_eq.trans leftReplaces.table_eq,
    secondCoherent⟩

theorem Coherent.checked (coherent : substitution.Coherent)
    (grounded : substitution.Grounded) (free : substitution.binds name = false)
    (resolved : ∀ other ∈ ty.occurrences, substitution.binds other = false)
    (passes : ty.contains name = false) : Insertion.Checked ⟨substitution, name, ty⟩ where
  sound := sound_iff.mpr ⟨coherent, grounded⟩
  decides := coherent.acyclic_insert_iff free resolved
  passes := passes

end Checked

end Substitution

namespace Unify

open Substitution

/-! ## Rules for unification -/

/-- Whether the types that are unified are still to be resolved. -/
inductive Stage where
  | given
  | resolved

/-- What a computation that adds bindings ends with. -/
abbrev Ending := EStateM.Result Clash Substitution Unit

/-- What unifying two types ends with, and the bindings that are made on the way, the
oldest first. -/
inductive Unifies : Stage → Substitution → Ty → Ty → List Insertion → Ending → Prop
  | resolve {before first second : Substitution} {left right : Ty}
      {newLeft newRight : Option Ty} {made : List Insertion} {ending : Ending}
      (leftReplaces : Replaces before left newLeft first)
      (rightReplaces : Replaces first right newRight second)
      (rest : Unifies .resolved second (newLeft.getD left) (newRight.getD right) made ending) :
      Unifies .given before left right made ending
  | unit {before : Substitution} : Unifies .resolved before .unit .unit [] (.ok () before)
  | same {before : Substitution} {name : TypeVar} :
      Unifies .resolved before (.var name) (.var name) [] (.ok () before)
  | vars {before : Substitution} {left right : TypeVar} (differ : left ≠ right) :
      Unifies .resolved before (.var left) (.var right) [⟨before, left, .var right⟩]
        (.ok () (before.insert left (.var right)))
  | bindLeft {before : Substitution} {name : TypeVar} {ty : Ty}
      (shaped : ty.shape?.isSome = true) (passes : ty.contains name = false) :
      Unifies .resolved before (.var name) ty [⟨before, name, ty⟩]
        (.ok () (before.insert name ty))
  | bindRight {before : Substitution} {name : TypeVar} {ty : Ty}
      (shaped : ty.shape?.isSome = true) (passes : ty.contains name = false) :
      Unifies .resolved before ty (.var name) [⟨before, name, ty⟩]
        (.ok () (before.insert name ty))
  | circularLeft {before : Substitution} {name : TypeVar} {ty : Ty}
      (shaped : ty.shape?.isSome = true) (occurs : ty.contains name = true) :
      Unifies .resolved before (.var name) ty [] (.error (.circularity name ty) before)
  | circularRight {before : Substitution} {name : TypeVar} {ty : Ty}
      (shaped : ty.shape?.isSome = true) (occurs : ty.contains name = true) :
      Unifies .resolved before ty (.var name) [] (.error (.circularity name ty) before)
  | arrow {before middle : Substitution} {left₁ left₂ right₁ right₂ : Ty}
      {made more : List Insertion} {ending : Ending}
      (first : Unifies .given before left₁ right₁ made (.ok () middle))
      (second : Unifies .given middle left₂ right₂ more ending) :
      Unifies .resolved before (.arrow left₁ left₂) (.arrow right₁ right₂) (made ++ more)
        ending
  | arrowFails {before after : Substitution} {left₁ left₂ right₁ right₂ : Ty}
      {made : List Insertion} {clash : Clash}
      (first : Unifies .given before left₁ right₁ made (.error clash after)) :
      Unifies .resolved before (.arrow left₁ left₂) (.arrow right₁ right₂) made
        (.error clash after)
  | product {before middle : Substitution} {left₁ left₂ right₁ right₂ : Ty}
      {made more : List Insertion} {ending : Ending}
      (first : Unifies .given before left₁ right₁ made (.ok () middle))
      (second : Unifies .given middle left₂ right₂ more ending) :
      Unifies .resolved before (.product left₁ left₂) (.product right₁ right₂)
        (made ++ more) ending
  | productFails {before after : Substitution} {left₁ left₂ right₁ right₂ : Ty}
      {made : List Insertion} {clash : Clash}
      (first : Unifies .given before left₁ right₁ made (.error clash after)) :
      Unifies .resolved before (.product left₁ left₂) (.product right₁ right₂) made
        (.error clash after)
  | mismatch {before : Substitution} {left right : Ty} {leftShape rightShape : TyShape}
      (leftIs : left.shape? = some leftShape) (rightIs : right.shape? = some rightShape)
      (differ : leftShape ≠ rightShape) :
      Unifies .resolved before left right [] (.error (.mismatch left right) before)

namespace Unifies

variable {stage : Stage} {before : Substitution} {left right : Ty} {made : List Insertion}
  {ending : Ending}

theorem unique {otherMade : List Insertion} {otherEnding : Ending}
    (unifies : Unifies stage before left right made ending)
    (other : Unifies stage before left right otherMade otherEnding) :
    made = otherMade ∧ ending = otherEnding := by
  induction unifies generalizing otherMade otherEnding with
  | resolve leftReplaces rightReplaces _ ih =>
      cases other with
      | resolve otherLeft otherRight rest =>
          obtain ⟨rfl, rfl⟩ := leftReplaces.unique otherLeft
          obtain ⟨rfl, rfl⟩ := rightReplaces.unique otherRight
          exact ih rest
  | unit => cases other <;> simp_all [Ty.shape?]
  | same => cases other <;> simp_all [Ty.shape?]
  | vars differ => cases other <;> simp_all [Ty.shape?]
  | bindLeft shaped passes => cases other <;> simp_all [Ty.shape?]
  | bindRight shaped passes => cases other <;> simp_all [Ty.shape?]
  | circularLeft shaped occurs => cases other <;> simp_all [Ty.shape?]
  | circularRight shaped occurs => cases other <;> simp_all [Ty.shape?]
  | mismatch leftIs rightIs differ => cases other <;> simp_all [Ty.shape?]
  | arrow _ _ firstIh secondIh =>
      cases other with
      | arrow otherFirst otherSecond =>
          obtain ⟨rfl, same⟩ := firstIh otherFirst
          obtain ⟨-, rfl⟩ := EStateM.Result.ok.inj same
          obtain ⟨rfl, rfl⟩ := secondIh otherSecond
          exact ⟨rfl, rfl⟩
      | arrowFails otherFirst => simpa using (firstIh otherFirst).2
      | mismatch leftIs rightIs differ => simp_all [Ty.shape?]
  | product _ _ firstIh secondIh =>
      cases other with
      | product otherFirst otherSecond =>
          obtain ⟨rfl, same⟩ := firstIh otherFirst
          obtain ⟨-, rfl⟩ := EStateM.Result.ok.inj same
          obtain ⟨rfl, rfl⟩ := secondIh otherSecond
          exact ⟨rfl, rfl⟩
      | productFails otherFirst => simpa using (firstIh otherFirst).2
      | mismatch leftIs rightIs differ => simp_all [Ty.shape?]
  | arrowFails _ firstIh =>
      cases other with
      | arrow otherFirst => simpa using (firstIh otherFirst).2
      | arrowFails otherFirst => exact firstIh otherFirst
      | mismatch leftIs rightIs differ => simp_all [Ty.shape?]
  | productFails _ firstIh =>
      cases other with
      | product otherFirst => simpa using (firstIh otherFirst).2
      | productFails otherFirst => exact firstIh otherFirst
      | mismatch leftIs rightIs differ => simp_all [Ty.shape?]

/-- Types that are resolved already may be unified as they are. -/
theorem given_of_free (unifies : Unifies .resolved before left right made ending)
    (free : ∀ name ∈ left.occurrences ++ right.occurrences, before.get? name = none) :
    Unifies .given before left right made ending :=
  have ⟨leftFree, rightFree⟩ := List.forall_mem_append.mp free
  .resolve (.of_free leftFree) (.of_free rightFree) unifies

theorem extends_insert {names : Set TypeVar} {name : TypeVar} {ty : Ty}
    (within : ∀ other ∈ name :: ty.occurrences, other ∈ names)
    (free : ∀ other ∈ name :: ty.occurrences, before.binds other = false)
    (passes : ty.contains name = false) :
    Extends names before (before.insert name ty) := by
  rw [List.forall_mem_cons] at within free
  rw [← Bool.not_eq_true, Ty.contains_iff] at passes
  exact .step (.bind within.1 free.1
    (fun other member => ⟨within.2 other member, free.2 other member⟩) passes)

/-- The changes that the rules make to a substitution are those of unification. -/
theorem extends_leftBy {names : Set TypeVar}
    (unifies : Unifies stage before left right made ending) (coherent : before.Coherent)
    (kept : before.Keeps names)
    (within : ∀ name ∈ left.occurrences ++ right.occurrences, name ∈ names)
    (free : stage = .resolved → ∀ name ∈ left.occurrences ++ right.occurrences,
      before.binds name = false) :
    Extends names before (leftBy ending) := by
  induction unifies with
  | resolve leftReplaces rightReplaces _ ih =>
      obtain ⟨leftResolved, rightResolved, same, secondCoherent⟩ :=
        coherent.of_replaces_both leftReplaces rightReplaces
      have recalled : Extends names _ _ := .step (.remember same secondCoherent)
      rw [leftResolved, rightResolved] at ih
      refine recalled.trans (ih secondCoherent (recalled.keeps coherent kept)
        (kept.instantiate_both within) fun _ => ?_)
      rw [binds_eq_of_table same]
      exact coherent.free_of_mem_both
  | unit | same | circularLeft | circularRight | mismatch => exact .refl _
  | vars differ =>
      exact extends_insert within (free rfl) (by simpa [Ty.contains] using differ.symm)
  | bindLeft _ passes => exact extends_insert within (free rfl) passes
  | bindRight _ passes =>
      have swap {motive : TypeVar → Prop} {name : TypeVar} {names : List TypeVar}
          (holds : ∀ other ∈ names ++ [name], motive other) :
          ∀ other ∈ name :: names, motive other := by
        grind
      exact extends_insert (swap within) (swap (free rfl)) passes
  | arrow _ _ firstIh secondIh | product _ _ firstIh secondIh =>
      have steps := firstIh coherent kept (fun _ _ => within _ (by grind [Ty.occurrences]))
        (by simp)
      exact steps.trans (secondIh (steps.coherent coherent) (steps.keeps coherent kept)
        (fun _ _ => within _ (by grind [Ty.occurrences])) (by simp))
  | arrowFails _ firstIh | productFails _ firstIh =>
      exact firstIh coherent kept (fun _ _ => within _ (by grind [Ty.occurrences]))
        (by simp)

theorem coherent_leftBy (unifies : Unifies .given before left right made ending)
    (coherent : before.Coherent) : (leftBy ending).Coherent :=
  (unifies.extends_leftBy coherent (keeps_univ before) (fun _ _ => Set.mem_univ _)
    (by simp)).coherent coherent

/-- All bindings are checked, and what is remembered stays in agreement. -/
theorem checked (unifies : Unifies stage before left right made ending)
    (coherent : before.Coherent) (grounded : before.Grounded)
    (free : stage = .resolved → ∀ name ∈ left.occurrences ++ right.occurrences,
      before.binds name = false) :
    (leftBy ending).Grounded ∧ ∀ insertion ∈ made, insertion.Checked := by
  have insert {before : Substitution} {name : TypeVar} {ty : Ty}
      (coherent : before.Coherent) (grounded : before.Grounded)
      (free : ∀ other ∈ name :: ty.occurrences, before.binds other = false)
      (passes : ty.contains name = false) :
      (before.insert name ty).Grounded ∧
        ∀ insertion ∈ [⟨before, name, ty⟩], Insertion.Checked insertion := by
    obtain ⟨nameFree, resolved⟩ := List.forall_mem_cons.mp free
    exact ⟨grounded.insert nameFree ty,
      List.forall_mem_singleton.mpr (coherent.checked grounded nameFree resolved passes)⟩
  induction unifies with
  | resolve leftReplaces rightReplaces _ ih =>
      obtain ⟨leftResolved, rightResolved, same, secondCoherent⟩ :=
        coherent.of_replaces_both leftReplaces rightReplaces
      have firstGrounded := (leftReplaces.leads grounded).1
      rw [leftResolved, rightResolved] at ih
      refine ih secondCoherent (rightReplaces.leads firstGrounded).1 fun _ => ?_
      rw [binds_eq_of_table same]
      exact coherent.free_of_mem_both
  | unit | same | circularLeft | circularRight | mismatch => exact ⟨grounded, by simp⟩
  | vars differ =>
      exact insert coherent grounded (free rfl) (by simpa [Ty.contains] using differ.symm)
  | bindLeft _ passes => exact insert coherent grounded (free rfl) passes
  | bindRight _ passes =>
      exact insert coherent grounded (fun other _ => free rfl other (by grind [Ty.occurrences]))
        passes
  | arrow first _ firstIh secondIh | product first _ firstIh secondIh =>
      obtain ⟨middleGrounded, made⟩ := firstIh coherent grounded (by simp)
      obtain ⟨afterGrounded, more⟩ :=
        secondIh (first.coherent_leftBy coherent) middleGrounded (by simp)
      exact ⟨afterGrounded, List.forall_mem_append.mpr ⟨made, more⟩⟩
  | arrowFails _ firstIh | productFails _ firstIh => exact firstIh coherent grounded (by simp)

end Unifies

/-! ## Unification follows the rules -/

/-- Whether `again` follows the rules for types over `names` once one of `names` is
bound. -/
def ResumesByRules (names : Set TypeVar) (again : Ty → Ty → Unify Unit) : Prop :=
  ∀ {left right : Ty} {before : Substitution}, before.Coherent →
    before.Keeps names → (∃ name ∈ names, before.binds name = true) →
    (∀ name ∈ left.occurrences ++ right.occurrences, name ∈ names) →
    ∃ made, Unifies .given before left right made ((again left right).run before)

section Applied

variable {names : Set TypeVar} {again : Ty → Ty → Unify Unit}

theorem bindVar_run (name : TypeVar) (ty : Ty) (before : Substitution) :
    (bindVar name ty).run before =
      if ty.contains name then .error (.circularity name ty) before
      else .ok () (before.insert name ty) := by
  unfold bindVar
  split <;> rfl

theorem bindVar_unifies {name : TypeVar} {ty : Ty} {before : Substitution}
    (shaped : ty.shape?.isSome = true) :
    (∃ made, Unifies .resolved before (.var name) ty made ((bindVar name ty).run before)) ∧
      ∃ made, Unifies .resolved before ty (.var name) made
        ((bindVar name ty).run before) := by
  rw [bindVar_run]
  by_cases occurs : ty.contains name = true
  · rw [if_pos occurs]
    exact ⟨⟨_, .circularLeft shaped occurs⟩, ⟨_, .circularRight shaped occurs⟩⟩
  · rw [if_neg occurs]
    have passes : ty.contains name = false := by simpa using occurs
    exact ⟨⟨_, .bindLeft shaped passes⟩, ⟨_, .bindRight shaped passes⟩⟩

/-- Whether resolved types over free type variables `names` are unified by the rules. -/
def AppliesRules (names : Set TypeVar) (again : Ty → Ty → Unify Unit) (left right : Ty) :
    Prop :=
  ∀ {before : Substitution}, before.Coherent → (∀ name ∈ names, before.binds name = false) →
    ∃ made, Unifies .resolved before left right made
      ((unifyApplied again left right).run before)

theorem AppliesRules.given {left right : Ty} (applies : AppliesRules names again left right)
    (within : ∀ name ∈ left.occurrences ++ right.occurrences, name ∈ names)
    {before : Substitution} (coherent : before.Coherent)
    (free : ∀ name ∈ names, before.binds name = false) :
    ∃ made, Unifies .given before left right made
      ((unifyApplied again left right).run before) := by
  obtain ⟨made, unifies⟩ := applies coherent free
  exact ⟨made, unifies.given_of_free fun name member =>
    coherent.get?_eq_none_iff.mpr (free name (within name member))⟩

/-- The second components follow the rules, whether or not the first ones have made a
binding. -/
theorem continueWith_unifies (resumes : ResumesByRules names again) {left right : Ty}
    (applies : AppliesRules names again left right)
    (within : ∀ name ∈ left.occurrences ++ right.occurrences, name ∈ names)
    {before middle : Substitution} (coherent : before.Coherent)
    (free : ∀ name ∈ names, before.binds name = false)
    (steps : Extends names before middle) :
    ∃ made, Unifies .given middle left right made
      (continueWith again left right before middle) := by
  have middleCoherent := steps.coherent coherent
  rcases steps.table_eq_or_grows with same | ⟨grown, bound⟩
  · have sameSize : middle.size = before.size := by rw [size, size, same]
    rw [continueWith, if_pos sameSize]
    apply applies.given within middleCoherent
    rwa [binds_eq_of_table same]
  · rw [continueWith, if_neg (by omega)]
    exact resumes middleCoherent (steps.keeps coherent (keeps_of_free free)) bound within

/-- Unifying the components of composite types in turn follows the rules, up to the first
one that fails. -/
theorem components_unify (resumes : ResumesByRules names again)
    {left₁ left₂ right₁ right₂ : Ty} (first : AppliesRules names again left₁ right₁)
    (second : AppliesRules names again left₂ right₂)
    (firstWithin : ∀ name ∈ left₁.occurrences ++ right₁.occurrences, name ∈ names)
    (secondWithin : ∀ name ∈ left₂.occurrences ++ right₂.occurrences, name ∈ names)
    {before : Substitution} (coherent : before.Coherent)
    (free : ∀ name ∈ names, before.binds name = false) :
    let ending := andThen ((unifyApplied again left₁ right₁).run before)
      (continueWith again left₂ right₂ before)
    (∃ made clash after, ending = .error clash after ∧
      Unifies .given before left₁ right₁ made (.error clash after)) ∨
    ∃ made middle more, Unifies .given before left₁ right₁ made (.ok () middle) ∧
      Unifies .given middle left₂ right₂ more ending := by
  obtain ⟨made, unifies⟩ := first.given firstWithin coherent free
  cases ran : (unifyApplied again left₁ right₁).run before with
  | error clash after =>
      rw [ran] at unifies
      exact .inl ⟨made, clash, after, rfl, unifies⟩
  | ok _ middle =>
      rw [ran] at unifies
      have steps : Extends names before middle :=
        unifies.extends_leftBy coherent (keeps_of_free free) firstWithin (by simp)
      obtain ⟨more, rest⟩ :=
        continueWith_unifies resumes second secondWithin coherent free steps
      exact .inr ⟨made, middle, more, unifies, rest⟩

theorem unifyApplied_unifies (resumes : ResumesByRules names again) {left right : Ty}
    (within : ∀ name ∈ left.occurrences ++ right.occurrences, name ∈ names) :
    AppliesRules names again left right := by
  induction left generalizing right with
  | unit =>
      intro before coherent free
      cases right with
      | unit => exact ⟨_, .unit⟩
      | var name => exact (bindVar_unifies rfl).2
      | arrow | product => exact ⟨_, .mismatch rfl rfl (by decide)⟩
  | var name =>
      intro before coherent free
      cases right with
      | unit | arrow | product => exact (bindVar_unifies rfl).1
      | var other =>
          rw [unifyApplied]
          by_cases same : name = other
          · rw [if_pos same, same]
            exact ⟨_, .same⟩
          · rw [if_neg same]
            exact ⟨_, .vars same⟩
  | arrow left₁ left₂ firstIh secondIh =>
      intro before coherent free
      cases right with
      | unit | product => exact ⟨_, .mismatch rfl rfl (by decide)⟩
      | var name => exact (bindVar_unifies rfl).2
      | arrow right₁ right₂ =>
          have firstWithin : ∀ name ∈ left₁.occurrences ++ right₁.occurrences,
              name ∈ names := by
            grind [Ty.occurrences]
          have secondWithin : ∀ name ∈ left₂.occurrences ++ right₂.occurrences,
              name ∈ names := by
            grind [Ty.occurrences]
          rw [unifyApplied_arrow_run]
          rcases components_unify resumes (firstIh firstWithin) (secondIh secondWithin)
            firstWithin secondWithin coherent free with
            ⟨made, clash, after, ended, first⟩ | ⟨made, middle, more, first, second⟩
          · exact ⟨made, ended ▸ .arrowFails first⟩
          · exact ⟨made ++ more, .arrow first second⟩
  | product left₁ left₂ firstIh secondIh =>
      intro before coherent free
      cases right with
      | unit | arrow => exact ⟨_, .mismatch rfl rfl (by decide)⟩
      | var name => exact (bindVar_unifies rfl).2
      | product right₁ right₂ =>
          have firstWithin : ∀ name ∈ left₁.occurrences ++ right₁.occurrences,
              name ∈ names := by
            grind [Ty.occurrences]
          have secondWithin : ∀ name ∈ left₂.occurrences ++ right₂.occurrences,
              name ∈ names := by
            grind [Ty.occurrences]
          rw [unifyApplied_product_run]
          rcases components_unify resumes (firstIh firstWithin) (secondIh secondWithin)
            firstWithin secondWithin coherent free with
            ⟨made, clash, after, ended, first⟩ | ⟨made, middle, more, first, second⟩
          · exact ⟨made, ended ▸ .productFails first⟩
          · exact ⟨made ++ more, .product first second⟩

end Applied

theorem apply_replaces {before : Substitution} (coherent : before.Coherent) (ty : Ty) :
    ∃ new after, Replaces before ty new after ∧
      (apply ty).run before = .ok (new.getD ty) after :=
  ⟨_, _, coherent.replaces_iff.mpr rfl, rfl⟩

/-- Applying the substitution to both types first follows the rules. -/
theorem applied_unifies {left right : Ty} {before : Substitution}
    {continuation : Ty → Ty → Unify Unit} (coherent : before.Coherent)
    (continues : ∀ {middle : Substitution}, middle.Coherent →
      middle.table = before.table →
      ∃ made, Unifies .resolved middle (left.instantiate before.resolution)
        (right.instantiate before.resolution) made
        ((continuation (left.instantiate before.resolution)
          (right.instantiate before.resolution)).run middle)) :
    ∃ made, Unifies .given before left right made
      ((do
        let left ← apply left
        let right ← apply right
        continuation left right : Unify Unit).run before) := by
  obtain ⟨newLeft, first, leftReplaces, leftRun⟩ := apply_replaces coherent left
  obtain ⟨-, firstCoherent⟩ := coherent.of_replaces leftReplaces
  obtain ⟨newRight, second, rightReplaces, rightRun⟩ := apply_replaces firstCoherent right
  obtain ⟨leftResolved, rightResolved, same, secondCoherent⟩ :=
    coherent.of_replaces_both leftReplaces rightReplaces
  obtain ⟨made, unifies⟩ := continues secondCoherent same
  rw [← leftResolved, ← rightResolved] at unifies
  refine ⟨made, ?_⟩
  simp only [EStateM.run_bind, leftRun, rightRun]
  exact .resolve leftReplaces rightReplaces unifies

/-- As many rounds as there are type variables are enough to follow the rules to the
end. -/
theorem unifyRounds_unifies (rounds : Nat) {names : Finset TypeVar} {left right : Ty}
    {before : Substitution} (enough : names.card ≤ rounds) (coherent : before.Coherent)
    (free : ∀ name ∈ names, before.binds name = false)
    (within : ∀ name ∈ left.occurrences ++ right.occurrences, name ∈ names) :
    ∃ made, Unifies .resolved before left right made
      ((unifyRounds rounds left right).run before) := by
  induction rounds generalizing names left right before with
  | zero =>
      -- Without type variables nothing gets bound, so there is no further round.
      have none : names = ∅ := Finset.card_eq_zero.mp (Nat.le_zero.mp enough)
      subst none
      refine @unifyApplied_unifies ∅ _ ?_ left right (by simpa using within) before coherent
        (by simp)
      intro left right before _ _ bound
      simp at bound
  | succ rounds ih =>
      refine @unifyApplied_unifies names _ ?_ left right within before coherent free
      intro left right before coherent kept bound within
      apply applied_unifies coherent
      intro middle middleCoherent same
      have fewer := card_stillFree_lt bound
      apply ih (by omega) middleCoherent ?_ (coherent.mem_stillFree kept within)
      rw [binds_eq_of_table same]
      exact free_of_mem_stillFree

/-- Unification from a coherent substitution has a derivation. -/
theorem exists_unifies {before : Substitution} (coherent : before.Coherent)
    (left right : Ty) :
    ∃ made, Unifies .given before left right made ((unify left right).run before) := by
  apply applied_unifies coherent
  intro middle middleCoherent same
  refine unifyRounds_unifies _ (card_toFinset_occurrences_le _ _) middleCoherent ?_
    (fun name member => List.mem_toFinset.mpr member)
  intro name member
  rw [binds_eq_of_table same]
  exact coherent.free_of_mem_both name (List.mem_toFinset.mp member)

/-! ## Solving constraints -/

/-- What satisfying a constraint ends with, and the bindings that are made on the way. -/
inductive Satisfies : Substitution → Constraint → List Insertion → Ending → Prop
  | unify {before first second : Substitution} {constraint : Constraint}
      {newExpected newActual : Option Ty} {made : List Insertion} {ending : Ending}
      (expectedReplaces : Replaces before constraint.expected newExpected first)
      (actualReplaces : Replaces first constraint.actual newActual second)
      (rest : Unifies .given second (newExpected.getD constraint.expected)
        (newActual.getD constraint.actual) made ending) :
      Satisfies before constraint made ending

/-- What satisfying constraints in turn ends with, and the bindings that are made on the
way. -/
inductive SolvesInTurn : Substitution → List Constraint → List Insertion → Ending → Prop
  | nil {before : Substitution} : SolvesInTurn before [] [] (.ok () before)
  | cons {before middle : Substitution} {constraint : Constraint}
      {constraints : List Constraint} {made more : List Insertion} {ending : Ending}
      (first : Satisfies before constraint made (.ok () middle))
      (rest : SolvesInTurn middle constraints more ending) :
      SolvesInTurn before (constraint :: constraints) (made ++ more) ending
  | fails {before after : Substitution} {constraint : Constraint}
      {constraints : List Constraint} {made : List Insertion} {clash : Clash}
      (first : Satisfies before constraint made (.error clash after)) :
      SolvesInTurn before (constraint :: constraints) made (.error clash after)

section Solving

variable {before : Substitution} {constraint : Constraint} {constraints : List Constraint}
  {made : List Insertion} {ending : Ending}

theorem Satisfies.unique {otherMade : List Insertion} {otherEnding : Ending}
    (satisfies : Satisfies before constraint made ending)
    (other : Satisfies before constraint otherMade otherEnding) :
    made = otherMade ∧ ending = otherEnding := by
  obtain ⟨expectedReplaces, actualReplaces, rest⟩ := satisfies
  obtain ⟨otherExpected, otherActual, otherRest⟩ := other
  obtain ⟨rfl, rfl⟩ := expectedReplaces.unique otherExpected
  obtain ⟨rfl, rfl⟩ := actualReplaces.unique otherActual
  exact rest.unique otherRest

theorem Satisfies.coherent_leftBy (satisfies : Satisfies before constraint made ending)
    (coherent : before.Coherent) : (leftBy ending).Coherent := by
  obtain ⟨expectedReplaces, actualReplaces, rest⟩ := satisfies
  obtain ⟨-, -, -, secondCoherent⟩ :=
    coherent.of_replaces_both expectedReplaces actualReplaces
  exact rest.coherent_leftBy secondCoherent

theorem Satisfies.checked (satisfies : Satisfies before constraint made ending)
    (coherent : before.Coherent) (grounded : before.Grounded) :
    (leftBy ending).Grounded ∧ ∀ insertion ∈ made, insertion.Checked := by
  obtain ⟨expectedReplaces, actualReplaces, rest⟩ := satisfies
  obtain ⟨-, -, -, secondCoherent⟩ :=
    coherent.of_replaces_both expectedReplaces actualReplaces
  have firstGrounded := (expectedReplaces.leads grounded).1
  exact rest.checked secondCoherent (actualReplaces.leads firstGrounded).1 (by simp)

theorem exists_satisfies (coherent : before.Coherent) (constraint : Constraint) :
    ∃ made, Satisfies before constraint made ((satisfy constraint).run before) := by
  obtain ⟨newExpected, first, expectedReplaces, expectedRun⟩ :=
    apply_replaces coherent constraint.expected
  obtain ⟨-, firstCoherent⟩ := coherent.of_replaces expectedReplaces
  obtain ⟨newActual, second, actualReplaces, actualRun⟩ :=
    apply_replaces firstCoherent constraint.actual
  obtain ⟨-, secondCoherent⟩ := firstCoherent.of_replaces actualReplaces
  obtain ⟨made, rest⟩ := exists_unifies secondCoherent
    (newExpected.getD constraint.expected) (newActual.getD constraint.actual)
  refine ⟨made, ?_⟩
  simp only [satisfy, applyConstraint, EStateM.run_bind, expectedRun, actualRun,
    EStateM.run_pure]
  exact .unify expectedReplaces actualReplaces rest

theorem SolvesInTurn.unique {otherMade : List Insertion} {otherEnding : Ending}
    (solves : SolvesInTurn before constraints made ending)
    (other : SolvesInTurn before constraints otherMade otherEnding) :
    made = otherMade ∧ ending = otherEnding := by
  induction solves generalizing otherMade otherEnding with
  | nil =>
      cases other
      exact ⟨rfl, rfl⟩
  | cons first _ ih =>
      cases other with
      | cons otherFirst otherRest =>
          obtain ⟨rfl, same⟩ := first.unique otherFirst
          obtain ⟨-, rfl⟩ := EStateM.Result.ok.inj same
          obtain ⟨rfl, rfl⟩ := ih otherRest
          exact ⟨rfl, rfl⟩
      | fails otherFirst => simpa using (first.unique otherFirst).2
  | fails first =>
      cases other with
      | cons otherFirst => simpa using (first.unique otherFirst).2
      | fails otherFirst => exact first.unique otherFirst

theorem SolvesInTurn.checked (solves : SolvesInTurn before constraints made ending)
    (coherent : before.Coherent) (grounded : before.Grounded) :
    (leftBy ending).Sound ∧ ∀ insertion ∈ made, insertion.Checked := by
  induction solves with
  | nil => exact ⟨sound_iff.mpr ⟨coherent, grounded⟩, by simp⟩
  | cons first _ ih =>
      obtain ⟨middleGrounded, made⟩ := first.checked coherent grounded
      obtain ⟨sound, more⟩ := ih (first.coherent_leftBy coherent) middleGrounded
      exact ⟨sound, List.forall_mem_append.mpr ⟨made, more⟩⟩
  | fails first =>
      obtain ⟨afterGrounded, made⟩ := first.checked coherent grounded
      exact ⟨sound_iff.mpr ⟨first.coherent_leftBy coherent, afterGrounded⟩, made⟩

/-- Solving from a coherent substitution has a derivation. -/
theorem exists_solvesInTurn (coherent : before.Coherent) (constraints : List Constraint) :
    ∃ made, SolvesInTurn before constraints made ((solve constraints).run before) := by
  induction constraints generalizing before with
  | nil => exact ⟨[], .nil⟩
  | cons constraint constraints ih =>
      obtain ⟨made, first⟩ := exists_satisfies coherent constraint
      rw [solve_cons_run]
      cases ran : (satisfy constraint).run before with
      | error clash after =>
          rw [ran] at first
          exact ⟨made, .fails first⟩
      | ok _ middle =>
          rw [ran] at first
          obtain ⟨more, rest⟩ := ih (first.coherent_leftBy coherent)
          exact ⟨made ++ more, .cons first rest⟩

theorem SolvesInTurn.eq_run (solves : SolvesInTurn before constraints made ending)
    (coherent : before.Coherent) : ending = (solve constraints).run before := by
  obtain ⟨_, derived⟩ := exists_solvesInTurn coherent constraints
  exact (solves.unique derived).2

end Solving

end Unify

namespace Substitution

open Unify

variable {substitution : Substitution}

theorem Sound.unify (sound : substitution.Sound) (left right : Ty) :
    ∃ made, Unifies .given substitution left right made
        ((Unify.unify left right).run substitution) ∧
      (leftBy ((Unify.unify left right).run substitution)).Sound ∧
      ∀ insertion ∈ made, insertion.Checked := by
  obtain ⟨coherent, grounded⟩ := sound_iff.mp sound
  obtain ⟨made, unifies⟩ := exists_unifies coherent left right
  obtain ⟨leftGrounded, checked⟩ := unifies.checked coherent grounded (by simp)
  exact ⟨made, unifies,
    sound_iff.mpr ⟨unifies.coherent_leftBy coherent, leftGrounded⟩, checked⟩

/-- A binding that unification refuses would close a cycle. -/
theorem Sound.not_acyclic_of_circularity (sound : substitution.Sound) {left right ty : Ty}
    {name : TypeVar} {after : Substitution}
    (refused : (Unify.unify left right).run substitution = .error (.circularity name ty) after) :
    ¬ Bindings.Acyclic (after.insert name ty).table := by
  have outcome := unify_outcome_univ (sound_iff.mp sound).1 left right
  rw [refused] at outcome
  obtain ⟨-, ⟨-, occurs, -⟩, -⟩ := outcome
  exact not_acyclic_insert after occurs

theorem Sound.solve (sound : substitution.Sound) (constraints : List Constraint) :
    ∃ made, SolvesInTurn substitution constraints made
        ((Unify.solve constraints).run substitution) ∧
      (leftBy ((Unify.solve constraints).run substitution)).Sound ∧
      ∀ insertion ∈ made, insertion.Checked := by
  obtain ⟨coherent, grounded⟩ := sound_iff.mp sound
  obtain ⟨made, solves⟩ := exists_solvesInTurn coherent constraints
  exact ⟨made, solves, solves.checked coherent grounded⟩

/-- Whatever operations are performed, the substitution stays sound. -/
theorem Reachable.sound (reachable : substitution.Reachable) : substitution.Sound := by
  induction reachable with
  | empty => exact sound_iff.mpr ⟨coherent_empty, grounded_empty⟩
  | perform _ operation ih =>
      cases operation with
      | apply ty => exact ih.replace ty
      | unify left right => exact (ih.unify left right).choose_spec.2.1
      | solve constraints => exact (ih.solve constraints).choose_spec.2.1

end Substitution

end TypedHoles
