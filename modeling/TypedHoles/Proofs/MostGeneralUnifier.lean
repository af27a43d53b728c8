import Mathlib.Data.Finset.Card
import Mathlib.Logic.Relation
import TypedHoles.Constraint
import TypedHoles.Proofs.Resolution

/-!
# Most general unifiers

Unification changes a substitution in steps: it remembers something, or it binds
a free type variable to a resolved type.  Such steps keep substitutions
coherent.  A successful unification adds exactly the equation between the two
types to what a satisfying assignment has to fulfil, and a failed one shows that
no assignment fulfils that equation.  Solving constraints one after the other
therefore finds a most general solution, or shows that there is none.
-/

namespace TypedHoles

namespace Substitution

/-- One change that unification makes to a substitution, where it binds and
mentions only type variables among `names`. -/
inductive Step (names : Set TypeVar) : Substitution → Substitution → Prop
  | remember {before after : Substitution} (same : after.table = before.table)
      (coherent : after.Coherent) : Step names before after
  | bind {before : Substitution} {name : TypeVar} {ty : Ty}
      (allowed : name ∈ names) (free : before.binds name = false)
      (resolved : ∀ other ∈ ty.occurrences,
        other ∈ names ∧ before.binds other = false)
      (absent : name ∉ ty.occurrences) :
      Step names before (before.insert name ty)

/-- Whether a substitution comes from another one by changes that unification
makes. -/
def Extends (names : Set TypeVar) : Substitution → Substitution → Prop :=
  Relation.ReflTransGen (Step names)

/-- Whether type variables among `names` stand for types over `names`. -/
def Keeps (substitution : Substitution) (names : Set TypeVar) : Prop :=
  ∀ name ∈ names, ∀ other ∈ (substitution.resolution name).occurrences,
    other ∈ names

theorem keeps_of_free {substitution : Substitution} {names : Set TypeVar}
    (free : ∀ name ∈ names, substitution.binds name = false) :
    substitution.Keeps names := by
  intro name allowed other member
  rw [resolution_of_free (binds_eq_false.mp (free name allowed))] at member
  obtain rfl : other = name := by simpa [Ty.occurrences] using member
  exact allowed

theorem keeps_empty (names : Set TypeVar) : empty.Keeps names :=
  keeps_of_free fun _ _ => rfl

theorem keeps_univ (substitution : Substitution) : substitution.Keeps Set.univ :=
  fun _ _ _ _ => Set.mem_univ _

theorem Keeps.instantiate {substitution : Substitution} {names : Set TypeVar}
    (kept : substitution.Keeps names) {ty : Ty}
    (within : ∀ name ∈ ty.occurrences, name ∈ names) :
    ∀ name ∈ (ty.instantiate substitution.resolution).occurrences,
      name ∈ names := by
  intro name member
  obtain ⟨origin, originMember, member⟩ := Ty.mem_occurrences_instantiate.mp member
  exact kept origin (within origin originMember) name member

section Both

variable {substitution : Substitution} {left right : Ty}

theorem Keeps.instantiate_both {names : Set TypeVar} (kept : substitution.Keeps names)
    (within : ∀ name ∈ left.occurrences ++ right.occurrences, name ∈ names) :
    ∀ name ∈ (left.instantiate substitution.resolution).occurrences ++
        (right.instantiate substitution.resolution).occurrences,
      name ∈ names := by
  obtain ⟨leftWithin, rightWithin⟩ := List.forall_mem_append.mp within
  exact List.forall_mem_append.mpr ⟨kept.instantiate leftWithin, kept.instantiate rightWithin⟩

theorem Coherent.free_of_mem_both (coherent : substitution.Coherent) :
    ∀ name ∈ (left.instantiate substitution.resolution).occurrences ++
        (right.instantiate substitution.resolution).occurrences,
      substitution.binds name = false :=
  List.forall_mem_append.mpr ⟨fun _ member => coherent.free_of_mem_instantiate member,
    fun _ member => coherent.free_of_mem_instantiate member⟩

/-- The type variables among `names` that are still free. -/
def stillFree (substitution : Substitution) (names : Finset TypeVar) : Finset TypeVar :=
  names.filter fun name => substitution.binds name = false

theorem free_of_mem_stillFree {names : Finset TypeVar} :
    ∀ name ∈ substitution.stillFree names, substitution.binds name = false :=
  fun _ member => (Finset.mem_filter.mp member).2

theorem stillFree_subset {names : Finset TypeVar} :
    (substitution.stillFree names : Set TypeVar) ⊆ names :=
  Finset.coe_subset.mpr (Finset.filter_subset _ _)

theorem card_stillFree_lt {names : Finset TypeVar}
    (bound : ∃ name ∈ names, substitution.binds name = true) :
    (substitution.stillFree names).card < names.card := by
  obtain ⟨name, member, isBound⟩ := bound
  apply Finset.card_lt_card
  refine Finset.filter_ssubset.mpr ⟨name, member, ?_⟩
  simp [isBound]

/-- Resolving two types leaves only type variables that are still free. -/
theorem Coherent.mem_stillFree (coherent : substitution.Coherent) {names : Finset TypeVar}
    (kept : substitution.Keeps names)
    (within : ∀ name ∈ left.occurrences ++ right.occurrences, name ∈ (names : Set TypeVar)) :
    ∀ name ∈ (left.instantiate substitution.resolution).occurrences ++
        (right.instantiate substitution.resolution).occurrences,
      name ∈ substitution.stillFree names := fun name member =>
  Finset.mem_filter.mpr ⟨kept.instantiate_both within name member,
    coherent.free_of_mem_both name member⟩

end Both

section Step

variable {names : Set TypeVar} {before after : Substitution}

theorem Step.mono {larger : Set TypeVar} (step : Step names before after)
    (subset : names ⊆ larger) : Step larger before after := by
  cases step with
  | remember same coherent => exact .remember same coherent
  | bind allowed free resolved absent =>
      exact .bind (subset allowed) free
        (fun other member => ⟨subset (resolved other member).1,
          (resolved other member).2⟩) absent

theorem Step.coherent (step : Step names before after)
    (coherent : before.Coherent) : after.Coherent := by
  cases step with
  | remember _ afterCoherent => exact afterCoherent
  | bind _ free resolved absent =>
      exact coherent.insert free (fun other member => (resolved other member).2)
        absent

theorem Step.keeps (step : Step names before after) (coherent : before.Coherent)
    (kept : before.Keeps names) : after.Keeps names := by
  cases step with
  | remember same _ =>
      rw [Keeps, resolution_eq_of_table same]
      exact kept
  | @bind bound ty _ free resolved absent =>
      intro name allowed other member
      rw [coherent.resolution_insert free
        (fun other member => (resolved other member).2) absent,
        Ty.mem_occurrences_instantiate] at member
      obtain ⟨origin, originMember, member⟩ := member
      by_cases same : origin = bound
      · rw [same, Function.update_self] at member
        exact (resolved other member).1
      · rw [Function.update_of_ne same] at member
        obtain rfl : other = origin := by simpa [Ty.occurrences] using member
        exact kept name allowed other originMember

/-- A step that changes the table makes it larger. -/
theorem Step.table_eq_or_grows (step : Step names before after) :
    after.table = before.table ∨
      before.size < after.size ∧ ∃ name ∈ names, after.binds name = true := by
  cases step with
  | remember same _ => exact .inl same
  | @bind name ty allowed free _ _ =>
      refine .inr ⟨?_, name, allowed, ?_⟩
      · have grown : (before.insert name ty).table.size = before.table.size + 1 :=
          OrderedMap.size_insert_of_absent ty (binds_eq_false.mp free)
        simp only [size, grown]
        omega
      · simp [Substitution.binds, Substitution.insert, OrderedMap.get?_insert]

end Step

section Extends

variable {names : Set TypeVar} {before middle after : Substitution}

theorem Extends.refl (substitution : Substitution) :
    Extends names substitution substitution :=
  Relation.ReflTransGen.refl

theorem Extends.step (step : Step names before after) :
    Extends names before after :=
  Relation.ReflTransGen.single step

theorem Extends.trans (first : Extends names before middle)
    (second : Extends names middle after) : Extends names before after :=
  Relation.ReflTransGen.trans first second

theorem Extends.mono {larger : Set TypeVar} (steps : Extends names before after)
    (subset : names ⊆ larger) : Extends larger before after := by
  induction steps with
  | refl => exact .refl _
  | tail _ step ih => exact Extends.trans ih (.step (step.mono subset))

theorem Extends.coherent (steps : Extends names before after)
    (coherent : before.Coherent) : after.Coherent := by
  induction steps with
  | refl => exact coherent
  | tail _ step ih => exact step.coherent ih

theorem Extends.keeps (steps : Extends names before after)
    (coherent : before.Coherent) (kept : before.Keeps names) :
    after.Keeps names := by
  induction steps with
  | refl => exact kept
  | tail earlier step ih => exact step.keeps (Extends.coherent earlier coherent) ih

theorem Extends.table_eq_or_grows (steps : Extends names before after) :
    after.table = before.table ∨
      before.size < after.size ∧ ∃ name ∈ names, after.binds name = true := by
  induction steps with
  | refl => exact .inl rfl
  | @tail middle after _ step ih =>
      rcases step.table_eq_or_grows with same | ⟨grown, bound⟩
      · have sameSize : after.size = middle.size := by rw [size, size, same]
        rw [same, sameSize, binds_eq_of_table same]
        exact ih
      · refine .inr ⟨?_, bound⟩
        rcases ih with sameBefore | ⟨grownBefore, -⟩
        · have sameSize : middle.size = before.size := by rw [size, size, sameBefore]
          exact sameSize ▸ grown
        · omega

end Extends

end Substitution

/-! ## The outcome of a unification -/

/-- The outermost constructor of a type that is not a type variable. -/
inductive TyShape where
  | unit
  | arrow
  | product
  deriving DecidableEq, Repr

/-- The shape of a type, if it has one. -/
def Ty.shape? : Ty → Option TyShape
  | unit => some .unit
  | var _ => none
  | arrow _ _ => some .arrow
  | product _ _ => some .product

/-- Whether a clash tells the truth about types that are resolved by a
substitution. -/
def Clash.Genuine (substitution : Substitution) : Clash → Prop
  | mismatch expected actual =>
      (∃ expectedShape actualShape, expected.shape? = some expectedShape ∧
        actual.shape? = some actualShape ∧ expectedShape ≠ actualShape) ∧
      ∀ name ∈ expected.occurrences ++ actual.occurrences,
        substitution.binds name = false
  | circularity name ty =>
      ty.shape?.isSome = true ∧ name ∈ ty.occurrences ∧
        ∀ other ∈ ty.occurrences, substitution.binds other = false

namespace Unify

open Substitution

/-- What pursuing a goal over the type variables `names` may lead to: a
substitution that is satisfied exactly by the assignments that satisfied the
earlier one and fulfil the goal, or a clash because there are none. -/
def Outcome (names : Set TypeVar) (goal : Assignment → Prop)
    (before : Substitution) : EStateM.Result Clash Substitution Unit → Prop
  | .ok _ after => Extends names before after ∧
      ∀ assignment, after.SatisfiedBy assignment ↔
        before.SatisfiedBy assignment ∧ goal assignment
  | .error clash after => Extends names before after ∧ clash.Genuine after ∧
      ∀ assignment, before.SatisfiedBy assignment → ¬ goal assignment

/-- Whether an assignment makes two types equal. -/
def Equates (left right : Ty) (assignment : Assignment) : Prop :=
  left.instantiate assignment = right.instantiate assignment

/-- Go on from the substitution that a successful computation leads to. -/
def andThen (result : EStateM.Result Clash Substitution Unit)
    (rest : Substitution → EStateM.Result Clash Substitution Unit) :
    EStateM.Result Clash Substitution Unit :=
  match result with
  | .ok _ middle => rest middle
  | .error clash after => .error clash after

section Outcome

variable {names : Set TypeVar} {goal : Assignment → Prop} {before : Substitution}
  {result : EStateM.Result Clash Substitution Unit}

theorem Outcome.congr {other : Assignment → Prop}
    (outcome : Outcome names goal before result)
    (same : ∀ assignment, before.SatisfiedBy assignment →
      (goal assignment ↔ other assignment)) :
    Outcome names other before result := by
  cases result with
  | ok _ after =>
      refine ⟨outcome.1, fun assignment => ?_⟩
      rw [outcome.2 assignment]
      exact and_congr_right (same assignment)
  | error clash after =>
      refine ⟨outcome.1, outcome.2.1, fun assignment satisfied fulfilled => ?_⟩
      exact outcome.2.2 assignment satisfied
        ((same assignment satisfied).mpr fulfilled)

theorem Outcome.symm {left right : Ty}
    (outcome : Outcome names (Equates left right) before result) :
    Outcome names (Equates right left) before result :=
  outcome.congr fun _ _ => eq_comm

theorem Outcome.mono {larger : Set TypeVar}
    (outcome : Outcome names goal before result) (subset : names ⊆ larger) :
    Outcome larger goal before result := by
  cases result with
  | ok _ after => exact ⟨outcome.1.mono subset, outcome.2⟩
  | error clash after => exact ⟨outcome.1.mono subset, outcome.2⟩

theorem outcome_of_trivial (trivial : ∀ assignment, goal assignment) :
    Outcome names goal before (.ok () before) :=
  ⟨.refl before, fun assignment => by simp [trivial assignment]⟩

theorem Outcome.andThen {next : Assignment → Prop}
    {rest : Substitution → EStateM.Result Clash Substitution Unit}
    (first : Outcome names goal before result)
    (second : ∀ middle, Extends names before middle →
      Outcome names next middle (rest middle)) :
    Outcome names (fun assignment => goal assignment ∧ next assignment) before
      (andThen result rest) := by
  cases result with
  | error clash after =>
      refine ⟨first.1, first.2.1, fun assignment satisfied fulfilled => ?_⟩
      exact first.2.2 assignment satisfied fulfilled.1
  | ok _ middle =>
      obtain ⟨steps, firstSatisfied⟩ := first
      have final := second middle steps
      rw [Unify.andThen]
      cases last : rest middle with
      | error clash after =>
          rw [last] at final
          refine ⟨steps.trans final.1, final.2.1, fun assignment satisfied fulfilled => ?_⟩
          exact final.2.2 assignment
            ((firstSatisfied assignment).mpr ⟨satisfied, fulfilled.1⟩) fulfilled.2
      | ok _ after =>
          rw [last] at final
          refine ⟨steps.trans final.1, fun assignment => ?_⟩
          rw [final.2 assignment, firstSatisfied assignment, and_assoc]

theorem Outcome.remembered {earlier : Substitution}
    (outcome : Outcome names goal before result)
    (same : before.table = earlier.table) (coherent : before.Coherent) :
    Outcome names goal earlier result := by
  have recalled : Extends names earlier before := .step (.remember same coherent)
  cases result with
  | ok _ after =>
      refine ⟨recalled.trans outcome.1, fun assignment => ?_⟩
      rw [outcome.2 assignment, satisfiedBy_of_table same]
  | error clash after =>
      refine ⟨recalled.trans outcome.1, outcome.2.1, fun assignment satisfied => ?_⟩
      exact outcome.2.2 assignment ((satisfiedBy_of_table same assignment).mpr satisfied)

theorem outcome_of_mismatch {left right : Ty}
    (differs : ∃ leftShape rightShape, left.shape? = some leftShape ∧
      right.shape? = some rightShape ∧ leftShape ≠ rightShape)
    (free : ∀ name ∈ names, before.binds name = false)
    (within : ∀ name ∈ left.occurrences ++ right.occurrences, name ∈ names) :
    Outcome names (Equates left right) before
      (.error (.mismatch left right) before) := by
  refine ⟨.refl before, ⟨differs, fun name member => free name (within name member)⟩,
    fun assignment _ equal => ?_⟩
  obtain ⟨leftShape, rightShape, leftIs, rightIs, differs⟩ := differs
  -- An instance of a type that is no variable has the shape of that type.
  have keeps {ty : Ty} {shape : TyShape} (is : ty.shape? = some shape) :
      (ty.instantiate assignment).shape? = some shape := by
    cases ty with
    | var name => simp [Ty.shape?] at is
    | unit | arrow | product => exact is
  have sameShape : some leftShape = some rightShape := by
    rw [← keeps leftIs, ← keeps rightIs, equal]
  exact differs (Option.some.inj sameShape)

theorem outcome_of_bind {name : TypeVar} {ty : Ty}
    (free : ∀ name ∈ names, before.binds name = false) (allowed : name ∈ names)
    (within : ∀ other ∈ ty.occurrences, other ∈ names)
    (absent : name ∉ ty.occurrences) :
    Outcome names (Equates (.var name) ty) before
      (.ok () (before.insert name ty)) := by
  have resolved : ∀ other ∈ ty.occurrences,
      other ∈ names ∧ before.binds other = false :=
    fun other member => ⟨within other member, free other (within other member)⟩
  exact ⟨.step (.bind allowed (free name allowed) resolved absent),
    satisfiedBy_insert (free name allowed)⟩

theorem bindVar_outcome {name : TypeVar} {ty : Ty} (shaped : ty.shape?.isSome = true)
    (free : ∀ name ∈ names, before.binds name = false) (allowed : name ∈ names)
    (within : ∀ other ∈ ty.occurrences, other ∈ names) :
    Outcome names (Equates (.var name) ty) before ((bindVar name ty).run before) := by
  by_cases member : name ∈ ty.occurrences
  · have run : (bindVar name ty).run before =
        .error (.circularity name ty) before := by
      rw [bindVar, if_pos (Ty.contains_iff.mpr member)]
      rfl
    have larger : ty ≠ .var name := by
      rintro rfl
      simp [Ty.shape?] at shaped
    rw [run]
    refine ⟨.refl before, ⟨shaped, member, fun other member =>
      free other (within other member)⟩, fun assignment _ => ?_⟩
    exact Ty.instantiate_ne_of_mem assignment member larger
  · have run : (bindVar name ty).run before = .ok () (before.insert name ty) := by
      rw [bindVar, if_neg (mt Ty.contains_iff.mp member)]
      rfl
    rw [run]
    exact outcome_of_bind free allowed within member

end Outcome

/-! ## Unification of resolved types -/

/-- Go on with the second components of two composite types, from the
substitution `middle` that unifying the first ones has led to. -/
def continueWith (again : Ty → Ty → Unify Unit) (left right : Ty)
    (before middle : Substitution) : EStateM.Result Clash Substitution Unit :=
  if middle.size = before.size then
    (unifyApplied again left right).run middle
  else
    (again left right).run middle

theorem unifyApplied_arrow_run (again : Ty → Ty → Unify Unit)
    (left₁ left₂ right₁ right₂ : Ty) (before : Substitution) :
    (unifyApplied again (.arrow left₁ left₂) (.arrow right₁ right₂)).run before =
      andThen ((unifyApplied again left₁ right₁).run before)
        (continueWith again left₂ right₂ before) := by
  rw [unifyApplied]
  simp only [EStateM.run_bind, EStateM.run_get]
  cases first : (unifyApplied again left₁ right₁).run before with
  | error clash after => rfl
  | ok _ middle =>
      by_cases unchanged : middle.size = before.size
      · simp [andThen, continueWith, unchanged]
      · simp [andThen, continueWith, unchanged]

theorem unifyApplied_product_run (again : Ty → Ty → Unify Unit)
    (left₁ left₂ right₁ right₂ : Ty) (before : Substitution) :
    (unifyApplied again (.product left₁ left₂) (.product right₁ right₂)).run before =
      andThen ((unifyApplied again left₁ right₁).run before)
        (continueWith again left₂ right₂ before) := by
  rw [unifyApplied]
  simp only [EStateM.run_bind, EStateM.run_get]
  cases first : (unifyApplied again left₁ right₁).run before with
  | error clash after => rfl
  | ok _ middle =>
      by_cases unchanged : middle.size = before.size
      · simp [andThen, continueWith, unchanged]
      · simp [andThen, continueWith, unchanged]

/-- Whether `again` unifies types over `names` once one of `names` is bound. -/
def Resumes (names : Set TypeVar) (again : Ty → Ty → Unify Unit) : Prop :=
  ∀ {left right : Ty} {before : Substitution}, before.Coherent →
    before.Keeps names → (∃ name ∈ names, before.binds name = true) →
    (∀ name ∈ left.occurrences ++ right.occurrences, name ∈ names) →
    Outcome names (Equates left right) before ((again left right).run before)

section Applied

variable {names : Set TypeVar} {again : Ty → Ty → Unify Unit}

theorem continueWith_outcome (resumes : Resumes names again) {left right : Ty}
    (ih : ∀ {before : Substitution}, before.Coherent →
      (∀ name ∈ names, before.binds name = false) →
      Outcome names (Equates left right) before
        ((unifyApplied again left right).run before))
    (within : ∀ name ∈ left.occurrences ++ right.occurrences, name ∈ names)
    {before middle : Substitution} (coherent : before.Coherent)
    (free : ∀ name ∈ names, before.binds name = false)
    (steps : Extends names before middle) :
    Outcome names (Equates left right) middle
      (continueWith again left right before middle) := by
  have middleCoherent := steps.coherent coherent
  rcases steps.table_eq_or_grows with same | ⟨grown, bound⟩
  · have sameSize : middle.size = before.size := by rw [size, size, same]
    rw [continueWith, if_pos sameSize]
    apply ih middleCoherent
    rw [binds_eq_of_table same]
    exact free
  · rw [continueWith, if_neg (by omega)]
    exact resumes middleCoherent (steps.keeps coherent (keeps_of_free free)) bound
      within

theorem unifyApplied_outcome (resumes : Resumes names again) {left right : Ty}
    {before : Substitution} (coherent : before.Coherent)
    (free : ∀ name ∈ names, before.binds name = false)
    (within : ∀ name ∈ left.occurrences ++ right.occurrences, name ∈ names) :
    Outcome names (Equates left right) before
      ((unifyApplied again left right).run before) := by
  induction left generalizing right before with
  | unit =>
      cases right with
      | unit => exact outcome_of_trivial fun _ => rfl
      | var name =>
          exact (bindVar_outcome rfl free (within name (by simp [Ty.occurrences]))
            (by simp [Ty.occurrences])).symm
      | arrow domain codomain =>
          exact outcome_of_mismatch ⟨_, _, rfl, rfl, by decide⟩ free within
      | product first second =>
          exact outcome_of_mismatch ⟨_, _, rfl, rfl, by decide⟩ free within
  | var name =>
      have allowed : name ∈ names := within name (by simp [Ty.occurrences])
      have rightWithin : ∀ other ∈ right.occurrences, other ∈ names :=
        fun other member => within other (by simp [member])
      cases right with
      | unit => exact bindVar_outcome rfl free allowed rightWithin
      | arrow domain codomain => exact bindVar_outcome rfl free allowed rightWithin
      | product first second => exact bindVar_outcome rfl free allowed rightWithin
      | var other =>
          by_cases same : name = other
          · have run : (unifyApplied again (.var name) (.var other)).run before =
                .ok () before := by
              rw [unifyApplied, if_pos same]
              rfl
            rw [run, same]
            exact outcome_of_trivial fun _ => rfl
          · have run : (unifyApplied again (.var name) (.var other)).run before =
                .ok () (before.insert name (.var other)) := by
              rw [unifyApplied, if_neg same]
              rfl
            rw [run]
            exact outcome_of_bind free allowed rightWithin
              (by simpa [Ty.occurrences] using same)
  | arrow left₁ left₂ firstIh secondIh =>
      cases right with
      | unit => exact outcome_of_mismatch ⟨_, _, rfl, rfl, by decide⟩ free within
      | var name =>
          exact (bindVar_outcome rfl free (within name (by simp [Ty.occurrences]))
            fun other member => within other (by simp [member])).symm
      | product first second =>
          exact outcome_of_mismatch ⟨_, _, rfl, rfl, by decide⟩ free within
      | arrow right₁ right₂ =>
          have firstWithin : ∀ name ∈ left₁.occurrences ++ right₁.occurrences,
              name ∈ names := by
            grind [Ty.occurrences]
          have secondWithin : ∀ name ∈ left₂.occurrences ++ right₂.occurrences,
              name ∈ names := by
            grind [Ty.occurrences]
          have first := firstIh coherent free firstWithin
          have rest (middle : Substitution) (steps : Extends names before middle) :
              Outcome names (Equates left₂ right₂) middle
                (continueWith again left₂ right₂ before middle) :=
            continueWith_outcome resumes
              (fun coherent free => secondIh coherent free secondWithin)
              secondWithin coherent free steps
          rw [unifyApplied_arrow_run]
          exact (first.andThen rest).congr fun _ _ => by simp [Equates]
  | product left₁ left₂ firstIh secondIh =>
      cases right with
      | unit => exact outcome_of_mismatch ⟨_, _, rfl, rfl, by decide⟩ free within
      | var name =>
          exact (bindVar_outcome rfl free (within name (by simp [Ty.occurrences]))
            fun other member => within other (by simp [member])).symm
      | arrow first second =>
          exact outcome_of_mismatch ⟨_, _, rfl, rfl, by decide⟩ free within
      | product right₁ right₂ =>
          have firstWithin : ∀ name ∈ left₁.occurrences ++ right₁.occurrences,
              name ∈ names := by
            grind [Ty.occurrences]
          have secondWithin : ∀ name ∈ left₂.occurrences ++ right₂.occurrences,
              name ∈ names := by
            grind [Ty.occurrences]
          have first := firstIh coherent free firstWithin
          have rest (middle : Substitution) (steps : Extends names before middle) :
              Outcome names (Equates left₂ right₂) middle
                (continueWith again left₂ right₂ before middle) :=
            continueWith_outcome resumes
              (fun coherent free => secondIh coherent free secondWithin)
              secondWithin coherent free steps
          rw [unifyApplied_product_run]
          exact (first.andThen rest).congr fun _ _ => by simp [Equates]

end Applied

/-! ## Rounds -/

theorem apply_run {before : Substitution} (coherent : before.Coherent) (ty : Ty) :
    ∃ after, (apply ty).run before = .ok (ty.instantiate before.resolution) after ∧
      after.table = before.table ∧ after.Coherent := by
  obtain ⟨after, run, same, afterCoherent⟩ := coherent.apply_run ty
  refine ⟨after, ?_, same, afterCoherent⟩
  change EStateM.Result.ok ((Substitution.apply ty).run before).1
    ((Substitution.apply ty).run before).2 = _
  rw [run]

/-- Applying the substitution to both types before they are unified changes
nothing about the outcome. -/
theorem applied_outcome {names : Set TypeVar} {left right : Ty}
    {before : Substitution} {continuation : Ty → Ty → Unify Unit}
    (coherent : before.Coherent)
    (outcome : ∀ {middle : Substitution}, middle.Coherent →
      middle.table = before.table →
      Outcome names
        (Equates (left.instantiate before.resolution)
          (right.instantiate before.resolution)) middle
        ((continuation (left.instantiate before.resolution)
          (right.instantiate before.resolution)).run middle)) :
    Outcome names (Equates left right) before
      ((do
        let left ← apply left
        let right ← apply right
        continuation left right : Unify Unit).run before) := by
  obtain ⟨first, firstRun, firstSame, firstCoherent⟩ := apply_run coherent left
  obtain ⟨second, secondRun, secondSame, secondCoherent⟩ :=
    apply_run firstCoherent right
  have same : second.table = before.table := secondSame.trans firstSame
  have sameResolution := resolution_eq_of_table firstSame
  have run : (do
        let left ← apply left
        let right ← apply right
        continuation left right : Unify Unit).run before =
      (continuation (left.instantiate before.resolution)
        (right.instantiate before.resolution)).run second := by
    simp only [EStateM.run_bind, firstRun, secondRun, sameResolution]
  rw [run]
  apply ((outcome secondCoherent same).remembered same secondCoherent).congr
  intro assignment satisfied
  rw [Equates, Equates, coherent.instantiate_resolution satisfied,
    coherent.instantiate_resolution satisfied]

/-- As many rounds as there are type variables are enough: each further round
has fewer type variables that are still free. -/
theorem unifyRounds_outcome (rounds : Nat) {names : Finset TypeVar}
    {left right : Ty} {before : Substitution} (enough : names.card ≤ rounds)
    (coherent : before.Coherent)
    (free : ∀ name ∈ names, before.binds name = false)
    (within : ∀ name ∈ left.occurrences ++ right.occurrences, name ∈ names) :
    Outcome names (Equates left right) before
      ((unifyRounds rounds left right).run before) := by
  induction rounds generalizing names left right before with
  | zero =>
      -- Without type variables nothing gets bound, so there is no further round.
      have none : names = ∅ := Finset.card_eq_zero.mp (Nat.le_zero.mp enough)
      subst none
      refine unifyApplied_outcome ?_ coherent free within
      intro left right before _ _ bound
      simp at bound
  | succ rounds ih =>
      refine unifyApplied_outcome ?_ coherent free within
      intro left right before coherent kept bound within
      apply applied_outcome coherent
      intro middle middleCoherent same
      have fewer := card_stillFree_lt bound
      have outcome : Outcome (before.stillFree names)
          (Equates (left.instantiate before.resolution)
            (right.instantiate before.resolution)) middle
          ((unifyRounds rounds (left.instantiate before.resolution)
            (right.instantiate before.resolution)).run middle) := by
        apply ih (by omega) middleCoherent ?_ (coherent.mem_stillFree kept within)
        rw [binds_eq_of_table same]
        exact free_of_mem_stillFree
      exact outcome.mono stillFree_subset

theorem card_toFinset_occurrences_le (left right : Ty) :
    (left.occurrences ++ right.occurrences).toFinset.card ≤ left.size + right.size := by
  have total := List.toFinset_card_le (left.occurrences ++ right.occurrences)
  have leftBound := left.length_occurrences_le_size
  have rightBound := right.length_occurrences_le_size
  rw [List.length_append] at total
  omega

/-- Unification from a coherent substitution finds the most general way to make
two types equal, or there is none.  It stays within type variables among which
the two types lie. -/
theorem unify_outcome {names : Set TypeVar} {before : Substitution}
    (coherent : before.Coherent) (kept : before.Keeps names) {left right : Ty}
    (within : ∀ name ∈ left.occurrences ++ right.occurrences, name ∈ names) :
    Outcome names (Equates left right) before ((unify left right).run before) := by
  apply applied_outcome coherent
  intro middle middleCoherent same
  have free : ∀ name ∈ ((left.instantiate before.resolution).occurrences ++
      (right.instantiate before.resolution).occurrences).toFinset,
      middle.binds name = false := by
    intro name member
    rw [binds_eq_of_table same]
    exact coherent.free_of_mem_both name (List.mem_toFinset.mp member)
  have outcome := unifyRounds_outcome _ (card_toFinset_occurrences_le _ _) middleCoherent
    free (fun name member => List.mem_toFinset.mpr member)
  exact outcome.mono fun name member =>
    kept.instantiate_both within name (List.mem_toFinset.mp member)

theorem unify_outcome_univ {before : Substitution} (coherent : before.Coherent)
    (left right : Ty) :
    Outcome Set.univ (Equates left right) before ((unify left right).run before) :=
  unify_outcome coherent (keeps_univ before) fun _ _ => Set.mem_univ _

/-- Unification succeeds exactly if some assignment satisfies the bindings and makes
the two types equal. -/
theorem exists_unify_run_ok_iff {before : Substitution} (coherent : before.Coherent)
    (left right : Ty) :
    (∃ after, (unify left right).run before = .ok () after) ↔
      ∃ assignment, before.SatisfiedBy assignment ∧ Equates left right assignment := by
  have outcome := unify_outcome_univ coherent left right
  cases ran : (unify left right).run before with
  | ok _ after =>
      rw [ran] at outcome
      obtain ⟨steps, satisfied⟩ := outcome
      have afterCoherent := steps.coherent coherent
      exact iff_of_true ⟨after, rfl⟩
        ⟨_, (satisfied _).mp afterCoherent.satisfiedBy_resolution⟩
  | error clash after =>
      rw [ran] at outcome
      refine iff_of_false (by simp) ?_
      rintro ⟨assignment, satisfied, equal⟩
      exact outcome.2.2 assignment satisfied equal

/-! ## Solving constraints -/

/-- Whether an assignment makes the two sides of every constraint equal. -/
def Solves (constraints : List Constraint) (assignment : Assignment) : Prop :=
  ∀ constraint ∈ constraints,
    Equates constraint.expected constraint.actual assignment

/-- Whether the type variables of a constraint are among `names`. -/
def Within (names : Set TypeVar) (constraint : Constraint) : Prop :=
  ∀ name ∈ constraint.expected.occurrences ++ constraint.actual.occurrences,
    name ∈ names

theorem satisfy_outcome {names : Set TypeVar} {before : Substitution}
    (coherent : before.Coherent) (kept : before.Keeps names)
    {constraint : Constraint} (within : Within names constraint) :
    Outcome names (Equates constraint.expected constraint.actual) before
      ((satisfy constraint).run before) := by
  have unfolded : satisfy constraint = (do
      let expected ← apply constraint.expected
      let actual ← apply constraint.actual
      unify expected actual) := by
    simp [satisfy, applyConstraint]
  rw [unfolded]
  apply applied_outcome coherent
  intro middle middleCoherent same
  have middleKept : middle.Keeps names := by
    rw [Keeps, resolution_eq_of_table same]
    exact kept
  exact unify_outcome middleCoherent middleKept (kept.instantiate_both within)

theorem solve_cons_run (constraint : Constraint) (constraints : List Constraint)
    (before : Substitution) :
    (solve (constraint :: constraints)).run before =
      andThen ((satisfy constraint).run before)
        fun middle => (solve constraints).run middle := by
  rw [solve, EStateM.run_bind]
  cases (satisfy constraint).run before with
  | ok _ middle => rfl
  | error clash after => rfl

theorem solve_outcome {names : Set TypeVar} {before : Substitution}
    (coherent : before.Coherent) (kept : before.Keeps names)
    {constraints : List Constraint}
    (within : ∀ constraint ∈ constraints, Within names constraint) :
    Outcome names (Solves constraints) before ((solve constraints).run before) := by
  induction constraints generalizing before with
  | nil => exact outcome_of_trivial fun _ constraint member => by simp at member
  | cons constraint constraints ih =>
      obtain ⟨firstWithin, restWithin⟩ := List.forall_mem_cons.mp within
      rw [solve_cons_run]
      have first := satisfy_outcome coherent kept firstWithin
      have rest (middle : Substitution) (steps : Extends names before middle) :=
        ih (steps.coherent coherent) (steps.keeps coherent kept) restWithin
      exact (first.andThen rest).congr fun _ _ => by simp [Solves]

theorem solve_outcome_univ {before : Substitution} (coherent : before.Coherent)
    (constraints : List Constraint) :
    Outcome Set.univ (Solves constraints) before ((solve constraints).run before) :=
  solve_outcome coherent (keeps_univ before) fun _ _ _ _ => Set.mem_univ _

/-- A solution that is found solves the constraints, and every other solution
satisfies its bindings. -/
theorem solve_run_ok {names : Set TypeVar} {constraints : List Constraint}
    {solution : Substitution}
    (within : ∀ constraint ∈ constraints, Within names constraint)
    (run : (solve constraints).run .empty = .ok () solution) :
    solution.Coherent ∧ solution.Keeps names ∧
      Solves constraints solution.resolution ∧
      ∀ assignment, Solves constraints assignment →
        solution.SatisfiedBy assignment := by
  have outcome := solve_outcome coherent_empty (keeps_empty names) within
  rw [run] at outcome
  obtain ⟨steps, satisfied⟩ := outcome
  have coherent := steps.coherent coherent_empty
  refine ⟨coherent, steps.keeps coherent_empty (keeps_empty names),
    ((satisfied _).mp coherent.satisfiedBy_resolution).2, ?_⟩
  intro assignment solves
  exact (satisfied assignment).mpr ⟨satisfiedBy_empty assignment, solves⟩

theorem solve_run_error {constraints : List Constraint} {clash : Clash}
    {after : Substitution}
    (run : (solve constraints).run .empty = .error clash after)
    (assignment : Assignment) : ¬ Solves constraints assignment := by
  have outcome := solve_outcome_univ coherent_empty constraints
  rw [run] at outcome
  exact outcome.2.2 assignment (satisfiedBy_empty assignment)

end Unify

end TypedHoles
