import TypedHoles.Proofs.ReachableSubstitutions

/-!
# Unification over other stores of bindings

Unification asks three things of the place where it keeps its bindings: to apply
them to a type, to add one, and to say how many there are.  Here it runs over an
arbitrary store with these operations.  If a store follows substitutions through
the changes that unification makes to them, then unification over the store
succeeds and fails as it does over substitutions, with the same clashes.
-/

namespace TypedHoles

/-- A place in which unification can keep its bindings. -/
structure BindingStore (σ : Type) where
  replace? : Ty → StateM σ (Option Ty)
  bind : TypeVar → Ty → σ → σ
  size : σ → Nat

namespace BindingStore

section Unification

variable {σ : Type} (store : BindingStore σ)

def apply (ty : Ty) : EStateM Clash σ Ty :=
  modifyGet fun state =>
    let (replaced, next) := (store.replace? ty).run state
    (replaced.getD ty, next)

def bindVar (name : TypeVar) (ty : Ty) : EStateM Clash σ Unit :=
  if ty.contains name then
    throw (.circularity name ty)
  else
    modify (store.bind name ty)

/-- Go on with `second`, or with `resumed` if `first` has made a binding. -/
def inTurn (first second resumed : EStateM Clash σ Unit) : EStateM Clash σ Unit := do
  let bindings := store.size (← get)
  first
  if store.size (← get) = bindings then second else resumed

def unifyApplied (again : Ty → Ty → EStateM Clash σ Unit) :
    Ty → Ty → EStateM Clash σ Unit
  | .unit, .unit => return ()
  | .var left, .var right =>
      if left = right then return () else modify (store.bind left (.var right))
  | .var name, ty => store.bindVar name ty
  | ty, .var name => store.bindVar name ty
  | .arrow left₁ left₂, .arrow right₁ right₂ =>
      store.inTurn (unifyApplied again left₁ right₁)
        (unifyApplied again left₂ right₂) (again left₂ right₂)
  | .product left₁ left₂, .product right₁ right₂ =>
      store.inTurn (unifyApplied again left₁ right₁)
        (unifyApplied again left₂ right₂) (again left₂ right₂)
  | left, right => throw (.mismatch left right)

def unifyRounds : (rounds : Nat) → Ty → Ty → EStateM Clash σ Unit
  | 0 => store.unifyApplied fun left right => throw (.mismatch left right)
  | rounds + 1 => store.unifyApplied fun left right => do
      let left ← store.apply left
      let right ← store.apply right
      unifyRounds rounds left right

def unify (left right : Ty) : EStateM Clash σ Unit := do
  let left ← store.apply left
  let right ← store.apply right
  store.unifyRounds (left.size + right.size) left right

def satisfy (constraint : Constraint) : EStateM Clash σ Unit := do
  let expected ← store.apply constraint.expected
  let actual ← store.apply constraint.actual
  store.unify expected actual

def solve : List Constraint → EStateM Clash σ Unit
  | [] => return ()
  | constraint :: constraints => do
      store.satisfy constraint
      solve constraints

/-- The state with which a computation ends, whether or not it fails. -/
def leftBy : EStateM.Result Clash σ Unit → σ
  | .ok _ after => after
  | .error _ after => after

def perform (state : σ) : Substitution.Operation → σ
  | .apply ty => ((store.replace? ty).run state).2
  | .unify left right => leftBy ((store.unify left right).run state)
  | .solve constraints => leftBy ((store.solve constraints).run state)

end Unification

/-! ## Substitutions are a store -/

/-- The store over which inference runs unification. -/
def substitutions : BindingStore Substitution where
  replace? := Substitution.replace?
  bind name ty substitution := substitution.insert name ty
  size := Substitution.size

theorem substitutions_unifyApplied (again : Ty → Ty → Unify Unit) (left right : Ty) :
    substitutions.unifyApplied again left right =
      Unify.unifyApplied again left right := by
  induction left generalizing right with
  | unit | var => cases right <;> rfl
  | arrow left₁ left₂ firstIh secondIh =>
      cases right with
      | arrow right₁ right₂ =>
          rw [unifyApplied, Unify.unifyApplied, firstIh, secondIh]
          rfl
      | unit | var | product => rfl
  | product left₁ left₂ firstIh secondIh =>
      cases right with
      | product right₁ right₂ =>
          rw [unifyApplied, Unify.unifyApplied, firstIh, secondIh]
          rfl
      | unit | var | arrow => rfl

theorem substitutions_unifyRounds (rounds : Nat) (left right : Ty) :
    substitutions.unifyRounds rounds left right = Unify.unifyRounds rounds left right := by
  induction rounds generalizing left right with
  | zero => exact substitutions_unifyApplied _ left right
  | succ rounds ih =>
      rw [unifyRounds, Unify.unifyRounds, substitutions_unifyApplied]
      simp only [ih]
      rfl

theorem substitutions_unify (left right : Ty) :
    substitutions.unify left right = Unify.unify left right := by
  simp only [unify, substitutions_unifyRounds]
  rfl

theorem substitutions_solve (constraints : List Constraint) :
    substitutions.solve constraints = Unify.solve constraints := by
  induction constraints with
  | nil => rfl
  | cons constraint constraints ih =>
      simp only [solve, satisfy, substitutions_unify, ih]
      rfl

/-- Over substitutions, unification is what it is defined to be. -/
theorem substitutions_perform (substitution : Substitution)
    (operation : Substitution.Operation) :
    substitutions.perform substitution operation = substitution.perform operation := by
  cases operation with
  | apply ty => rfl
  | unify left right =>
      rw [perform, Substitution.perform, substitutions_unify]
      cases (Unify.unify left right).run substitution <;> rfl
  | solve constraints =>
      rw [perform, Substitution.perform, substitutions_solve]
      cases (Unify.solve constraints).run substitution <;> rfl

/-! ## Stores that follow substitutions -/

variable {σ : Type} {store : BindingStore σ}

/-- Whether the states of a store stay related to coherent substitutions when both
are applied to types and when both get a binding that unification may make. -/
structure Follows (store : BindingStore σ) (related : Substitution → σ → Prop) :
    Prop where
  coherent : ∀ {substitution state}, related substitution state →
    substitution.Coherent
  size_eq : ∀ {substitution state}, related substitution state →
    store.size state = substitution.size
  replace? : ∀ {substitution state}, related substitution state → ∀ ty,
    ∃ replaced next after, (Substitution.replace? ty).run substitution =
        (replaced, next) ∧
      (store.replace? ty).run state = (replaced, after) ∧ related next after
  bind : ∀ {substitution state}, related substitution state →
    ∀ {name ty}, substitution.binds name = false →
      (∀ other ∈ ty.occurrences, substitution.binds other = false) →
      name ∉ ty.occurrences →
      related (substitution.insert name ty) (store.bind name ty state)

/-- The same result from a substitution `before` and from a related state.  Only
changes that unification makes have been made to the substitution. -/
inductive Agrees (related : Substitution → σ → Prop) (before : Substitution) :
    EStateM.Result Clash Substitution Unit → EStateM.Result Clash σ Unit → Prop
  | ok {after : Substitution} {state : σ}
      (steps : Substitution.Extends Set.univ before after)
      (holds : related after state) :
      Agrees related before (.ok () after) (.ok () state)
  | error (clash : Clash) {after : Substitution} {state : σ}
      (steps : Substitution.Extends Set.univ before after)
      (holds : related after state) :
      Agrees related before (.error clash after) (.error clash state)

def andThen (result : EStateM.Result Clash σ Unit)
    (rest : σ → EStateM.Result Clash σ Unit) : EStateM.Result Clash σ Unit :=
  match result with
  | .ok _ middle => rest middle
  | .error clash after => .error clash after

theorem inTurn_run (first second resumed : EStateM Clash σ Unit) (before : σ) :
    (store.inTurn first second resumed).run before =
      andThen (first.run before) fun middle =>
        if store.size middle = store.size before then
          second.run middle
        else
          resumed.run middle := by
  unfold inTurn
  simp only [EStateM.run_bind, EStateM.run_get]
  cases first.run before with
  | error clash after => rfl
  | ok _ middle =>
      by_cases unchanged : store.size middle = store.size before
      · simp [andThen, unchanged]
      · simp [andThen, unchanged]

theorem solve_cons_run (constraint : Constraint) (constraints : List Constraint)
    (before : σ) :
    (store.solve (constraint :: constraints)).run before =
      andThen ((store.satisfy constraint).run before)
        fun middle => (store.solve constraints).run middle := by
  rw [solve, EStateM.run_bind]
  cases (store.satisfy constraint).run before with
  | ok _ middle => rfl
  | error clash after => rfl

section Agreement

variable {related : Substitution → σ → Prop} {before : Substitution} {state : σ}

theorem Agrees.earlier {first : Substitution}
    {result : EStateM.Result Clash Substitution Unit}
    {other : EStateM.Result Clash σ Unit} (agrees : Agrees related before result other)
    (steps : Substitution.Extends Set.univ first before) :
    Agrees related first result other := by
  cases agrees with
  | ok later holds => exact .ok (steps.trans later) holds
  | error clash later holds => exact .error clash (steps.trans later) holds

theorem Agrees.holds_leftBy {result : EStateM.Result Clash Substitution Unit}
    {other : EStateM.Result Clash σ Unit}
    (agrees : Agrees related before result other) :
    related (Substitution.leftBy result) (leftBy other) := by
  cases agrees with
  | ok _ holds => exact holds
  | error _ _ holds => exact holds

theorem Agrees.andThen {result : EStateM.Result Clash Substitution Unit}
    {other : EStateM.Result Clash σ Unit}
    {rest : Substitution → EStateM.Result Clash Substitution Unit}
    {otherRest : σ → EStateM.Result Clash σ Unit}
    (first : Agrees related before result other)
    (second : ∀ {middle state}, Substitution.Extends Set.univ before middle →
      related middle state → Agrees related middle (rest middle) (otherRest state)) :
    Agrees related before (Unify.andThen result rest)
      (BindingStore.andThen other otherRest) := by
  cases first with
  | ok steps holds => exact (second steps holds).earlier steps
  | error clash steps holds => exact .error clash steps holds

namespace Follows

variable (follows : Follows store related)

include follows

theorem bind_agrees (holds : related before state) {name : TypeVar} {ty : Ty}
    (free : before.binds name = false)
    (resolved : ∀ other ∈ ty.occurrences, before.binds other = false)
    (absent : name ∉ ty.occurrences) :
    Agrees related before (.ok () (before.insert name ty))
      (.ok () (store.bind name ty state)) := by
  have bound : Substitution.Step Set.univ before (before.insert name ty) :=
    .bind (Set.mem_univ _) free
      (fun other member => ⟨Set.mem_univ _, resolved other member⟩) absent
  exact .ok (.step bound) (follows.bind holds free resolved absent)

theorem bindVar_agrees (holds : related before state) {name : TypeVar} {ty : Ty}
    (free : before.binds name = false)
    (resolved : ∀ other ∈ ty.occurrences, before.binds other = false) :
    Agrees related before ((Unify.bindVar name ty).run before)
      ((store.bindVar name ty).run state) := by
  unfold Unify.bindVar bindVar
  by_cases occurs : ty.contains name = true
  · rw [if_pos occurs, if_pos occurs]
    exact .error _ (.refl before) holds
  · rw [if_neg occurs, if_neg occurs]
    exact follows.bind_agrees holds free resolved (mt Ty.contains_iff.mpr occurs)

/-- If unifying the first components has made no binding, the second ones are still
resolved.  Otherwise they are resolved again, in both stores. -/
theorem continueWith_agrees {again : Ty → Ty → Unify Unit}
    {storeAgain : Ty → Ty → EStateM Clash σ Unit} {left right : Ty}
    {middle : Substitution} {middleState : σ}
    (resumes : ∀ {middle state}, related middle state →
      Agrees related middle ((again left right).run middle)
        ((storeAgain left right).run state))
    (ih : ∀ {middle state}, related middle state →
      (∀ name ∈ left.occurrences ++ right.occurrences, middle.binds name = false) →
      Agrees related middle ((Unify.unifyApplied again left right).run middle)
        ((store.unifyApplied storeAgain left right).run state))
    (free : ∀ name ∈ left.occurrences ++ right.occurrences, before.binds name = false)
    (holds : related before state)
    (steps : Substitution.Extends Set.univ before middle)
    (middleHolds : related middle middleState) :
    Agrees related middle (Unify.continueWith again left right before middle)
      (if store.size middleState = store.size state then
        (store.unifyApplied storeAgain left right).run middleState
      else
        (storeAgain left right).run middleState) := by
  unfold Unify.continueWith
  rw [follows.size_eq holds, follows.size_eq middleHolds]
  by_cases unchanged : middle.size = before.size
  · rw [if_pos unchanged, if_pos unchanged]
    rcases steps.table_eq_or_grows with same | ⟨grown, -⟩
    · apply ih middleHolds
      rwa [Substitution.binds_eq_of_table same]
    · omega
  · rw [if_neg unchanged, if_neg unchanged]
    exact resumes middleHolds

theorem unifyApplied_agrees {again : Ty → Ty → Unify Unit}
    {storeAgain : Ty → Ty → EStateM Clash σ Unit}
    (resumes : ∀ {left right middle state}, related middle state →
      Agrees related middle ((again left right).run middle)
        ((storeAgain left right).run state))
    {left right : Ty} (holds : related before state)
    (free : ∀ name ∈ left.occurrences ++ right.occurrences,
      before.binds name = false) :
    Agrees related before ((Unify.unifyApplied again left right).run before)
      ((store.unifyApplied storeAgain left right).run state) := by
  induction left generalizing right before state with
  | unit =>
      cases right with
      | unit => exact .ok (.refl before) holds
      | var name =>
          exact follows.bindVar_agrees holds (free name (by simp [Ty.occurrences]))
            (by simp [Ty.occurrences])
      | arrow domain codomain => exact .error _ (.refl before) holds
      | product first second => exact .error _ (.refl before) holds
  | var name =>
      have nameFree : before.binds name = false := free name (by simp [Ty.occurrences])
      have resolved : ∀ other ∈ right.occurrences, before.binds other = false :=
        fun other member => free other (by simp [member])
      cases right with
      | unit => exact follows.bindVar_agrees holds nameFree resolved
      | arrow domain codomain => exact follows.bindVar_agrees holds nameFree resolved
      | product first second => exact follows.bindVar_agrees holds nameFree resolved
      | var other =>
          rw [Unify.unifyApplied, unifyApplied]
          by_cases same : name = other
          · rw [if_pos same, if_pos same]
            exact .ok (.refl before) holds
          · rw [if_neg same, if_neg same]
            exact follows.bind_agrees holds nameFree resolved
              (by simpa [Ty.occurrences] using same)
  | arrow left₁ left₂ firstIh secondIh =>
      cases right with
      | unit => exact .error _ (.refl before) holds
      | product first second => exact .error _ (.refl before) holds
      | var name =>
          exact follows.bindVar_agrees holds (free name (by simp [Ty.occurrences]))
            fun other member => free other (by simp [member])
      | arrow right₁ right₂ =>
          rw [Unify.unifyApplied_arrow_run, unifyApplied, inTurn_run]
          refine (firstIh holds (by grind [Ty.occurrences])).andThen ?_
          exact follows.continueWith_agrees resumes secondIh
            (by grind [Ty.occurrences]) holds
  | product left₁ left₂ firstIh secondIh =>
      cases right with
      | unit => exact .error _ (.refl before) holds
      | arrow first second => exact .error _ (.refl before) holds
      | var name =>
          exact follows.bindVar_agrees holds (free name (by simp [Ty.occurrences]))
            fun other member => free other (by simp [member])
      | product right₁ right₂ =>
          rw [Unify.unifyApplied_product_run, unifyApplied, inTurn_run]
          refine (firstIh holds (by grind [Ty.occurrences])).andThen ?_
          exact follows.continueWith_agrees resumes secondIh
            (by grind [Ty.occurrences]) holds

/-! ## Applying before unifying -/

theorem apply_run (holds : related before state) (ty : Ty) :
    ∃ after next, (Unify.apply ty).run before =
        .ok (ty.instantiate before.resolution) after ∧
      (store.apply ty).run state = .ok (ty.instantiate before.resolution) next ∧
      after.table = before.table ∧ related after next := by
  obtain ⟨replaced, after, next, replacedRun, storeRun, nextHolds⟩ :=
    follows.replace? holds ty
  obtain ⟨_, run, same, -⟩ := Unify.apply_run (follows.coherent holds) ty
  have real : (Unify.apply ty).run before = .ok (replaced.getD ty) after := by
    change EStateM.Result.ok (((Substitution.replace? ty).run before).1.getD ty)
      ((Substitution.replace? ty).run before).2 = _
    rw [replacedRun]
  have other : (store.apply ty).run state = .ok (replaced.getD ty) next := by
    change EStateM.Result.ok (((store.replace? ty).run state).1.getD ty)
      ((store.replace? ty).run state).2 = _
    rw [storeRun]
  rw [real] at run
  obtain ⟨value, rfl⟩ := EStateM.Result.ok.inj run
  exact ⟨after, next, value ▸ real, value ▸ other, same, nextHolds⟩

theorem applied_agrees {left right : Ty} {continuation : Ty → Ty → Unify Unit}
    {storeContinuation : Ty → Ty → EStateM Clash σ Unit} (holds : related before state)
    (continues : ∀ {left right middle state}, related middle state →
      (∀ name ∈ left.occurrences ++ right.occurrences, middle.binds name = false) →
      Agrees related middle ((continuation left right).run middle)
        ((storeContinuation left right).run state)) :
    Agrees related before
      ((do
        let left ← Unify.apply left
        let right ← Unify.apply right
        continuation left right : Unify Unit).run before)
      ((do
        let left ← store.apply left
        let right ← store.apply right
        storeContinuation left right : EStateM Clash σ Unit).run state) := by
  obtain ⟨first, firstState, firstRun, firstStoreRun, firstSame, firstHolds⟩ :=
    follows.apply_run holds left
  obtain ⟨second, secondState, secondRun, secondStoreRun, secondSame, secondHolds⟩ :=
    follows.apply_run firstHolds right
  have coherent := follows.coherent holds
  have same : second.table = before.table := secondSame.trans firstSame
  rw [Substitution.resolution_eq_of_table firstSame] at secondRun secondStoreRun
  simp only [EStateM.run_bind, firstRun, firstStoreRun, secondRun, secondStoreRun]
  have recalled : Substitution.Extends Set.univ before second :=
    .step (.remember same (follows.coherent secondHolds))
  refine (continues secondHolds ?_).earlier recalled
  rw [Substitution.binds_eq_of_table same]
  exact coherent.free_of_mem_both

theorem unifyRounds_agrees (rounds : Nat) {left right : Ty}
    (holds : related before state)
    (free : ∀ name ∈ left.occurrences ++ right.occurrences,
      before.binds name = false) :
    Agrees related before ((Unify.unifyRounds rounds left right).run before)
      ((store.unifyRounds rounds left right).run state) := by
  induction rounds generalizing left right before state with
  | zero =>
      refine follows.unifyApplied_agrees ?_ holds free
      intro left right middle state middleHolds
      exact .error _ (.refl middle) middleHolds
  | succ rounds ih =>
      refine follows.unifyApplied_agrees ?_ holds free
      intro left right middle state middleHolds
      exact follows.applied_agrees middleHolds ih

theorem unify_agrees (holds : related before state) (left right : Ty) :
    Agrees related before ((Unify.unify left right).run before)
      ((store.unify left right).run state) :=
  follows.applied_agrees holds fun middleHolds free =>
    follows.unifyRounds_agrees _ middleHolds free

theorem satisfy_agrees (holds : related before state) (constraint : Constraint) :
    Agrees related before ((Unify.satisfy constraint).run before)
      ((store.satisfy constraint).run state) := by
  have unfolded : Unify.satisfy constraint = (do
      let expected ← Unify.apply constraint.expected
      let actual ← Unify.apply constraint.actual
      Unify.unify expected actual) := by
    simp [Unify.satisfy, Unify.applyConstraint]
  rw [unfolded]
  exact follows.applied_agrees holds fun middleHolds _ =>
    follows.unify_agrees middleHolds _ _

theorem solve_agrees (holds : related before state) (constraints : List Constraint) :
    Agrees related before ((Unify.solve constraints).run before)
      ((store.solve constraints).run state) := by
  induction constraints generalizing before state with
  | nil => exact .ok (.refl before) holds
  | cons constraint constraints ih =>
      rw [Unify.solve_cons_run, solve_cons_run]
      exact (follows.satisfy_agrees holds constraint).andThen fun _ middleHolds =>
        ih middleHolds

theorem perform (holds : related before state) (operation : Substitution.Operation) :
    related (before.perform operation) (store.perform state operation) := by
  cases operation with
  | apply ty =>
      obtain ⟨replaced, next, after, run, storeRun, nextHolds⟩ :=
        follows.replace? holds ty
      have performed : before.perform (.apply ty) = next := congrArg Prod.snd run
      have storePerformed : store.perform state (.apply ty) = after :=
        congrArg Prod.snd storeRun
      rwa [performed, storePerformed]
  | unify left right => exact (follows.unify_agrees holds left right).holds_leftBy
  | solve constraints => exact (follows.solve_agrees holds constraints).holds_leftBy

theorem foldl_perform (holds : related before state)
    (operations : List Substitution.Operation) :
    related (operations.foldl Substitution.perform before)
      (operations.foldl store.perform state) := by
  induction operations generalizing before state with
  | nil => exact holds
  | cons operation operations ih => exact ih (follows.perform holds operation)

end Follows

end Agreement

end BindingStore

end TypedHoles
