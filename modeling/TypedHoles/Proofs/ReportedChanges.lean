import TypedHoles.Proofs.EndingUnification

/-!
# Changes that an application reports

Applying a substitution says whether it has changed a type.  It has done so exactly if one
of the type variables is bound, and afterwards none of them is: applying the substitution
once more changes nothing.  All that is asked of the substitution is that look-ups never
lead back to where they started, and that what is remembered of a type variable stands for
the same as the type variable.
-/

namespace TypedHoles

theorem OrderedMap.find?_map_values {κ α : Type} [DecidableEq κ] (change : κ → α → α) (key : κ)
    (entries : List (κ × α)) :
    find? key (entries.map fun entry => (entry.1, change entry.1 entry.2)) =
      (find? key entries).map (change key) := by
  induction entries with
  | nil => rfl
  | cons entry entries ih =>
      by_cases same : entry.1 = key
      · simp [find?, same]
      · simpa [find?, same] using ih

namespace Substitution

variable {substitution : Substitution}

/-- Whether a look-up of `name` goes on to `other`. -/
def LooksUp (substitution : Substitution) (name other : TypeVar) : Prop :=
  ∃ ty, substitution.get? name = some ty ∧ other ∈ ty.occurrences

/-- Whether no look-up leads back to where it started. -/
def Acyclic (substitution : Substitution) : Prop :=
  ∀ name, ¬ Relation.TransGen substitution.LooksUp name name

/-- Whether only bound type variables are remembered, with types that stand for the
same. -/
structure CacheAgrees (substitution : Substitution) : Prop where
  bound : ∀ name ty, substitution.cache.get? name = some ty →
    substitution.binds name = true
  resolves : ∀ name ty, substitution.cache.get? name = some ty → ∀ result,
    Bindings.Resolves substitution.table ty result ↔
      Bindings.Resolves substitution.table (.var name) result

theorem Sound.acyclic_lookups (sound : substitution.Sound) : substitution.Acyclic := by
  intro name cycle
  -- Every step of a look-up goes further along the bindings.
  have along {first second : TypeVar} (path : Relation.TransGen substitution.LooksUp first second) :
      Relation.TransGen (Bindings.Mentions substitution.table) first second := by
    induction path with
    | single step =>
        obtain ⟨ty, found, member⟩ := step
        exact sound.agrees.grounded.leads_of_get? found member
    | tail _ step ih =>
        obtain ⟨ty, found, member⟩ := step
        exact ih.trans (sound.agrees.grounded.leads_of_get? found member)
  exact sound.acyclic name (along cycle)

theorem Sound.cacheAgrees (sound : substitution.Sound) : substitution.CacheAgrees :=
  ⟨sound.agrees.bound, sound.agrees.resolves⟩

/-! ## Computations that only look up -/

theorem get?_remember (substitution : Substitution) (key name : TypeVar) (ty : Ty) :
    (substitution.remember key ty).get? name =
      if name = key then some ty else substitution.get? name := by
  rw [get?, remember, OrderedMap.get?_insert]
  split
  · rfl
  · rfl

/-- Whether a computation does the same for all substitutions in which the same is looked
up, and keeps the table. -/
def ByLookups {α : Type} (computation : StateM Substitution α) : Prop :=
  ∀ first second : Substitution, first.get? = second.get? →
    (computation.run first).1 = (computation.run second).1 ∧
    (computation.run first).2.get? = (computation.run second).2.get? ∧
    (computation.run first).2.table = first.table

theorem byLookups_pure {α : Type} (value : α) : ByLookups (pure value) :=
  fun _ _ same => ⟨rfl, same, rfl⟩

theorem ByLookups.bind {α β : Type} {computation : StateM Substitution α}
    {rest : α → StateM Substitution β} (byLookups : ByLookups computation)
    (restByLookups : ∀ value, ByLookups (rest value)) : ByLookups (computation >>= rest) := by
  intro first second same
  obtain ⟨sameValue, sameAfter, table⟩ := byLookups first second same
  obtain ⟨sameResult, sameLast, lastTable⟩ :=
    restByLookups (computation.run first).1 _ _ sameAfter
  refine ⟨?_, ?_, lastTable.trans table⟩
  · rw [StateT.run_bind, StateT.run_bind]
    exact sameResult.trans (by rw [sameValue]; rfl)
  · rw [StateT.run_bind, StateT.run_bind]
    exact sameLast.trans (by rw [sameValue]; rfl)

theorem byLookups_replaceWith {resolver : TypeVar → StateM Substitution (Option Ty)}
    (resolves : ∀ name, ByLookups (resolver name)) (ty : Ty) :
    ByLookups (replaceWith resolver ty) := by
  induction ty with
  | unit => exact byLookups_pure none
  | var name => exact resolves name
  | arrow domain codomain domainIh codomainIh =>
      exact domainIh.bind fun _ => codomainIh.bind fun _ => byLookups_pure _
  | product first second firstIh secondIh =>
      exact firstIh.bind fun _ => secondIh.bind fun _ => byLookups_pure _

theorem resolve_run_of_bound {depth : Nat} {name : TypeVar} {ty : Ty} {state : Substitution}
    (found : state.get? name = some ty) :
    (resolve (depth + 1) name).run state =
      (some (((replaceWith (resolve depth) ty).run state).1.getD ty),
        ((replaceWith (resolve depth) ty).run state).2.remember name
          (((replaceWith (resolve depth) ty).run state).1.getD ty)) := by
  rw [resolve_succ_run, found]
  rfl

theorem resolve_run_of_free {depth : Nat} {name : TypeVar} {state : Substitution}
    (free : state.get? name = none) : (resolve depth name).run state = (none, state) := by
  cases depth with
  | zero => rfl
  | succ depth => rw [resolve_succ_run, free]

theorem byLookups_resolve (depth : Nat) (name : TypeVar) : ByLookups (resolve depth name) := by
  induction depth generalizing name with
  | zero => exact byLookups_pure none
  | succ depth ih =>
      intro first second same
      cases found : first.get? name with
      | none =>
          rw [resolve_run_of_free found, resolve_run_of_free (same ▸ found)]
          exact ⟨rfl, same, rfl⟩
      | some ty =>
          obtain ⟨sameValue, sameAfter, table⟩ := byLookups_replaceWith ih ty first second same
          rw [resolve_run_of_bound found, resolve_run_of_bound (same ▸ found)]
          refine ⟨by rw [sameValue], ?_, table⟩
          funext other
          rw [get?_remember, get?_remember, sameAfter, sameValue]

/-! ## What look-ups find as bindings -/

/-- The substitution that is bound to what look-ups find. -/
def flattened (substitution : Substitution) : Substitution where
  table := ⟨substitution.table.entries.map fun entry =>
      (entry.1, (substitution.cache.get? entry.1).getD entry.2),
    by simpa [Function.comp_def] using substitution.table.nodup⟩
  cache := substitution.cache

theorem get?_table_flattened (substitution : Substitution) (name : TypeVar) :
    substitution.flattened.table.get? name =
      (substitution.table.get? name).map fun ty =>
        (substitution.cache.get? name).getD ty :=
  OrderedMap.find?_map_values (fun name ty => (substitution.cache.get? name).getD ty) name _

theorem binds_flattened (substitution : Substitution) :
    substitution.flattened.binds = substitution.binds := by
  funext name
  rw [binds, get?_table_flattened, Option.isSome_map, ← binds]

theorem get?_flattened (substitution : Substitution) :
    substitution.flattened.get? = substitution.get? := by
  funext name
  rw [get?, get?, get?_table_flattened]
  change (substitution.cache.get? name).or _ = _
  cases substitution.cache.get? name with
  | none => simp
  | some ty => rfl

section Agreement

variable (acyclic : substitution.Acyclic) (agrees : substitution.CacheAgrees)

include agrees

theorem CacheAgrees.get?_table_flattened_eq (name : TypeVar) :
    substitution.flattened.table.get? name = substitution.get? name := by
  rw [get?_table_flattened, get?]
  cases cached : substitution.cache.get? name with
  | none => simp
  | some ty =>
      obtain ⟨bound, found⟩ := Option.isSome_iff_exists.mp (agrees.bound name ty cached)
      rw [found]
      rfl

include acyclic

/-- Bound to what look-ups find, a substitution has no need of its cache. -/
theorem coherent_flattened : substitution.flattened.Coherent := by
  have links {name : TypeVar} {ty : Ty} (linked : substitution.flattened.Links name ty) :
      substitution.get? name = some ty := by
    rcases linked with inTable | cached
    · rw [← agrees.get?_table_flattened_eq, inTable]
    · exact Option.or_eq_some_iff.mpr (.inl cached)
  have ranked : ∃ rank, substitution.flattened.RankedBy rank := by
    apply exists_rankedBy fun other name => Relation.TransGen substitution.LooksUp name other
    · exact fun lower upper => upper.trans lower
    · exact acyclic
    · exact fun linked other member _ => .single ⟨_, links linked, member⟩
  refine ⟨ranked, ?_, ?_⟩
  · intro name ty cached
    rw [binds_flattened]
    exact agrees.bound name ty cached
  · intro name ty cached
    obtain ⟨rank, ranked⟩ := ranked
    refine (ranked.resolution_of_bound ?_).symm
    rw [agrees.get?_table_flattened_eq, links (.inr cached)]

/-- What look-ups lead to is what the bindings lead to. -/
theorem resolves_flattened (ty : Ty) :
    Bindings.Resolves substitution.table ty
      (ty.instantiate substitution.flattened.resolution) := by
  obtain ⟨rank, ranked⟩ := (coherent_flattened acyclic agrees).ranked
  apply Bindings.resolves_instantiate
  rintro name -
  induction name using ranked.induction with
  | free name unbound =>
      rw [resolution_of_free unbound]
      exact .free (binds_eq_false.mp (binds_flattened substitution ▸ binds_eq_false.mpr unbound))
  | bound name target found ih =>
      have resolves := Bindings.resolves_instantiate ih
      rw [ranked.resolution_of_bound found]
      rw [agrees.get?_table_flattened_eq] at found
      rcases Option.or_eq_some_iff.mp found with cached | ⟨-, inTable⟩
      · exact (agrees.resolves name target cached _).mp resolves
      · exact .bound inTable resolves

/-- What applying a substitution answers, and what is looked up afterwards. -/
theorem replace?_run_flattened (ty : Ty) :
    ((replace? ty).run substitution).1 = substitution.flattened.answer ty ∧
    ((replace? ty).run substitution).2.table = substitution.table ∧
    ∀ name, substitution.binds name = false →
      ((replace? ty).run substitution).2.get? name = none := by
  have sameBound : substitution.flattened.chainBound = substitution.chainBound := by
    simp [chainBound, flattened, OrderedMap.size]
  obtain ⟨next, run, table, coherent⟩ := (coherent_flattened acyclic agrees).replace?_run ty
  obtain ⟨sameAnswer, sameAfter, sameTable⟩ :=
    byLookups_replaceWith (byLookups_resolve substitution.chainBound) ty substitution
      substitution.flattened (get?_flattened substitution).symm
  rw [← sameBound] at sameAnswer sameAfter
  change _ = ((replace? ty).run substitution.flattened).1 at sameAnswer
  change _ = ((replace? ty).run substitution.flattened).2.get? at sameAfter
  rw [run] at sameAnswer sameAfter
  rw [sameBound] at sameAnswer sameAfter
  refine ⟨sameAnswer, sameTable, fun name free => ?_⟩
  refine (congrFun sameAfter name).trans (coherent.get?_eq_none_iff.mpr ?_)
  rw [binds_eq_of_table table, binds_flattened, free]

end Agreement

theorem replaceWith_run_of_free {depth : Nat} {ty : Ty}
    (free : ∀ name ∈ ty.occurrences, substitution.get? name = none) :
    (replaceWith (resolve depth) ty).run substitution = (none, substitution) := by
  induction ty with
  | unit => rfl
  | var name => exact resolve_run_of_free (free name (by simp [Ty.occurrences]))
  | arrow domain codomain domainIh codomainIh | product domain codomain domainIh codomainIh =>
      obtain ⟨left, right⟩ := List.forall_mem_append.mp free
      rw [replaceWith, StateT.run_bind, domainIh left]
      change (replaceWith (resolve depth) codomain >>= _).run substitution = _
      rw [StateT.run_bind, codomainIh right]
      rfl

/-! ## Ways of applying -/

theorem applyInPlace_run (ty : Ty) (substitution : Substitution) :
    (applyInPlace.run ty).run substitution =
      (((), ((replace? ty).run substitution).1.getD ty), ((replace? ty).run substitution).2) := by
  simp only [applyInPlace, StateT.run_bind, StateT.run_get, pure_bind, StateT.run_monadLift]
  generalize (replace? ty).run substitution = result
  obtain ⟨answer, next⟩ := result
  cases answer <;> rfl

theorem applyOrKeep_run (ty : Ty) (substitution : Substitution) :
    (applyOrKeep ty).run substitution =
      (⟨((replace? ty).run substitution).1.getD ty, ((replace? ty).run substitution).1.isSome⟩,
        ((replace? ty).run substitution).2) := by
  rw [applyOrKeep, StateT.run_bind]
  generalize (replace? ty).run substitution = result
  obtain ⟨answer, next⟩ := result
  cases answer <;> rfl

theorem answer_eq_none_iff {ty : Ty} :
    substitution.answer ty = none ↔
      ∀ name ∈ ty.occurrences, substitution.binds name = false := by
  simp [answer]

/-- Applying an acyclic substitution whose cache agrees with its bindings reports a change
exactly if a type variable of the type is bound.  The type that it then gives is another
one, it is the one to which the bindings lead, and none of its type variables is bound.
All ways of applying the substitution give this type.  Applying it once more, with what is
remembered then, changes nothing, and the bindings stay as they are. -/
theorem application_reports_change (acyclic : substitution.Acyclic)
    (agrees : substitution.CacheAgrees) (ty : Ty) :
    let answer := ((replace? ty).run substitution).1
    let next := ((replace? ty).run substitution).2
    (answer = none ↔ ∀ name ∈ ty.occurrences, substitution.binds name = false) ∧
    (answer = none → Bindings.Resolves substitution.table ty ty) ∧
    (∀ new, answer = some new → new ≠ ty ∧ Bindings.Resolves substitution.table ty new ∧
      ∀ name ∈ new.occurrences, substitution.binds name = false) ∧
    (apply ty).run substitution = (answer.getD ty, next) ∧
    (applyInPlace.run ty).run substitution = (((), answer.getD ty), next) ∧
    (applyOrKeep ty).run substitution = (⟨answer.getD ty, answer.isSome⟩, next) ∧
    (replace? (answer.getD ty)).run next = (none, next) ∧
    next.table = substitution.table := by
  intro answer next
  obtain ⟨isAnswer, table, unknown⟩ := replace?_run_flattened acyclic agrees ty
  have isResolved : answer.getD ty = ty.instantiate substitution.flattened.resolution := by
    rw [← answer_getD, ← isAnswer]
  have resolves := resolves_flattened acyclic agrees ty
  have free : ∀ name ∈ (answer.getD ty).occurrences, substitution.binds name = false := by
    intro name member
    rw [isResolved] at member
    rw [← binds_flattened]
    exact (coherent_flattened acyclic agrees).free_of_mem_instantiate member
  have unchanged_iff :
      answer = none ↔ ∀ name ∈ ty.occurrences, substitution.binds name = false := by
    rw [← binds_flattened, ← answer_eq_none_iff, ← isAnswer]
  rw [← isResolved] at resolves
  refine ⟨unchanged_iff, fun unchanged => ?_, fun new changed => ?_, rfl,
    applyInPlace_run ty substitution, applyOrKeep_run ty substitution,
    replaceWith_run_of_free fun name member => unknown name (free name member), table⟩
  · rwa [unchanged] at resolves
  · rw [changed] at free resolves
    refine ⟨?_, resolves, free⟩
    rintro rfl
    rw [unchanged_iff.mpr free] at changed
    simp at changed

theorem application_reports_change_leftOutdated :
    let ty : Ty := .product (.var ⟨0⟩) (.var ⟨3⟩)
    let new : Ty := .product (.arrow .unit (.var ⟨2⟩)) (.var ⟨3⟩)
    let next := ((replace? ty).run leftOutdated).2
    leftOutdated.Acyclic ∧ leftOutdated.CacheAgrees ∧
    ((replace? ty).run leftOutdated).1 = some new ∧
    Bindings.Resolves leftOutdated.table ty new ∧
    (replace? new).run next = (none, next) ∧ next.table = leftOutdated.table ∧
    ((replace? (.product (.var ⟨2⟩) (.var ⟨3⟩))).run leftOutdated).1 = none := by
  intro ty new next
  have reachable : leftOutdated.Reachable :=
    ((Reachable.empty.perform _).perform _).perform _
  have acyclic := reachable.sound.acyclic_lookups
  have agrees := reachable.sound.cacheAgrees
  obtain ⟨-, -, changes, -, -, -, again, table⟩ :=
    application_reports_change acyclic agrees ty
  obtain ⟨unchanged, -⟩ :=
    application_reports_change acyclic agrees (.product (.var ⟨2⟩) (.var ⟨3⟩))
  obtain ⟨-, resolves, -⟩ := changes new rfl
  exact ⟨acyclic, agrees, rfl, resolves, again, table, unchanged.mpr (by decide)⟩

end Substitution

end TypedHoles
