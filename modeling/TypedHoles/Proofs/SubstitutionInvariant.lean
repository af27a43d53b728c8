import TypedHoles.Proofs.BindingStores

/-!
# What every substitution keeps to

The bindings of a substitution never lead back to where they started, and what it
remembers of a type variable stands for the same as the type variable itself.
Unification only adds bindings for type variables about which nothing is known, so
a binding stays as it was made.  This holds also of the substitutions that failed
unifications leave behind.
-/

namespace TypedHoles

/-- What the table of a substitution holds. -/
abbrev Bindings := OrderedMap TypeVar Ty

namespace Bindings

/-- Whether the type to which `name` is bound mentions `other`. -/
def Mentions (bindings : Bindings) (name other : TypeVar) : Prop :=
  ∃ ty, bindings.get? name = some ty ∧ other ∈ ty.occurrences

/-- Whether no type variable leads back to itself. -/
def Acyclic (bindings : Bindings) : Prop :=
  ∀ name, ¬ Relation.TransGen bindings.Mentions name name

/-- What becomes of a type when bindings are followed to the end. -/
inductive Resolves (bindings : Bindings) : Ty → Ty → Prop
  | unit : Resolves bindings .unit .unit
  | free {name : TypeVar} (unbound : bindings.get? name = none) :
      Resolves bindings (.var name) (.var name)
  | bound {name : TypeVar} {ty result : Ty} (found : bindings.get? name = some ty)
      (rest : Resolves bindings ty result) : Resolves bindings (.var name) result
  | arrow {domain codomain newDomain newCodomain : Ty}
      (left : Resolves bindings domain newDomain)
      (right : Resolves bindings codomain newCodomain) :
      Resolves bindings (.arrow domain codomain) (.arrow newDomain newCodomain)
  | product {first second newFirst newSecond : Ty}
      (left : Resolves bindings first newFirst)
      (right : Resolves bindings second newSecond) :
      Resolves bindings (.product first second) (.product newFirst newSecond)

theorem Resolves.unique {bindings : Bindings} {ty first second : Ty}
    (left : Resolves bindings ty first) (right : Resolves bindings ty second) :
    first = second := by
  induction left generalizing second with
  | unit =>
      cases right
      rfl
  | free unbound =>
      cases right with
      | free => rfl
      | bound found => simp [unbound] at found
  | bound found rest ih =>
      cases right with
      | free unbound => simp [unbound] at found
      | bound otherFound otherRest =>
          obtain rfl := Option.some.inj (found.symm.trans otherFound)
          exact ih otherRest
  | arrow _ _ domainIh codomainIh =>
      cases right with
      | arrow domain codomain => rw [domainIh domain, codomainIh codomain]
  | product _ _ firstIh secondIh =>
      cases right with
      | product first second => rw [firstIh first, secondIh second]

theorem resolves_instantiate {bindings : Bindings} {assignment : Assignment} {ty : Ty}
    (resolves : ∀ name ∈ ty.occurrences,
      Resolves bindings (.var name) (assignment name)) :
    Resolves bindings ty (ty.instantiate assignment) := by
  induction ty with
  | unit => exact .unit
  | var name => exact resolves name (by simp [Ty.occurrences])
  | arrow domain codomain domainIh codomainIh =>
      exact .arrow
        (domainIh fun name member => resolves name (by simp [Ty.occurrences, member]))
        (codomainIh fun name member => resolves name (by simp [Ty.occurrences, member]))
  | product first second firstIh secondIh =>
      exact .product
        (firstIh fun name member => resolves name (by simp [Ty.occurrences, member]))
        (secondIh fun name member => resolves name (by simp [Ty.occurrences, member]))

end Bindings

namespace Substitution

section Coherent

variable {substitution : Substitution}

theorem Coherent.acyclic (coherent : substitution.Coherent) :
    Bindings.Acyclic substitution.table := by
  obtain ⟨rank, ranked⟩ := coherent.ranked
  have descends {name other : TypeVar}
      (path : Relation.TransGen (Bindings.Mentions substitution.table) name other)
      (bound : substitution.binds other = true) : rank other < rank name := by
    induction path with
    | single mentions =>
        obtain ⟨ty, found, member⟩ := mentions
        exact ranked.descends (.inl found) _ member bound
    | tail _ mentions ih =>
        obtain ⟨ty, found, member⟩ := mentions
        have lower := ranked.descends (.inl found) _ member bound
        exact lower.trans (ih (binds_of_get? found))
  intro name cycle
  obtain ⟨_, ⟨ty, found, -⟩, -⟩ := Relation.TransGen.head'_iff.mp cycle
  exact Nat.lt_irrefl _ (descends cycle (binds_of_get? found))

theorem Coherent.resolves (coherent : substitution.Coherent) (ty : Ty) :
    Bindings.Resolves substitution.table ty
      (ty.instantiate substitution.resolution) := by
  obtain ⟨rank, ranked⟩ := coherent.ranked
  apply Bindings.resolves_instantiate
  rintro name -
  induction name using ranked.induction with
  | free name unbound =>
      rw [resolution_of_free unbound]
      exact .free unbound
  | bound name ty found ih =>
      rw [ranked.resolution_of_bound found]
      exact .bound found (Bindings.resolves_instantiate ih)

/-- What is remembered of a type variable can be followed to the same end as the
type variable. -/
theorem Coherent.resolves_remembered (coherent : substitution.Coherent)
    {name : TypeVar} {ty : Ty} (cached : substitution.cache.get? name = some ty)
    (result : Ty) :
    Bindings.Resolves substitution.table ty result ↔
      Bindings.Resolves substitution.table (.var name) result := by
  have fromType := coherent.resolves ty
  have fromVar := coherent.resolves (.var name)
  rw [coherent.remembered cached] at fromType
  constructor
  · intro resolves
    rw [resolves.unique fromType]
    exact fromVar
  · intro resolves
    rw [resolves.unique fromVar]
    exact fromType

theorem Coherent.replace?_run (coherent : substitution.Coherent) (ty : Ty) :
    ∃ next, (replace? ty).run substitution = (substitution.answer ty, next) ∧
      next.table = substitution.table ∧ next.Coherent := by
  obtain ⟨rank, ranked⟩ := coherent.ranked
  have yields : Yields substitution rank
      (replaceWith (resolve substitution.chainBound) ty) (substitution.answer ty) := by
    apply replaceWith_yields
    intro name _
    apply resolve_yields
    intro bound
    exact Nat.lt_of_lt_of_le (ranked.lt_size bound) (Nat.le_add_right _ _)
  obtain ⟨next, run, same, -, nextCoherent⟩ := yields substitution rfl ranked coherent
  exact ⟨next, run, same, nextCoherent⟩

end Coherent

/-! ## Recording what is inserted -/

/-- A binding that is made, and the substitution to which it is added. -/
structure Insertion where
  before : Substitution
  name : TypeVar
  ty : Ty

/-- A substitution and the bindings that have been added to it, the oldest first. -/
structure Recorded where
  current : Substitution
  insertions : List Insertion

/-- Substitutions that record what is inserted into them. -/
def recorder : BindingStore Recorded where
  replace? ty recorded :=
    let (replaced, next) := (replace? ty).run recorded.current
    (replaced, { recorded with current := next })
  bind name ty recorded :=
    ⟨recorded.current.insert name ty,
      recorded.insertions ++ [⟨recorded.current, name, ty⟩]⟩
  size recorded := recorded.current.size

/-- Whether `recorded` has recorded how `substitution` came from `base`. -/
structure Records (base substitution : Substitution) (recorded : Recorded) : Prop where
  coherent : substitution.Coherent
  current_eq : recorded.current = substitution
  entries_eq : substitution.table.entries = base.table.entries ++
    recorded.insertions.map fun insertion => (insertion.name, insertion.ty)
  unknown : ∀ insertion ∈ recorded.insertions,
    insertion.before.get? insertion.name = none

theorem recorder_follows (base : Substitution) : recorder.Follows (Records base) where
  coherent records := records.coherent
  size_eq records := congrArg size records.current_eq
  replace? := by
    rintro substitution ⟨current, insertions⟩ ⟨coherent, rfl, entries, unknown⟩ ty
    obtain ⟨next, run, same, nextCoherent⟩ := coherent.replace?_run ty
    refine ⟨_, next, ⟨next, insertions⟩, run, ?_, nextCoherent, rfl, ?_, unknown⟩
    · change (((replace? ty).run current).1, Recorded.mk ((replace? ty).run current).2 _) = _
      rw [run]
    · rw [same, entries]
  bind := by
    rintro substitution ⟨current, insertions⟩ ⟨coherent, rfl, entries, unknown⟩ name ty
      free resolved absent
    refine ⟨coherent.insert free resolved absent, rfl, ?_, ?_⟩
    · change OrderedMap.put name ty current.table.entries = _
      rw [OrderedMap.put_of_absent ty (binds_eq_false.mp free), entries]
      simp [recorder]
    · intro insertion member
      rcases List.mem_append.mp member with earlier | last
      · exact unknown insertion earlier
      · obtain rfl := List.mem_singleton.mp last
        exact coherent.get?_eq_none_iff.mpr free

/-- A substitution that unification reaches has no cycle, and what it remembers
agrees with its bindings.  Whatever is done with it, failures included, each binding
that is added is for a type variable that has neither been bound nor remembered, and
the bindings that were there stay as they are. -/
theorem reachable_representation {substitution : Substitution}
    (reachable : substitution.Reachable) :
    Bindings.Acyclic substitution.table ∧
    (∀ name ty, substitution.cache.get? name = some ty →
      substitution.binds name = true ∧
      (∃ result, Bindings.Resolves substitution.table (.var name) result) ∧
      ∀ result, Bindings.Resolves substitution.table ty result ↔
        Bindings.Resolves substitution.table (.var name) result) ∧
    ∀ operations : List Operation, ∃ insertions,
      operations.foldl recorder.perform ⟨substitution, []⟩ =
        ⟨operations.foldl perform substitution, insertions⟩ ∧
      (∀ insertion ∈ insertions,
        insertion.before.table.get? insertion.name = none ∧
          insertion.before.cache.get? insertion.name = none) ∧
      (operations.foldl perform substitution).table.entries =
        substitution.table.entries ++
          insertions.map fun insertion => (insertion.name, insertion.ty) := by
  have coherent := reachable.coherent
  refine ⟨coherent.acyclic, ?_, ?_⟩
  · intro name ty cached
    exact ⟨coherent.binds_of_remembered cached, ⟨_, coherent.resolves (.var name)⟩,
      coherent.resolves_remembered cached⟩
  · intro operations
    have start : Records substitution substitution ⟨substitution, []⟩ :=
      ⟨coherent, rfl, by simp, by simp⟩
    obtain ⟨-, current, entries, unknown⟩ :=
      (recorder_follows substitution).foldl_perform start operations
    refine ⟨_, by rw [← current], ?_, entries⟩
    intro insertion member
    obtain ⟨notRemembered, notBound⟩ :=
      Option.or_eq_none_iff.mp (unknown insertion member)
    exact ⟨notBound, notRemembered⟩

/-- What a failed unification leaves behind that has bound a type variable which
occurs in something remembered. -/
def leftOutdated : Substitution :=
  ((Substitution.empty.perform
    (.unify (.var ⟨0⟩) (.arrow (.var ⟨1⟩) (.var ⟨2⟩)))).perform
    (.apply (.var ⟨0⟩))).perform
    (.unify (.product (.var ⟨1⟩) .unit) (.product .unit (.arrow .unit .unit)))

theorem reachable_representation_leftOutdated :
    leftOutdated.Reachable ∧ Bindings.Acyclic leftOutdated.table ∧
    leftOutdated.cache.get? ⟨0⟩ = some (.arrow (.var ⟨1⟩) (.var ⟨2⟩)) ∧
    Bindings.Resolves leftOutdated.table (.var ⟨0⟩) (.arrow .unit (.var ⟨2⟩)) ∧
    ∃ insertions,
      [.unify (.var ⟨2⟩) (.var ⟨0⟩), .solve [⟨.var ⟨2⟩, .unit⟩]].foldl
        recorder.perform ⟨leftOutdated, []⟩ =
          ⟨[.unify (.var ⟨2⟩) (.var ⟨0⟩), .solve [⟨.var ⟨2⟩, .unit⟩]].foldl
            perform leftOutdated, insertions⟩ ∧
      (insertions.map fun insertion => (insertion.name, insertion.ty)) =
        [(⟨2⟩, .unit)] := by
  have reachable : leftOutdated.Reachable :=
    ((Reachable.empty.perform _).perform _).perform _
  obtain ⟨acyclic, remembered, recorded⟩ := reachable_representation reachable
  refine ⟨reachable, acyclic, rfl, ?_, ?_⟩
  · exact ((remembered ⟨0⟩ _ rfl).2.2 _).mp (.arrow (.bound rfl .unit) (.free rfl))
  · obtain ⟨insertions, ran, -, entries⟩ :=
      recorded [.unify (.var ⟨2⟩) (.var ⟨0⟩), .solve [⟨.var ⟨2⟩, .unit⟩]]
    have ended : ([.unify (.var ⟨2⟩) (.var ⟨0⟩), .solve [⟨.var ⟨2⟩, .unit⟩]].foldl
        perform leftOutdated).table.entries =
          leftOutdated.table.entries ++ [(⟨2⟩, .unit)] := by decide
    exact ⟨insertions, ran, List.append_cancel_left (entries.symm.trans ended)⟩

end Substitution

end TypedHoles
