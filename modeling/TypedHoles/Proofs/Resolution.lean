import TypedHoles.Proofs.Instantiation
import TypedHoles.Substitution

/-!
# What type variables stand for

The resolution of a substitution is the assignment that follows the bindings of
its table to the end.  A substitution is coherent if its chains go down some
rank and if everything that it remembers agrees with its table.  Applying a
coherent substitution to a type then instantiates the type by the resolution,
and changes at most what is remembered.
-/

namespace TypedHoles

namespace OrderedMap

variable {κ α : Type} [DecidableEq κ]

theorem put_of_absent {key : κ} {entries : List (κ × α)} (value : α)
    (absent : find? key entries = none) :
    put key value entries = entries ++ [(key, value)] := by
  induction entries with
  | nil => rfl
  | cons entry rest ih =>
      by_cases same : entry.1 = key
      · simp [find?, same] at absent
      · have absentInRest : find? key rest = none := by
          simpa [find?, same] using absent
        rw [put, if_neg same, ih absentInRest, List.cons_append]

theorem size_insert_of_absent {map : OrderedMap κ α} {key : κ} (value : α)
    (absent : map.get? key = none) :
    (map.insert key value).size = map.size + 1 := by
  simp only [size, insert, put_of_absent value absent, List.length_append,
    List.length_singleton]

end OrderedMap

namespace Substitution

/-- Whether the table binds a type variable. -/
def binds (substitution : Substitution) (name : TypeVar) : Bool :=
  (substitution.table.get? name).isSome

theorem binds_eq_false {substitution : Substitution} {name : TypeVar} :
    substitution.binds name = false ↔ substitution.table.get? name = none := by
  simp [binds]

theorem binds_of_get? {substitution : Substitution} {name : TypeVar} {ty : Ty}
    (bound : substitution.table.get? name = some ty) :
    substitution.binds name = true := by
  simp [binds, bound]

theorem binds_eq_of_table {first second : Substitution}
    (same : first.table = second.table) : first.binds = second.binds := by
  funext name
  rw [binds, binds, same]

/-- What type variables stand for if chains of at most `depth` bindings of the
table are followed. -/
def resolutionWithin (substitution : Substitution) : (depth : Nat) → Assignment
  | 0 => .var
  | depth + 1 => fun name =>
      match substitution.table.get? name with
      | none => .var name
      | some ty => ty.instantiate (substitution.resolutionWithin depth)

/-- What type variables stand for.  No chain of bindings is longer than the
table. -/
def resolution (substitution : Substitution) : Assignment :=
  substitution.resolutionWithin substitution.table.size

theorem resolution_eq_of_table {first second : Substitution}
    (same : first.table = second.table) :
    first.resolution = second.resolution := by
  have within (depth : Nat) :
      first.resolutionWithin depth = second.resolutionWithin depth := by
    induction depth with
    | zero => rfl
    | succ depth ih =>
        funext name
        rw [resolutionWithin, resolutionWithin, same, ih]
  rw [resolution, resolution, within, same]

theorem resolutionWithin_of_free {substitution : Substitution} {name : TypeVar}
    (free : substitution.table.get? name = none) (depth : Nat) :
    substitution.resolutionWithin depth name = .var name := by
  cases depth with
  | zero => rfl
  | succ depth => simp only [resolutionWithin, free]

theorem resolution_of_free {substitution : Substitution} {name : TypeVar}
    (free : substitution.table.get? name = none) :
    substitution.resolution name = .var name :=
  resolutionWithin_of_free free _

/-- Whether a look-up may go on from `name` to the type `ty`. -/
def Links (substitution : Substitution) (name : TypeVar) (ty : Ty) : Prop :=
  substitution.table.get? name = some ty ∨ substitution.cache.get? name = some ty

/-- Look-ups go down in rank, and there are no more ranks than bindings. -/
structure RankedBy (substitution : Substitution) (rank : TypeVar → Nat) :
    Prop where
  descends : ∀ {name ty}, substitution.Links name ty →
    ∀ other ∈ ty.occurrences, substitution.binds other = true →
      rank other < rank name
  lt_size : ∀ {name}, substitution.binds name = true →
    rank name < substitution.table.size

section Ranked

variable {substitution : Substitution} {rank : TypeVar → Nat}

/-- Induction along the bindings of the table. -/
theorem RankedBy.induction (ranked : substitution.RankedBy rank)
    {motive : TypeVar → Prop}
    (free : ∀ name, substitution.table.get? name = none → motive name)
    (bound : ∀ name ty, substitution.table.get? name = some ty →
      (∀ other ∈ ty.occurrences, motive other) → motive name)
    (name : TypeVar) : motive name := by
  induction height : rank name using Nat.strongRecOn generalizing name with
  | _ _ ih =>
      cases found : substitution.table.get? name with
      | none => exact free name found
      | some ty =>
          apply bound name ty found
          intro other member
          cases foundOther : substitution.table.get? other with
          | none => exact free other foundOther
          | some _ =>
              have lower : rank other < rank name :=
                ranked.descends (.inl found) other member (binds_of_get? foundOther)
              exact ih (rank other) (height ▸ lower) other rfl

/-- Every depth beyond the rank of a type variable is enough to resolve it. -/
theorem RankedBy.resolutionWithin_eq (ranked : substitution.RankedBy rank)
    {depth otherDepth : Nat} {name : TypeVar}
    (enough : substitution.binds name = true → rank name < depth)
    (otherEnough : substitution.binds name = true → rank name < otherDepth) :
    substitution.resolutionWithin depth name =
      substitution.resolutionWithin otherDepth name := by
  induction depth generalizing otherDepth name with
  | zero =>
      have free : substitution.table.get? name = none := by
        rw [← binds_eq_false, ← Bool.not_eq_true]
        exact fun bound => Nat.not_lt_zero _ (enough bound)
      rw [resolutionWithin_of_free free, resolutionWithin_of_free free]
  | succ depth ih =>
      cases found : substitution.table.get? name with
      | none => rw [resolutionWithin_of_free found, resolutionWithin_of_free found]
      | some ty =>
          have bound := binds_of_get? found
          have below := enough bound
          have otherBelow := otherEnough bound
          obtain ⟨otherDepth, rfl⟩ : ∃ smaller, otherDepth = smaller + 1 :=
            ⟨otherDepth - 1, by omega⟩
          simp only [resolutionWithin, found]
          apply Ty.instantiate_congr
          intro other member
          have lower := ranked.descends (.inl found) other member
          exact ih (fun bound => by have := lower bound; omega)
            (fun bound => by have := lower bound; omega)

theorem RankedBy.resolution_of_bound (ranked : substitution.RankedBy rank)
    {name : TypeVar} {ty : Ty}
    (found : substitution.table.get? name = some ty) :
    substitution.resolution name = ty.instantiate substitution.resolution := by
  have below := ranked.lt_size (binds_of_get? found)
  obtain ⟨depth, size⟩ : ∃ depth, substitution.table.size = depth + 1 :=
    ⟨substitution.table.size - 1, by omega⟩
  have unfolded : substitution.resolution name =
      ty.instantiate (substitution.resolutionWithin depth) := by
    simp only [resolution, size, resolutionWithin, found]
  rw [unfolded]
  apply Ty.instantiate_congr
  intro other member
  have lower := ranked.descends (.inl found) other member
  exact ranked.resolutionWithin_eq (fun bound => by have := lower bound; omega)
    ranked.lt_size

/-- The resolution is the only assignment that keeps free type variables and
follows the bindings of the others. -/
theorem RankedBy.resolution_unique (ranked : substitution.RankedBy rank)
    {assignment : Assignment}
    (free : ∀ name, substitution.table.get? name = none →
      assignment name = .var name)
    (bound : ∀ name ty, substitution.table.get? name = some ty →
      assignment name = ty.instantiate assignment) :
    assignment = substitution.resolution := by
  funext name
  induction name using ranked.induction with
  | free name found => rw [free name found, resolution_of_free found]
  | bound name ty found ih =>
      rw [bound name ty found, ranked.resolution_of_bound found]
      exact Ty.instantiate_congr ih

/-- Resolving leaves only free type variables. -/
theorem RankedBy.free_of_mem_resolution (ranked : substitution.RankedBy rank)
    {name other : TypeVar}
    (member : other ∈ (substitution.resolution name).occurrences) :
    substitution.table.get? other = none := by
  induction name using ranked.induction with
  | free name found =>
      rw [resolution_of_free found] at member
      obtain rfl : other = name := by simpa [Ty.occurrences] using member
      exact found
  | bound name ty found ih =>
      rw [ranked.resolution_of_bound found, Ty.mem_occurrences_instantiate] at member
      obtain ⟨origin, originMember, member⟩ := member
      exact ih origin originMember member

end Ranked

/-- Look-ups end, and what is remembered of a type variable is bound to agree
with the table. -/
structure Coherent (substitution : Substitution) : Prop where
  ranked : ∃ rank, substitution.RankedBy rank
  binds_of_remembered : ∀ {name ty},
    substitution.cache.get? name = some ty → substitution.binds name = true
  remembered : ∀ {name ty}, substitution.cache.get? name = some ty →
    ty.instantiate substitution.resolution = substitution.resolution name

theorem coherent_empty : empty.Coherent where
  ranked := ⟨fun _ => 0, by simp [Links, empty], by simp [binds, empty]⟩
  binds_of_remembered := by simp [empty]
  remembered := by simp [empty]

section Coherent

variable {substitution : Substitution}

theorem Coherent.resolution_of_bound (coherent : substitution.Coherent)
    {name : TypeVar} {ty : Ty}
    (found : substitution.table.get? name = some ty) :
    substitution.resolution name = ty.instantiate substitution.resolution := by
  obtain ⟨rank, ranked⟩ := coherent.ranked
  exact ranked.resolution_of_bound found

theorem Coherent.free_of_mem_instantiate (coherent : substitution.Coherent)
    {ty : Ty} {name : TypeVar}
    (member : name ∈ (ty.instantiate substitution.resolution).occurrences) :
    substitution.binds name = false := by
  obtain ⟨rank, ranked⟩ := coherent.ranked
  obtain ⟨origin, -, member⟩ := Ty.mem_occurrences_instantiate.mp member
  exact binds_eq_false.mpr (ranked.free_of_mem_resolution member)

/-- Types without bound type variables are resolved already. -/
theorem instantiate_resolution_of_free {ty : Ty}
    (free : ∀ name ∈ ty.occurrences, substitution.binds name = false) :
    ty.instantiate substitution.resolution = ty :=
  Ty.instantiate_eq_self fun name member =>
    resolution_of_free (binds_eq_false.mp (free name member))

theorem Coherent.instantiate_resolution_idem (coherent : substitution.Coherent)
    (ty : Ty) :
    (ty.instantiate substitution.resolution).instantiate substitution.resolution =
      ty.instantiate substitution.resolution :=
  instantiate_resolution_of_free fun _ member =>
    coherent.free_of_mem_instantiate member

/-- Whether an assignment makes the two sides of every binding equal. -/
def SatisfiedBy (substitution : Substitution) (assignment : Assignment) : Prop :=
  ∀ name ty, substitution.table.get? name = some ty →
    assignment name = ty.instantiate assignment

theorem satisfiedBy_empty (assignment : Assignment) :
    empty.SatisfiedBy assignment := by
  intro name ty found
  simp [empty] at found

theorem satisfiedBy_of_table {first second : Substitution}
    (same : first.table = second.table) (assignment : Assignment) :
    first.SatisfiedBy assignment ↔ second.SatisfiedBy assignment := by
  rw [SatisfiedBy, SatisfiedBy, same]

theorem Coherent.satisfiedBy_resolution (coherent : substitution.Coherent) :
    substitution.SatisfiedBy substitution.resolution :=
  fun _ _ found => coherent.resolution_of_bound found

/-- Resolving first changes no instance by an assignment that satisfies the
bindings, so the resolution is the most general such assignment. -/
theorem Coherent.instantiate_resolution (coherent : substitution.Coherent)
    {assignment : Assignment} (satisfied : substitution.SatisfiedBy assignment)
    (ty : Ty) :
    (ty.instantiate substitution.resolution).instantiate assignment =
      ty.instantiate assignment := by
  obtain ⟨rank, ranked⟩ := coherent.ranked
  rw [Ty.instantiate_instantiate]
  apply Ty.instantiate_congr
  rintro name -
  induction name using ranked.induction with
  | free name found => rw [resolution_of_free found, Ty.instantiate_var]
  | bound name ty found ih =>
      rw [ranked.resolution_of_bound found, satisfied name ty found,
        Ty.instantiate_instantiate]
      exact Ty.instantiate_congr ih

/-! ## Applying a substitution -/

theorem Coherent.remember (coherent : substitution.Coherent) {rank : TypeVar → Nat}
    (ranked : substitution.RankedBy rank) {name : TypeVar}
    (bound : substitution.binds name = true) :
    (substitution.remember name (substitution.resolution name)).Coherent ∧
      (substitution.remember name (substitution.resolution name)).RankedBy rank := by
  -- The new entry mentions no bound type variable, so look-ups end there.
  have stillRanked :
      (substitution.remember name (substitution.resolution name)).RankedBy rank := by
    refine ⟨?_, ranked.lt_size⟩
    rintro key ty (found | found) other member otherBound
    · exact ranked.descends (.inl found) other member otherBound
    · rw [Substitution.remember, OrderedMap.get?_insert] at found
      split at found
      · obtain rfl : substitution.resolution name = ty := by simpa using found
        have free := ranked.free_of_mem_resolution member
        simp [binds, Substitution.remember, free] at otherBound
      · exact ranked.descends (.inr found) other member otherBound
  have sameResolution :
      (substitution.remember name (substitution.resolution name)).resolution =
        substitution.resolution :=
    resolution_eq_of_table rfl
  refine ⟨⟨⟨rank, stillRanked⟩, ?_, ?_⟩, stillRanked⟩
  · intro key ty found
    rw [Substitution.remember, OrderedMap.get?_insert] at found
    split at found
    · next same => exact same ▸ bound
    · exact coherent.binds_of_remembered found
  · intro key ty found
    rw [sameResolution]
    rw [Substitution.remember, OrderedMap.get?_insert] at found
    split at found
    · next same =>
        obtain rfl : substitution.resolution name = ty := by simpa using found
        rw [same]
        exact coherent.instantiate_resolution_idem (.var name)
    · exact coherent.remembered found

/-- Whether `computation` gives `value` in every coherent state with the table of
`base`, and changes at most what is remembered. -/
def Yields {α : Type} (base : Substitution) (rank : TypeVar → Nat)
    (computation : StateM Substitution α) (value : α) : Prop :=
  ∀ state : Substitution, state.table = base.table → state.RankedBy rank →
    state.Coherent → ∃ next, computation.run state = (value, next) ∧
      next.table = base.table ∧ next.RankedBy rank ∧ next.Coherent

section Yields

variable {α β : Type} {base : Substitution} {rank : TypeVar → Nat}

theorem yields_pure (value : α) : Yields base rank (pure value) value :=
  fun state same ranked coherent => ⟨state, rfl, same, ranked, coherent⟩

theorem Yields.bind {first : StateM Substitution α} {value : α}
    {rest : α → StateM Substitution β} {result : β}
    (firstYields : Yields base rank first value)
    (restYields : Yields base rank (rest value) result) :
    Yields base rank (first >>= rest) result := by
  intro state same ranked coherent
  obtain ⟨middle, firstRun, same, ranked, coherent⟩ :=
    firstYields state same ranked coherent
  obtain ⟨last, restRun, post⟩ := restYields middle same ranked coherent
  refine ⟨last, ?_, post⟩
  rw [StateT.run_bind, firstRun]
  exact restRun

/-- What applying a substitution to a type answers: nothing if no type variable
of the type is bound. -/
def answer (substitution : Substitution) (ty : Ty) : Option Ty :=
  if ty.occurrences.any substitution.binds then
    some (ty.instantiate substitution.resolution)
  else
    none

theorem answer_getD (substitution : Substitution) (ty : Ty) :
    (substitution.answer ty).getD ty =
      ty.instantiate substitution.resolution := by
  by_cases touched : ty.occurrences.any substitution.binds = true
  · simp [answer, touched]
  · have free : ∀ name ∈ ty.occurrences, substitution.binds name = false := by
      simpa using touched
    rw [answer, if_neg touched, Option.getD_none,
      instantiate_resolution_of_free free]

theorem answer_var (substitution : Substitution) (name : TypeVar) :
    substitution.answer (.var name) =
      if substitution.binds name then some (substitution.resolution name) else none := by
  simp [answer, Ty.occurrences]

/-- The answers for the parts of a composite type make up the answer for the
whole. -/
theorem rebuild_answer (substitution : Substitution) (make : Ty → Ty → Ty)
    (occurrences : ∀ first second,
      (make first second).occurrences = first.occurrences ++ second.occurrences)
    (instantiate : ∀ first second, (make first second).instantiate
        substitution.resolution =
      make (first.instantiate substitution.resolution)
        (second.instantiate substitution.resolution))
    (first second : Ty) :
    Ty.rebuild make first second (substitution.answer first)
        (substitution.answer second) =
      substitution.answer (make first second) := by
  have parts : (make first second).instantiate substitution.resolution =
      make ((substitution.answer first).getD first)
        ((substitution.answer second).getD second) := by
    rw [instantiate, answer_getD, answer_getD]
  have whole : substitution.answer (make first second) =
      if first.occurrences.any substitution.binds ||
          second.occurrences.any substitution.binds then
        some (make ((substitution.answer first).getD first)
          ((substitution.answer second).getD second))
      else
        none := by
    rw [answer, occurrences, List.any_append, parts]
  rw [whole]
  unfold answer
  by_cases touchedFirst : first.occurrences.any substitution.binds = true
  · simp [touchedFirst, Ty.rebuild]
  · by_cases touchedSecond : second.occurrences.any substitution.binds = true
    · simp [touchedFirst, touchedSecond, Ty.rebuild]
    · simp [touchedFirst, touchedSecond, Ty.rebuild]

theorem replaceWith_yields {resolver : TypeVar → StateM Substitution (Option Ty)}
    {ty : Ty}
    (resolves : ∀ name ∈ ty.occurrences,
      Yields base rank (resolver name) (base.answer (.var name))) :
    Yields base rank (replaceWith resolver ty) (base.answer ty) := by
  induction ty with
  | unit => exact yields_pure none
  | var name => exact resolves name (by simp [Ty.occurrences])
  | arrow domain codomain domainIh codomainIh =>
      rw [← rebuild_answer base .arrow (fun _ _ => rfl) (fun _ _ => rfl)]
      exact (domainIh fun name member =>
          resolves name (by simp [Ty.occurrences, member])).bind
        ((codomainIh fun name member =>
          resolves name (by simp [Ty.occurrences, member])).bind (yields_pure _))
  | product first second firstIh secondIh =>
      rw [← rebuild_answer base .product (fun _ _ => rfl) (fun _ _ => rfl)]
      exact (firstIh fun name member =>
          resolves name (by simp [Ty.occurrences, member])).bind
        ((secondIh fun name member =>
          resolves name (by simp [Ty.occurrences, member])).bind (yields_pure _))

theorem resolve_succ_run (depth : Nat) (name : TypeVar) (state : Substitution) :
    (resolve (depth + 1) name).run state =
      match state.get? name with
      | none => (none, state)
      | some ty =>
          let (replaced, next) := (replaceWith (resolve depth) ty).run state
          (some (replaced.getD ty), next.remember name (replaced.getD ty)) := by
  cases found : state.get? name with
  | none =>
      simp only [resolve, StateT.run_bind, StateT.run_get, pure_bind, found]
      rfl
  | some ty =>
      simp only [resolve, StateT.run_bind, StateT.run_get, pure_bind, found]
      rfl

theorem resolve_yields (depth : Nat) {name : TypeVar}
    (enough : base.binds name = true → rank name < depth) :
    Yields base rank (resolve depth name) (base.answer (.var name)) := by
  induction depth generalizing name with
  | zero =>
      have free : base.binds name = false := by
        rw [← Bool.not_eq_true]
        exact fun bound => Nat.not_lt_zero _ (enough bound)
      have nothing : base.answer (.var name) = none := by
        simp [answer_var, free]
      rw [nothing]
      exact yields_pure none
  | succ depth ih =>
      intro state same ranked coherent
      have sameBinds := binds_eq_of_table same
      have sameResolution := resolution_eq_of_table same
      rw [resolve_succ_run]
      cases found : state.get? name with
      | none =>
          have free : base.binds name = false := by
            rw [← sameBinds, binds_eq_false]
            exact (Option.or_eq_none_iff.mp found).2
          refine ⟨state, ?_, same, ranked, coherent⟩
          simp [answer_var, free]
      | some ty =>
          have linked : state.Links name ty := by
            rcases Option.or_eq_some_iff.mp found with cached | ⟨-, inTable⟩
            · exact .inr cached
            · exact .inl inTable
          have bound : state.binds name = true := by
            rcases linked with inTable | cached
            · exact binds_of_get? inTable
            · exact coherent.binds_of_remembered cached
          have agrees : ty.instantiate base.resolution = base.resolution name := by
            rw [← sameResolution]
            rcases linked with inTable | cached
            · exact (coherent.resolution_of_bound inTable).symm
            · exact coherent.remembered cached
          have below := enough (sameBinds ▸ bound)
          have replaces :
              Yields base rank (replaceWith (resolve depth) ty) (base.answer ty) := by
            apply replaceWith_yields
            intro other member
            apply ih
            intro otherBound
            have lower :=
              ranked.descends linked other member (by rw [sameBinds, otherBound])
            omega
          obtain ⟨next, run, nextSame, nextRanked, nextCoherent⟩ :=
            replaces state same ranked coherent
          have nextBound : next.binds name = true := by
            rw [binds_eq_of_table nextSame, ← sameBinds, bound]
          obtain ⟨lastCoherent, lastRanked⟩ :=
            nextCoherent.remember nextRanked nextBound
          rw [resolution_eq_of_table nextSame] at lastCoherent lastRanked
          refine ⟨next.remember name (base.resolution name), ?_, nextSame,
            lastRanked, lastCoherent⟩
          simp only [run, answer_getD, agrees, answer_var, ← sameBinds, bound, if_true]

/-- Applying a coherent substitution to a type resolves its type variables. -/
theorem apply_yields (ty : Ty) :
    Yields base rank (apply ty) (ty.instantiate base.resolution) := by
  intro state same ranked coherent
  have replaces : Yields base rank
      (replaceWith (resolve state.chainBound) ty) (base.answer ty) := by
    apply replaceWith_yields
    intro name _
    apply resolve_yields
    intro bound
    have below := ranked.lt_size (by rw [binds_eq_of_table same, bound])
    exact Nat.lt_of_lt_of_le below (Nat.le_add_right _ _)
  obtain ⟨next, run, post⟩ := replaces state same ranked coherent
  refine ⟨next, ?_, post⟩
  change (((replaceWith (resolve state.chainBound) ty).run state).1.getD ty,
    ((replaceWith (resolve state.chainBound) ty).run state).2) = _
  rw [run, answer_getD]

end Yields

/-- Applying a coherent substitution resolves the type and keeps the table. -/
theorem Coherent.apply_run (coherent : substitution.Coherent) (ty : Ty) :
    ∃ next, (apply ty).run substitution =
        (ty.instantiate substitution.resolution, next) ∧
      next.table = substitution.table ∧ next.Coherent := by
  obtain ⟨rank, ranked⟩ := coherent.ranked
  obtain ⟨next, run, same, -, nextCoherent⟩ :=
    apply_yields ty substitution rfl ranked coherent
  exact ⟨next, run, same, nextCoherent⟩

/-! ## Binding a type variable -/

/-- Binding a free type variable to a resolved type in which it does not occur
keeps look-ups going down: the new binding gets the lowest rank. -/
theorem RankedBy.insert {rank : TypeVar → Nat}
    (ranked : substitution.RankedBy rank) {name : TypeVar} {ty : Ty}
    (free : substitution.binds name = false)
    (resolved : ∀ other ∈ ty.occurrences, substitution.binds other = false)
    (absent : name ∉ ty.occurrences)
    (remembered : ∀ {key ty}, substitution.cache.get? key = some ty →
      substitution.binds key = true) :
    (substitution.insert name ty).RankedBy
      fun other => if other = name then 0 else rank other + 1 := by
  have bindsAfter (other : TypeVar) : (substitution.insert name ty).binds other =
      (decide (other = name) || substitution.binds other) := by
    simp only [binds, Substitution.insert, OrderedMap.get?_insert]
    by_cases same : other = name <;> simp [same]
  constructor
  · intro key target linked other member bound
    have old (linked : substitution.Links key target)
        (keyBound : substitution.binds key = true) :
        (if other = name then 0 else rank other + 1) <
          if key = name then 0 else rank key + 1 := by
      have differs : key ≠ name := by
        rintro rfl
        simp [free] at keyBound
      rw [if_neg differs]
      by_cases same : other = name
      · simp [same]
      · rw [bindsAfter] at bound
        have otherBound : substitution.binds other = true := by
          simpa [same] using bound
        rw [if_neg same]
        exact Nat.succ_lt_succ (ranked.descends linked other member otherBound)
    rcases linked with inTable | cached
    · rw [Substitution.insert, OrderedMap.get?_insert] at inTable
      split at inTable
      · obtain rfl : ty = target := by simpa using inTable
        have differs : other ≠ name := fun same => absent (same ▸ member)
        rw [bindsAfter] at bound
        simp [differs, resolved other member] at bound
      · exact old (.inl inTable) (binds_of_get? inTable)
    · exact old (.inr cached) (remembered cached)
  · intro key bound
    have size : (substitution.insert name ty).table.size =
        substitution.table.size + 1 :=
      OrderedMap.size_insert_of_absent ty (binds_eq_false.mp free)
    rw [size]
    by_cases same : key = name
    · simp [same]
    · rw [bindsAfter] at bound
      have keyBound : substitution.binds key = true := by simpa [same] using bound
      have := ranked.lt_size keyBound
      simp only [same, if_false]
      omega

/-- After a binding, type variables stand for what they stood for before, with
the bound type variable replaced. -/
theorem Coherent.resolution_insert (coherent : substitution.Coherent)
    {name : TypeVar} {ty : Ty} (free : substitution.binds name = false)
    (resolved : ∀ other ∈ ty.occurrences, substitution.binds other = false)
    (absent : name ∉ ty.occurrences) :
    (substitution.insert name ty).resolution = fun other =>
      (substitution.resolution other).instantiate (Function.update .var name ty) := by
  obtain ⟨rank, ranked⟩ := coherent.ranked
  have rankedAfter :=
    ranked.insert free resolved absent coherent.binds_of_remembered
  have unchanged (other : TypeVar) (differs : other ≠ name)
      (otherFree : substitution.table.get? other = none) :
      (substitution.resolution other).instantiate (Function.update .var name ty) =
        .var other := by
    rw [resolution_of_free otherFree, Ty.instantiate_var,
      Function.update_of_ne differs]
  symm
  apply rankedAfter.resolution_unique
  · intro other found
    rw [Substitution.insert, OrderedMap.get?_insert] at found
    split at found
    · simp at found
    · next differs => exact unchanged other differs found
  · intro other target found
    rw [Substitution.insert, OrderedMap.get?_insert] at found
    split at found
    · next same =>
        obtain rfl : ty = target := by simpa using found
        have fixed : ty.instantiate (fun other =>
            (substitution.resolution other).instantiate
              (Function.update .var name ty)) = ty := by
          apply Ty.instantiate_eq_self
          intro other member
          exact unchanged other (fun same => absent (same ▸ member))
            (binds_eq_false.mp (resolved other member))
        rw [fixed, same, resolution_of_free (binds_eq_false.mp free),
          Ty.instantiate_var, Function.update_self]
    · rw [coherent.resolution_of_bound found, Ty.instantiate_instantiate]

theorem Coherent.insert (coherent : substitution.Coherent)
    {name : TypeVar} {ty : Ty} (free : substitution.binds name = false)
    (resolved : ∀ other ∈ ty.occurrences, substitution.binds other = false)
    (absent : name ∉ ty.occurrences) :
    (substitution.insert name ty).Coherent := by
  obtain ⟨rank, ranked⟩ := coherent.ranked
  refine ⟨⟨_, ranked.insert free resolved absent coherent.binds_of_remembered⟩,
    ?_, ?_⟩
  · intro key target cached
    have bound := coherent.binds_of_remembered cached
    simp only [binds, Substitution.insert, OrderedMap.get?_insert] at bound ⊢
    split
    · rfl
    · exact bound
  · intro key target cached
    rw [coherent.resolution_insert free resolved absent,
      ← Ty.instantiate_instantiate, coherent.remembered cached]

theorem satisfiedBy_insert {name : TypeVar} {ty : Ty}
    (free : substitution.binds name = false) (assignment : Assignment) :
    (substitution.insert name ty).SatisfiedBy assignment ↔
      substitution.SatisfiedBy assignment ∧
        assignment name = ty.instantiate assignment := by
  have lookup (other : TypeVar) : (substitution.insert name ty).table.get? other =
      if other = name then some ty else substitution.table.get? other :=
    OrderedMap.get?_insert _ _ _ _
  constructor
  · intro satisfied
    refine ⟨?_, satisfied name ty (by rw [lookup, if_pos rfl])⟩
    intro other target found
    have differs : other ≠ name := by
      rintro rfl
      rw [binds_eq_false.mp free] at found
      simp at found
    exact satisfied other target (by rw [lookup, if_neg differs, found])
  · rintro ⟨satisfied, equal⟩ other target found
    rw [lookup] at found
    split at found
    · next same =>
        obtain rfl : ty = target := by simpa using found
        rw [same, equal]
    · exact satisfied other target found

end Coherent

end Substitution

end TypedHoles
