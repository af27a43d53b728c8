import TypedHoles.Proofs.PathCompression

/-!
# Look-ups that end

Applying a substitution follows its bindings as far as they go, and nothing in the way
this is done says that it ever ends.  Here it is a set of rules that follow bindings
without any bound: a look-up that goes on forever has no derivation.  If the bindings are
acyclic and what is remembered agrees with them, then there is exactly one derivation for
every type, and it gives what applying the substitution gives.
-/

namespace TypedHoles

theorem Ty.getD_rebuild (make : Ty → Ty → Ty) (first second : Ty)
    (newFirst newSecond : Option Ty) :
    (Ty.rebuild make first second newFirst newSecond).getD (make first second) =
      make (newFirst.getD first) (newSecond.getD second) := by
  cases newFirst <;> cases newSecond <;> rfl

namespace Substitution

/-! ## Agreement -/

/-- Whether what is remembered of a type variable mentions only type variables to which
the bindings lead from there. -/
def Grounded (substitution : Substitution) : Prop :=
  ∀ name ty, substitution.cache.get? name = some ty → ∀ other ∈ ty.occurrences,
    Relation.TransGen (Bindings.Mentions substitution.table) name other

/-- Whether what is remembered agrees with the bindings: it is remembered of a bound type
variable, it lies further along the bindings of that type variable, and following it leads
to the same end. -/
structure Agrees (substitution : Substitution) : Prop where
  bound : ∀ name ty, substitution.cache.get? name = some ty →
    substitution.binds name = true
  grounded : substitution.Grounded
  resolves : ∀ name ty, substitution.cache.get? name = some ty → ∀ result,
    Bindings.Resolves substitution.table ty result ↔
      Bindings.Resolves substitution.table (.var name) result

/-- Whether the bindings are acyclic and what is remembered agrees with them. -/
structure Sound (substitution : Substitution) : Prop where
  acyclic : Bindings.Acyclic substitution.table
  agrees : substitution.Agrees

section Agreement

variable {substitution : Substitution}

theorem coherent_of_agrees (acyclic : Bindings.Acyclic substitution.table)
    (agrees : substitution.Agrees) : substitution.Coherent := by
  refine ⟨?_, @agrees.bound, ?_⟩
  · apply exists_rankedBy fun other name =>
      Relation.TransGen (Bindings.Mentions substitution.table) name other
    · exact fun lower upper => upper.trans lower
    · exact acyclic
    · rintro name ty (found | cached) other member -
      · exact .single ⟨ty, found, member⟩
      · exact agrees.grounded name ty cached other member
  · intro name ty cached
    -- What type variables stand for is a matter of the table alone.
    have same : resolution ⟨substitution.table, .empty⟩ = substitution.resolution :=
      resolution_eq_of_table rfl
    have fromType := (coherent_of_acyclic acyclic).resolves ty
    have fromVar := (coherent_of_acyclic acyclic).resolves (.var name)
    rw [same] at fromType fromVar
    exact ((agrees.resolves name ty cached _).mp fromType).unique fromVar

theorem sound_iff :
    substitution.Sound ↔ substitution.Coherent ∧ substitution.Grounded := by
  constructor
  · rintro ⟨acyclic, agrees⟩
    exact ⟨coherent_of_agrees acyclic agrees, agrees.grounded⟩
  · rintro ⟨coherent, grounded⟩
    exact ⟨coherent.acyclic, fun _ _ => coherent.binds_of_remembered, grounded,
      fun _ _ cached => coherent.resolves_remembered cached⟩

theorem grounded_empty : empty.Grounded := by
  intro name ty cached
  simp [empty] at cached

theorem Grounded.insert (grounded : substitution.Grounded) {name : TypeVar}
    (free : substitution.binds name = false) (ty : Ty) :
    (substitution.insert name ty).Grounded := fun key target cached other member =>
  Relation.TransGen.mono (fun _ _ => mentions_insert free) _ _
    (grounded key target cached other member)

/-- A look-up goes on only to type variables to which the bindings lead. -/
theorem Grounded.leads_of_get? (grounded : substitution.Grounded) {name : TypeVar} {ty : Ty}
    (found : substitution.get? name = some ty) {other : TypeVar}
    (member : other ∈ ty.occurrences) :
    Relation.TransGen (Bindings.Mentions substitution.table) name other := by
  rcases Option.or_eq_some_iff.mp found with cached | ⟨-, inTable⟩
  · exact grounded name ty cached other member
  · exact .single ⟨ty, inTable, member⟩

end Agreement

/-! ## Rules for applying a substitution -/

/-- What applying a substitution to a type ends with: the new type, if anything is
replaced, and the substitution with what is remembered then. -/
inductive Replaces : Substitution → Ty → Option Ty → Substitution → Prop
  | unit {substitution : Substitution} : Replaces substitution .unit none substitution
  | free {substitution : Substitution} {name : TypeVar}
      (unknown : substitution.get? name = none) :
      Replaces substitution (.var name) none substitution
  | bound {substitution next : Substitution} {name : TypeVar} {ty : Ty} {new : Option Ty}
      (found : substitution.get? name = some ty)
      (rest : Replaces substitution ty new next) :
      Replaces substitution (.var name) (some (new.getD ty))
        (next.remember name (new.getD ty))
  | arrow {substitution middle next : Substitution} {domain codomain : Ty}
      {newDomain newCodomain : Option Ty}
      (left : Replaces substitution domain newDomain middle)
      (right : Replaces middle codomain newCodomain next) :
      Replaces substitution (.arrow domain codomain)
        (Ty.rebuild .arrow domain codomain newDomain newCodomain) next
  | product {substitution middle next : Substitution} {first second : Ty}
      {newFirst newSecond : Option Ty}
      (left : Replaces substitution first newFirst middle)
      (right : Replaces middle second newSecond next) :
      Replaces substitution (.product first second)
        (Ty.rebuild .product first second newFirst newSecond) next

namespace Replaces

variable {substitution next : Substitution} {ty : Ty} {new : Option Ty}

theorem unique {otherNext : Substitution} {otherNew : Option Ty}
    (replaces : Replaces substitution ty new next)
    (other : Replaces substitution ty otherNew otherNext) :
    new = otherNew ∧ next = otherNext := by
  induction replaces generalizing otherNew otherNext with
  | unit =>
      cases other
      exact ⟨rfl, rfl⟩
  | free unknown =>
      cases other with
      | free => exact ⟨rfl, rfl⟩
      | bound found => simp [unknown] at found
  | bound found _ ih =>
      cases other with
      | free unknown => simp [unknown] at found
      | bound otherFound rest =>
          obtain rfl := Option.some.inj (found.symm.trans otherFound)
          obtain ⟨rfl, rfl⟩ := ih rest
          exact ⟨rfl, rfl⟩
  | arrow _ _ leftIh rightIh =>
      cases other with
      | arrow left right =>
          obtain ⟨rfl, rfl⟩ := leftIh left
          obtain ⟨rfl, rfl⟩ := rightIh right
          exact ⟨rfl, rfl⟩
  | product _ _ leftIh rightIh =>
      cases other with
      | product left right =>
          obtain ⟨rfl, rfl⟩ := leftIh left
          obtain ⟨rfl, rfl⟩ := rightIh right
          exact ⟨rfl, rfl⟩

theorem table_eq (replaces : Replaces substitution ty new next) :
    next.table = substitution.table := by
  induction replaces with
  | unit | free => rfl
  | bound _ _ ih => exact ih
  | arrow _ _ leftIh rightIh | product _ _ leftIh rightIh => exact rightIh.trans leftIh

/-- The new type lies further along the bindings of the old one, so that it may be
remembered. -/
theorem leads (replaces : Replaces substitution ty new next)
    (grounded : substitution.Grounded) :
    next.Grounded ∧ ∀ other ∈ (new.getD ty).occurrences, ∃ origin ∈ ty.occurrences,
      Relation.ReflTransGen (Bindings.Mentions substitution.table) origin other := by
  induction replaces with
  | unit => exact ⟨grounded, by simp [Ty.occurrences]⟩
  | free => exact ⟨grounded, fun other member => ⟨other, member, .refl⟩⟩
  | @bound substitution next name ty new found rest ih =>
      obtain ⟨nextGrounded, fromType⟩ := ih grounded
      have fromName (other : TypeVar) (member : other ∈ (new.getD ty).occurrences) :
          Relation.TransGen (Bindings.Mentions substitution.table) name other := by
        obtain ⟨origin, mentioned, path⟩ := fromType other member
        exact (grounded.leads_of_get? found mentioned).trans_left path
      refine ⟨?_, fun other member => ⟨name, by simp [Ty.occurrences],
        (fromName other member).to_reflTransGen⟩⟩
      intro key target cached other member
      change Relation.TransGen (Bindings.Mentions next.table) key other
      rw [remember, OrderedMap.get?_insert] at cached
      split at cached
      · next same =>
          obtain rfl := Option.some.inj cached
          rw [rest.table_eq, same]
          exact fromName other member
      · exact nextGrounded key target cached other member
  | arrow left _ leftIh rightIh | product left _ leftIh rightIh =>
      obtain ⟨middleGrounded, fromLeft⟩ := leftIh grounded
      obtain ⟨nextGrounded, fromRight⟩ := rightIh middleGrounded
      rw [left.table_eq] at fromRight
      refine ⟨nextGrounded, fun other member => ?_⟩
      rw [Ty.getD_rebuild] at member
      rcases List.mem_append.mp member with inLeft | inRight
      · obtain ⟨origin, mentioned, path⟩ := fromLeft other inLeft
        exact ⟨origin, List.mem_append_left _ mentioned, path⟩
      · obtain ⟨origin, mentioned, path⟩ := fromRight other inRight
        exact ⟨origin, List.mem_append_right _ mentioned, path⟩

theorem of_free {ty : Ty} (free : ∀ name ∈ ty.occurrences, substitution.get? name = none) :
    Replaces substitution ty none substitution := by
  induction ty with
  | unit => exact .unit
  | var name => exact .free (free name (by simp [Ty.occurrences]))
  | arrow domain codomain domainIh codomainIh =>
      exact .arrow (domainIh fun name member => free name (by simp [Ty.occurrences, member]))
        (codomainIh fun name member => free name (by simp [Ty.occurrences, member]))
  | product first second firstIh secondIh =>
      exact .product (firstIh fun name member => free name (by simp [Ty.occurrences, member]))
        (secondIh fun name member => free name (by simp [Ty.occurrences, member]))

/-- No derivation passes through a loop of look-ups.  It would have to pass through it
again before anything is remembered of the type variables in the loop. -/
theorem avoids {loop : Set TypeVar} (replaces : Replaces substitution ty new next)
    (closed : ∀ name ∈ loop, ∃ ty, substitution.get? name = some ty ∧
      ∃ other ∈ ty.occurrences, other ∈ loop) :
    (∀ name ∈ ty.occurrences, name ∉ loop) ∧
      ∀ name ∈ loop, next.get? name = substitution.get? name := by
  induction replaces with
  | unit => exact ⟨by simp [Ty.occurrences], fun _ _ => rfl⟩
  | @free substitution name unknown =>
      refine ⟨fun other member inLoop => ?_, fun _ _ => rfl⟩
      obtain rfl : other = name := by simpa [Ty.occurrences] using member
      obtain ⟨ty, found, -⟩ := closed other inLoop
      simp [unknown] at found
  | @bound substitution next name ty new found rest ih =>
      obtain ⟨outside, same⟩ := ih closed
      have notInLoop : name ∉ loop := by
        intro inLoop
        obtain ⟨target, foundTarget, other, member, otherInLoop⟩ := closed name inLoop
        obtain rfl := Option.some.inj (found.symm.trans foundTarget)
        exact outside other member otherInLoop
      refine ⟨fun other member => ?_, fun other inLoop => ?_⟩
      · obtain rfl : other = name := by simpa [Ty.occurrences] using member
        exact notInLoop
      · have differs : other ≠ name := fun same => notInLoop (same ▸ inLoop)
        rw [← same other inLoop, get?, get?, remember, OrderedMap.get?_insert,
          if_neg differs]
  | arrow _ _ leftIh rightIh | product _ _ leftIh rightIh =>
      obtain ⟨outsideLeft, sameLeft⟩ := leftIh closed
      obtain ⟨outsideRight, sameRight⟩ := rightIh fun name inLoop => by
        rw [sameLeft name inLoop]
        exact closed name inLoop
      refine ⟨?_, fun name inLoop => (sameRight name inLoop).trans (sameLeft name inLoop)⟩
      intro name member
      rcases List.mem_append.mp member with inLeft | inRight
      · exact outsideLeft name inLeft
      · exact outsideRight name inRight

end Replaces

/-! ## Coherent substitutions -/

section Coherent

variable {base : Substitution} {rank : TypeVar → Nat}

/-- Whether `computation` does what the rules say about `ty`, in every coherent state with
the table of `base`. -/
def Derives (base : Substitution) (rank : TypeVar → Nat)
    (computation : StateM Substitution (Option Ty)) (ty : Ty) : Prop :=
  ∀ state : Substitution, state.table = base.table → state.RankedBy rank →
    state.Coherent →
      Replaces state ty (computation.run state).1 (computation.run state).2

theorem replaceWith_derives {resolver : TypeVar → StateM Substitution (Option Ty)} {ty : Ty}
    (yields : ∀ name ∈ ty.occurrences,
      Yields base rank (resolver name) (base.answer (.var name)))
    (derives : ∀ name ∈ ty.occurrences, Derives base rank (resolver name) (.var name)) :
    Derives base rank (replaceWith resolver ty) ty := by
  -- The second part is replaced in the state that the first part leaves.
  have inTurn {first second : Ty} {state : Substitution}
      (yields : ∀ name ∈ first.occurrences,
        Yields base rank (resolver name) (base.answer (.var name)))
      (derives : Derives base rank (replaceWith resolver second) second)
      (same : state.table = base.table) (ranked : state.RankedBy rank)
      (coherent : state.Coherent) :
      let middle := ((replaceWith resolver first).run state).2
      Replaces middle second ((replaceWith resolver second).run middle).1
        ((replaceWith resolver second).run middle).2 := by
    obtain ⟨middle, run, middleSame, middleRanked, middleCoherent⟩ :=
      replaceWith_yields yields state same ranked coherent
    rw [run]
    exact derives middle middleSame middleRanked middleCoherent
  induction ty with
  | unit => exact fun _ _ _ _ => .unit
  | var name => exact derives name (by simp [Ty.occurrences])
  | arrow domain codomain domainIh codomainIh =>
      obtain ⟨left, right⟩ := List.forall_mem_append.mp yields
      obtain ⟨leftDerives, rightDerives⟩ := List.forall_mem_append.mp derives
      intro state same ranked coherent
      exact .arrow (domainIh left leftDerives state same ranked coherent)
        (inTurn left (codomainIh right rightDerives) same ranked coherent)
  | product first second firstIh secondIh =>
      obtain ⟨left, right⟩ := List.forall_mem_append.mp yields
      obtain ⟨leftDerives, rightDerives⟩ := List.forall_mem_append.mp derives
      intro state same ranked coherent
      exact .product (firstIh left leftDerives state same ranked coherent)
        (inTurn left (secondIh right rightDerives) same ranked coherent)

theorem resolve_derives (depth : Nat) {name : TypeVar}
    (enough : base.binds name = true → rank name < depth) :
    Derives base rank (resolve depth name) (.var name) := by
  induction depth generalizing name with
  | zero =>
      intro state same _ coherent
      have free : state.binds name = false := by
        rw [binds_eq_of_table same, ← Bool.not_eq_true]
        exact fun bound => Nat.not_lt_zero _ (enough bound)
      exact .free (coherent.get?_eq_none_iff.mpr free)
  | succ depth ih =>
      intro state same ranked coherent
      rw [resolve_succ_run]
      cases found : state.get? name with
      | none => exact .free found
      | some ty =>
          have linked : state.Links name ty := by
            rcases Option.or_eq_some_iff.mp found with cached | ⟨-, inTable⟩
            · exact .inr cached
            · exact .inl inTable
          have sameBinds := binds_eq_of_table same
          have below : ∀ other ∈ ty.occurrences, base.binds other = true →
              rank other < depth := by
            intro other member otherBound
            have lower :=
              ranked.descends linked other member (by rw [sameBinds, otherBound])
            have := enough (sameBinds ▸ coherent.binds_of_links linked)
            omega
          exact .bound found (replaceWith_derives
            (fun other member => resolve_yields depth (below other member))
            (fun other member => ih (below other member)) state same ranked coherent)

variable {substitution : Substitution}

/-- For a coherent substitution, the rules and applying it come to the same. -/
theorem Coherent.replaces_iff (coherent : substitution.Coherent) {ty : Ty} {new : Option Ty}
    {next : Substitution} :
    Replaces substitution ty new next ↔ (replace? ty).run substitution = (new, next) := by
  obtain ⟨rank, ranked⟩ := coherent.ranked
  have enough (name : TypeVar) (bound : substitution.binds name = true) :
      rank name < substitution.chainBound :=
    Nat.lt_of_lt_of_le (ranked.lt_size bound) (Nat.le_add_right _ _)
  have derivation : Replaces substitution ty ((replace? ty).run substitution).1
      ((replace? ty).run substitution).2 :=
    replaceWith_derives (fun name _ => resolve_yields _ (enough name))
      (fun name _ => resolve_derives _ (enough name)) substitution rfl ranked coherent
  constructor
  · intro replaces
    obtain ⟨rfl, rfl⟩ := replaces.unique derivation
    rfl
  · intro run
    rwa [run] at derivation

/-- What a coherent substitution makes of a type, by the rules. -/
theorem Coherent.of_replaces (coherent : substitution.Coherent) {ty : Ty} {new : Option Ty}
    {next : Substitution} (replaces : Replaces substitution ty new next) :
    new.getD ty = ty.instantiate substitution.resolution ∧ next.Coherent := by
  obtain ⟨_, run, -, nextCoherent⟩ := coherent.replace?_run ty
  rw [coherent.replaces_iff.mp replaces] at run
  obtain ⟨rfl, rfl⟩ := Prod.mk.inj run
  exact ⟨answer_getD substitution ty, nextCoherent⟩

end Coherent

/-! ## Cycles -/

theorem acyclic_of_resolves {bindings : Bindings}
    (resolves : ∀ name, ∃ result, Bindings.Resolves bindings (.var name) result) :
    Bindings.Acyclic bindings := by
  have outside {ty result : Ty} (ends : Bindings.Resolves bindings ty result) :
      ∀ name ∈ ty.occurrences, ¬ Relation.TransGen bindings.Mentions name name := by
    induction ends with
    | unit => simp [Ty.occurrences]
    | @free name unbound =>
        intro other member cycle
        obtain rfl : other = name := by simpa [Ty.occurrences] using member
        obtain ⟨_, ⟨ty, found, -⟩, -⟩ := Relation.TransGen.head'_iff.mp cycle
        simp [unbound] at found
    | @bound name ty result found rest ih =>
        intro other member cycle
        obtain rfl : other = name := by simpa [Ty.occurrences] using member
        -- The cycle goes on from a type variable of the type that is found.
        obtain ⟨next, ⟨target, foundTarget, mentioned⟩, back⟩ :=
          Relation.TransGen.head'_iff.mp cycle
        obtain rfl := Option.some.inj (found.symm.trans foundTarget)
        exact ih next mentioned (.tail' back ⟨ty, found, mentioned⟩)
    | arrow _ _ leftIh rightIh | product _ _ leftIh rightIh =>
        intro name member
        rcases List.mem_append.mp member with inLeft | inRight
        · exact leftIh name inLeft
        · exact rightIh name inRight
  intro name
  obtain ⟨result, ends⟩ := resolves name
  exact outside ends name (by simp [Ty.occurrences])

/-- With agreement, looking up ends for all types exactly if the bindings are acyclic. -/
theorem ends_iff_acyclic {substitution : Substitution} (agrees : substitution.Agrees) :
    (∀ ty, ∃ new next, Replaces substitution ty new next) ↔
      Bindings.Acyclic substitution.table := by
  constructor
  · intro ends
    apply acyclic_of_resolves
    by_contra! someLoop
    obtain ⟨name, endless⟩ := someLoop
    let loop : Set TypeVar :=
      {name | ∀ result, ¬ Bindings.Resolves substitution.table (.var name) result}
    have goesOn {ty : Ty} (endless : ∀ result,
        ¬ Bindings.Resolves substitution.table ty result) :
        ∃ other ∈ ty.occurrences, other ∈ loop := by
      by_contra! noLoop
      have resolves (other : TypeVar) (member : other ∈ ty.occurrences) :
          ∃ result, Bindings.Resolves substitution.table (.var other) result :=
        not_forall_not.mp (noLoop other member)
      have : Nonempty Ty := ⟨.unit⟩
      choose! assignment resolves using resolves
      exact endless _ (Bindings.resolves_instantiate resolves)
    have closed : ∀ name ∈ loop, ∃ ty, substitution.get? name = some ty ∧
        ∃ other ∈ ty.occurrences, other ∈ loop := by
      intro name endless
      cases found : substitution.get? name with
      | none =>
          have unbound := (Option.or_eq_none_iff.mp found).2
          exact absurd (.free unbound) (endless _)
      | some ty =>
          refine ⟨ty, rfl, goesOn fun result resolves => ?_⟩
          rcases Option.or_eq_some_iff.mp found with cached | ⟨-, inTable⟩
          · exact endless result ((agrees.resolves name ty cached result).mp resolves)
          · exact endless result (.bound inTable resolves)
    obtain ⟨_, _, replaces⟩ := ends (.var name)
    exact (replaces.avoids closed).1 name (by simp [Ty.occurrences]) endless
  · intro acyclic ty
    exact ⟨_, _, (coherent_of_agrees acyclic agrees).replaces_iff.mpr rfl⟩

theorem Sound.replace (sound : substitution.Sound) (ty : Ty) :
    ((replace? ty).run substitution).2.Sound := by
  obtain ⟨coherent, grounded⟩ := sound_iff.mp sound
  have replaces := coherent.replaces_iff.mpr (rfl : (replace? ty).run substitution = _)
  exact sound_iff.mpr ⟨(coherent.of_replaces replaces).2, (replaces.leads grounded).1⟩

/-- Two type variables that are bound to the same one, where the other one is remembered
of each. -/
def crossed : Substitution :=
  ((ofList [(⟨0⟩, .var ⟨2⟩), (⟨1⟩, .var ⟨2⟩)]).remember ⟨0⟩ (.var ⟨1⟩)).remember ⟨1⟩
    (.var ⟨0⟩)

/-- It is not enough that what is remembered stands for the same: it has to lie further
along the bindings. -/
theorem crossed_does_not_end :
    Bindings.Acyclic crossed.table ∧
    (∀ name ty, crossed.cache.get? name = some ty → crossed.binds name = true ∧
      Bindings.Resolves crossed.table (.var name) (.var ⟨2⟩) ∧
      Bindings.Resolves crossed.table ty (.var ⟨2⟩)) ∧
    ¬ ∃ new next, Replaces crossed (.var ⟨0⟩) new next := by
  have zero : Bindings.Resolves crossed.table (.var ⟨0⟩) (.var ⟨2⟩) :=
    .bound rfl (.free rfl)
  have one : Bindings.Resolves crossed.table (.var ⟨1⟩) (.var ⟨2⟩) :=
    .bound rfl (.free rfl)
  refine ⟨?_, ?_, ?_⟩
  · exact acyclic_of_falls (fun name => if name = ⟨2⟩ then 0 else 1) (by decide)
  · intro name ty cached
    have entry : (name, ty) ∈ crossed.cache.entries := by
      obtain ⟨entry, first, rfl⟩ := Option.map_eq_some_iff.mp cached
      have key := List.find?_some first
      rw [← of_decide_eq_true key]
      exact List.mem_of_find?_eq_some first
    have entries : crossed.cache.entries = [(⟨0⟩, .var ⟨1⟩), (⟨1⟩, .var ⟨0⟩)] := rfl
    rw [entries] at entry
    simp only [List.mem_cons, Prod.mk.injEq, List.not_mem_nil, or_false] at entry
    rcases entry with ⟨rfl, rfl⟩ | ⟨rfl, rfl⟩
    · exact ⟨rfl, zero, one⟩
    · exact ⟨rfl, one, zero⟩
  · rintro ⟨new, next, replaces⟩
    have closed : ∀ name ∈ ({⟨0⟩, ⟨1⟩} : Set TypeVar), ∃ ty, crossed.get? name = some ty ∧
        ∃ other ∈ ty.occurrences, other ∈ ({⟨0⟩, ⟨1⟩} : Set TypeVar) := by
      rintro name (rfl | rfl)
      · exact ⟨.var ⟨1⟩, rfl, ⟨1⟩, by simp [Ty.occurrences], by simp⟩
      · exact ⟨.var ⟨0⟩, rfl, ⟨0⟩, by simp [Ty.occurrences], by simp⟩
    exact (replaces.avoids closed).1 ⟨0⟩ (by simp [Ty.occurrences]) (by simp)

end Substitution

end TypedHoles
