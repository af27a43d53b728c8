import TypedHoles.Proofs.SubstitutionInvariant

/-!
# Path compression cannot be observed

A substitution prefers what it remembers of a type variable to the binding in its
table, although the remembered type may mention type variables that have been bound
since.  Bindings on their own remember nothing and are followed anew every time.
Whatever is asked of the two one after the other, they give the same answers and end
up with the same bindings, as long as no binding closes a cycle.
-/

namespace TypedHoles

namespace Bindings

def replaceWith (resolve : TypeVar → Option Ty) : Ty → Option Ty
  | .unit => none
  | .var name => resolve name
  | .arrow domain codomain =>
      Ty.rebuild .arrow domain codomain (replaceWith resolve domain)
        (replaceWith resolve codomain)
  | .product first second =>
      Ty.rebuild .product first second (replaceWith resolve first)
        (replaceWith resolve second)

/-- What a type variable stands for if chains of at most `depth` bindings are
followed. -/
def resolve (bindings : Bindings) : (depth : Nat) → TypeVar → Option Ty
  | 0, _ => none
  | depth + 1, name =>
      (bindings.get? name).map fun ty =>
        (replaceWith (bindings.resolve depth) ty).getD ty

/-- Apply bindings to a type.  No chain of bindings is longer than their number. -/
def replace? (bindings : Bindings) (ty : Ty) : Option Ty :=
  replaceWith (bindings.resolve bindings.size) ty

/-- Unification that keeps nothing but bindings. -/
def store : BindingStore Bindings where
  replace? ty bindings := (bindings.replace? ty, bindings)
  bind name ty bindings := bindings.insert name ty
  size bindings := bindings.size

end Bindings

namespace Substitution

variable {substitution : Substitution}

/-! ## Following the table -/

theorem replaceWith_eq_answer {resolve : TypeVar → Option Ty} {ty : Ty}
    (resolves : ∀ name ∈ ty.occurrences,
      resolve name = substitution.answer (.var name)) :
    Bindings.replaceWith resolve ty = substitution.answer ty := by
  induction ty with
  | unit => rfl
  | var name => exact resolves name (by simp [Ty.occurrences])
  | arrow domain codomain domainIh codomainIh =>
      rw [Bindings.replaceWith,
        domainIh fun name member => resolves name (by simp [Ty.occurrences, member]),
        codomainIh fun name member => resolves name (by simp [Ty.occurrences, member])]
      exact rebuild_answer substitution .arrow (fun _ _ => rfl) (fun _ _ => rfl) _ _
  | product first second firstIh secondIh =>
      rw [Bindings.replaceWith,
        firstIh fun name member => resolves name (by simp [Ty.occurrences, member]),
        secondIh fun name member => resolves name (by simp [Ty.occurrences, member])]
      exact rebuild_answer substitution .product (fun _ _ => rfl) (fun _ _ => rfl) _ _

theorem RankedBy.resolve_eq_answer {rank : TypeVar → Nat}
    (ranked : substitution.RankedBy rank) (depth : Nat) {name : TypeVar}
    (enough : substitution.binds name = true → rank name < depth) :
    Bindings.resolve substitution.table depth name =
      substitution.answer (.var name) := by
  induction depth generalizing name with
  | zero =>
      have free : substitution.binds name = false := by
        rw [← Bool.not_eq_true]
        exact fun bound => Nat.not_lt_zero _ (enough bound)
      simp [Bindings.resolve, answer_var, free]
  | succ depth ih =>
      rw [Bindings.resolve, answer_var]
      cases found : substitution.table.get? name with
      | none => simp [binds_eq_false.mpr found]
      | some ty =>
          have bound := binds_of_get? found
          have below := enough bound
          have replaced : Bindings.replaceWith
              (Bindings.resolve substitution.table depth) ty =
                substitution.answer ty := by
            apply replaceWith_eq_answer
            intro other member
            apply ih
            intro otherBound
            have lower := ranked.descends (.inl found) other member otherBound
            omega
          rw [Option.map_some, replaced, answer_getD, bound, if_pos rfl,
            ranked.resolution_of_bound found]

theorem Coherent.replace?_table (coherent : substitution.Coherent) (ty : Ty) :
    Bindings.replace? substitution.table ty = substitution.answer ty := by
  obtain ⟨rank, ranked⟩ := coherent.ranked
  apply replaceWith_eq_answer
  intro name _
  exact ranked.resolve_eq_answer _ ranked.lt_size

/-! ## Bindings that keep the table acyclic -/

/-- Ranks can be chosen below the number of bindings: a type variable gets the number
of bound type variables below it. -/
theorem exists_rankedBy (below : TypeVar → TypeVar → Prop)
    (trans : ∀ {first second third}, below first second → below second third →
      below first third)
    (irrefl : ∀ name, ¬ below name name)
    (descends : ∀ {name ty}, substitution.Links name ty →
      ∀ other ∈ ty.occurrences, substitution.binds other = true → below other name) :
    ∃ rank, substitution.RankedBy rank := by
  classical
  let bound := substitution.table.keys.toFinset
  have size : bound.card = substitution.table.size := by
    simp only [bound, OrderedMap.keys, OrderedMap.size]
    rw [List.toFinset_card_of_nodup substitution.table.nodup, List.length_map]
  have mem_bound {name : TypeVar} (binds : substitution.binds name = true) :
      name ∈ bound :=
    List.mem_toFinset.mpr ((OrderedMap.isSome_get?_iff _ _).mp binds)
  refine ⟨fun name => (bound.filter (below · name)).card, ?_, ?_⟩
  · intro name ty linked other member binds
    have lower := descends linked other member binds
    apply Finset.card_lt_card
    refine ⟨fun third thirdLower => ?_, fun includes => ?_⟩
    · obtain ⟨thirdBound, thirdLower⟩ := Finset.mem_filter.mp thirdLower
      exact Finset.mem_filter.mpr ⟨thirdBound, trans thirdLower lower⟩
    · have otherLower : other ∈ bound.filter (below · name) :=
        Finset.mem_filter.mpr ⟨mem_bound binds, lower⟩
      exact irrefl other (Finset.mem_filter.mp (includes otherLower)).2
  · intro name binds
    rw [← size]
    apply Finset.card_lt_card
    exact Finset.filter_ssubset.mpr ⟨name, mem_bound binds, irrefl name⟩

/-- Acyclic bindings make up a substitution that remembers nothing yet. -/
theorem coherent_of_acyclic {bindings : Bindings} (acyclic : Bindings.Acyclic bindings) :
    Coherent ⟨bindings, .empty⟩ := by
  refine ⟨?_, ?_, ?_⟩
  · apply exists_rankedBy fun other name => Relation.TransGen bindings.Mentions name other
    · exact fun lower upper => upper.trans lower
    · exact acyclic
    · rintro name ty (found | cached) other member -
      · exact .single ⟨ty, found, member⟩
      · cases cached
  · rintro name ty cached
    cases cached
  · rintro name ty cached
    cases cached

/-- Acyclic bindings on their own are followed to the end. -/
theorem resolves_replace? {bindings : Bindings} (acyclic : Bindings.Acyclic bindings)
    (ty : Ty) :
    Bindings.Resolves bindings ty ((bindings.replace? ty).getD ty) := by
  have coherent := coherent_of_acyclic acyclic
  rw [coherent.replace?_table ty, answer_getD]
  exact coherent.resolves ty

theorem RankedBy.reaches_of_mem_resolution {rank : TypeVar → Nat}
    (ranked : substitution.RankedBy rank) {name other : TypeVar}
    (member : other ∈ (substitution.resolution name).occurrences) :
    Relation.ReflTransGen (Bindings.Mentions substitution.table) name other := by
  induction name using ranked.induction with
  | free name unbound =>
      rw [resolution_of_free unbound] at member
      obtain rfl : other = name := by simpa [Ty.occurrences] using member
      exact .refl
  | bound name ty found ih =>
      rw [ranked.resolution_of_bound found, Ty.mem_occurrences_instantiate] at member
      obtain ⟨origin, mentioned, member⟩ := member
      exact .head ⟨ty, found, mentioned⟩ (ih origin mentioned member)

theorem mentions_insert {name other third : TypeVar} {ty : Ty}
    (free : substitution.binds name = false)
    (mentions : Bindings.Mentions substitution.table other third) :
    Bindings.Mentions (substitution.insert name ty).table other third := by
  obtain ⟨bound, found, member⟩ := mentions
  refine ⟨bound, ?_, member⟩
  have differs : other ≠ name := by
    rintro rfl
    simp [binds, found] at free
  rw [Substitution.insert, OrderedMap.get?_insert, if_neg differs, found]

section Insert

variable {name : TypeVar} {ty : Ty}

/-- What a new binding mentions does not depend on the type variable that it binds. -/
theorem RankedBy.not_mem_resolution {rank : TypeVar → Nat}
    (ranked : substitution.RankedBy rank) (free : substitution.binds name = false)
    (acyclic : Bindings.Acyclic (substitution.insert name ty).table)
    {other : TypeVar} (member : other ∈ ty.occurrences) :
    name ∉ (substitution.resolution other).occurrences := by
  intro depends
  have path : Relation.ReflTransGen
      (Bindings.Mentions (substitution.insert name ty).table) other name :=
    Relation.ReflTransGen.mono (fun _ _ => mentions_insert free) _ _
      (ranked.reaches_of_mem_resolution depends)
  have first : Bindings.Mentions (substitution.insert name ty).table name other := by
    refine ⟨ty, ?_, member⟩
    rw [Substitution.insert, OrderedMap.get?_insert, if_pos rfl]
  exact acyclic name (.head' first path)

theorem Coherent.resolution_of_links (coherent : substitution.Coherent)
    {key : TypeVar} {target : Ty} (linked : substitution.Links key target) :
    substitution.resolution key = target.instantiate substitution.resolution := by
  rcases linked with inTable | cached
  · exact coherent.resolution_of_bound inTable
  · exact (coherent.remembered cached).symm

theorem Coherent.binds_of_links (coherent : substitution.Coherent)
    {key : TypeVar} {target : Ty} (linked : substitution.Links key target) :
    substitution.binds key = true := by
  rcases linked with inTable | cached
  · exact binds_of_get? inTable
  · exact coherent.binds_of_remembered cached

theorem links_insert {key : TypeVar} {target : Ty}
    (linked : (substitution.insert name ty).Links key target) :
    key = name ∧ target = ty ∨ substitution.Links key target := by
  rcases linked with inTable | cached
  · rw [Substitution.insert, OrderedMap.get?_insert] at inTable
    split at inTable
    · next same => exact .inl ⟨same, (Option.some.inj inTable).symm⟩
    · exact .inr (.inl inTable)
  · exact .inr (.inr cached)

theorem Coherent.exists_rankedBy_insert (coherent : substitution.Coherent)
    (free : substitution.binds name = false)
    (acyclic : Bindings.Acyclic (substitution.insert name ty).table) :
    ∃ rank, (substitution.insert name ty).RankedBy rank := by
  obtain ⟨rank, ranked⟩ := coherent.ranked
  -- Below the new type variable stands what does not depend on it, above it what does.
  let measure (other : TypeVar) : Nat :=
    if other = name then substitution.table.size
    else if name ∈ (substitution.resolution other).occurrences then
      substitution.table.size + 1 + rank other
    else rank other
  have nameFree : substitution.resolution name = .var name :=
    resolution_of_free (binds_eq_false.mp free)
  apply exists_rankedBy (fun first second => measure first < measure second)
    Nat.lt_trans fun _ => Nat.lt_irrefl _
  intro key target linked other member bound
  have otherBound (differs : other ≠ name) : substitution.binds other = true := by
    simpa [binds, Substitution.insert, OrderedMap.get?_insert, differs] using bound
  rcases links_insert linked with ⟨rfl, rfl⟩ | older
  · have independent := ranked.not_mem_resolution free acyclic member
    have differs : other ≠ key := by
      rintro rfl
      simp [nameFree, Ty.occurrences] at independent
    have below := ranked.lt_size (otherBound differs)
    simpa [measure, differs, independent] using below
  · have differs : key ≠ name := by
      rintro rfl
      simp [coherent.binds_of_links older] at free
    have inherits : name ∈ (substitution.resolution other).occurrences →
        name ∈ (substitution.resolution key).occurrences := by
      intro depends
      rw [coherent.resolution_of_links older, Ty.mem_occurrences_instantiate]
      exact ⟨other, member, depends⟩
    by_cases same : other = name
    · have depends : name ∈ (substitution.resolution key).occurrences :=
        inherits (by rw [same, nameFree]; simp [Ty.occurrences])
      simp only [measure, same, differs, depends, if_true, if_false]
      omega
    · have lower := ranked.descends older other member (otherBound same)
      by_cases depends : name ∈ (substitution.resolution other).occurrences
      · simp only [measure, same, differs, depends, inherits depends, if_true, if_false]
        omega
      · simp only [measure, same, differs, depends, if_false]
        split <;> omega

/-- Coherence needs no more of a new binding than that it closes no cycle. -/
theorem Coherent.insert_of_acyclic (coherent : substitution.Coherent)
    (free : substitution.binds name = false)
    (acyclic : Bindings.Acyclic (substitution.insert name ty).table) :
    (substitution.insert name ty).Coherent := by
  obtain ⟨rank, ranked⟩ := coherent.exists_rankedBy_insert free acyclic
  refine ⟨⟨rank, ranked⟩, ?_, ?_⟩
  · intro key target cached
    have bound := coherent.binds_of_remembered cached
    simp only [binds, Substitution.insert, OrderedMap.get?_insert] at bound ⊢
    split
    · rfl
    · exact bound
  · intro key target cached
    -- What was resolved before resolves to the same as what it came from.
    have satisfied : substitution.SatisfiedBy (substitution.insert name ty).resolution :=
      ((satisfiedBy_insert free _).mp fun _ _ found =>
        ranked.resolution_of_bound found).1
    have fromType := coherent.instantiate_resolution satisfied target
    have fromVar := coherent.instantiate_resolution satisfied (.var key)
    rw [coherent.remembered cached] at fromType
    exact fromType.symm.trans fromVar

end Insert

end Substitution

/-! ## Requests -/

/-- Something that is asked of a substitution, or of bindings on their own. -/
inductive Request where
  | replace (ty : Ty)
  | apply (ty : Ty)
  | unify (left right : Ty)
  | solve (constraints : List Constraint)
  | insert (name : TypeVar) (ty : Ty)
  deriving DecidableEq, Repr

/-- The answer to a request.  A type in which nothing is replaced is not given back. -/
inductive Reply where
  | replaced (new : Option Ty)
  | applied (ty : Ty)
  | unified
  | failed (clash : Clash)
  | inserted (old : Option Ty)
  deriving DecidableEq, Repr

def Reply.ofResult {σ : Type} : EStateM.Result Clash σ Unit → Reply × σ
  | .ok _ after => (.unified, after)
  | .error clash after => (.failed clash, after)

namespace Substitution

def serve (substitution : Substitution) : Request → Reply × Substitution
  | .replace ty =>
      let (new, next) := (replace? ty).run substitution
      (.replaced new, next)
  | .apply ty =>
      let (new, next) := (apply ty).run substitution
      (.applied new, next)
  | .unify left right => Reply.ofResult ((Unify.unify left right).run substitution)
  | .solve constraints => Reply.ofResult ((Unify.solve constraints).run substitution)
  | .insert name ty =>
      (.inserted (substitution.table.get? name), substitution.insert name ty)

/-- The answers to requests made one after the other, each with the bindings after
it. -/
def replies (substitution : Substitution) : List Request → List (Reply × Bindings)
  | [] => []
  | request :: requests =>
      let (reply, next) := substitution.serve request
      (reply, next.table) :: next.replies requests

end Substitution

namespace Bindings

def serve (bindings : Bindings) : Request → Reply × Bindings
  | .replace ty => (.replaced (bindings.replace? ty), bindings)
  | .apply ty => (.applied ((bindings.replace? ty).getD ty), bindings)
  | .unify left right => Reply.ofResult ((store.unify left right).run bindings)
  | .solve constraints => Reply.ofResult ((store.solve constraints).run bindings)
  | .insert name ty => (.inserted (bindings.get? name), bindings.insert name ty)

def replies (bindings : Bindings) : List Request → List (Reply × Bindings)
  | [] => []
  | request :: requests =>
      let (reply, next) := bindings.serve request
      (reply, next) :: next.replies requests

/-- Whether a request inserts only a binding for a free type variable that closes no
cycle. -/
def Permits (bindings : Bindings) : Request → Prop
  | .insert name ty => bindings.get? name = none ∧ Acyclic (bindings.insert name ty)
  | _ => True

def PermitsAll (bindings : Bindings) : List Request → Prop
  | [] => True
  | request :: requests =>
      bindings.Permits request ∧ (bindings.serve request).2.PermitsAll requests

end Bindings

namespace Substitution

theorem store_follows : Bindings.store.Follows fun substitution bindings =>
    substitution.Coherent ∧ bindings = substitution.table where
  coherent holds := holds.1
  size_eq := by
    rintro substitution _ ⟨-, rfl⟩
    rfl
  replace? := by
    rintro substitution _ ⟨coherent, rfl⟩ ty
    obtain ⟨next, run, same, nextCoherent⟩ := coherent.replace?_run ty
    refine ⟨_, next, substitution.table, run, ?_, nextCoherent, same.symm⟩
    change (Bindings.replace? substitution.table ty, substitution.table) = _
    rw [coherent.replace?_table]
  bind := by
    rintro substitution _ ⟨coherent, rfl⟩ name ty free resolved absent
    exact ⟨coherent.insert free resolved absent, rfl⟩

theorem ofResult_eq {before : Substitution}
    {result : EStateM.Result Clash Substitution Unit}
    {other : EStateM.Result Clash Bindings Unit}
    (agrees : BindingStore.Agrees (fun substitution bindings =>
      substitution.Coherent ∧ bindings = substitution.table) before result other) :
    Reply.ofResult other =
        ((Reply.ofResult result).1, (Reply.ofResult result).2.table) ∧
      (Reply.ofResult result).2.Coherent := by
  cases agrees with
  | ok _ holds => exact ⟨by rw [holds.2]; rfl, holds.1⟩
  | error clash _ holds => exact ⟨by rw [holds.2]; rfl, holds.1⟩

/-- One request: the answer and the bindings are the same, and the substitution stays
coherent. -/
theorem Coherent.serve {substitution : Substitution} (coherent : substitution.Coherent)
    {request : Request} (permitted : Bindings.Permits substitution.table request) :
    Bindings.serve substitution.table request =
        ((substitution.serve request).1, (substitution.serve request).2.table) ∧
      (substitution.serve request).2.Coherent := by
  cases request with
  | replace ty =>
      obtain ⟨next, run, same, nextCoherent⟩ := coherent.replace?_run ty
      simp only [Substitution.serve, Bindings.serve, run, coherent.replace?_table, same]
      exact ⟨trivial, nextCoherent⟩
  | apply ty =>
      obtain ⟨next, run, same, nextCoherent⟩ := coherent.apply_run ty
      simp only [Substitution.serve, Bindings.serve, run, coherent.replace?_table,
        answer_getD, same]
      exact ⟨trivial, nextCoherent⟩
  | unify left right =>
      exact ofResult_eq (store_follows.unify_agrees ⟨coherent, rfl⟩ left right)
  | solve constraints =>
      exact ofResult_eq (store_follows.solve_agrees ⟨coherent, rfl⟩ constraints)
  | insert name ty =>
      obtain ⟨free, acyclic⟩ := permitted
      exact ⟨rfl, coherent.insert_of_acyclic (binds_eq_false.mpr free) acyclic⟩

theorem Coherent.replies_eq {substitution : Substitution}
    (coherent : substitution.Coherent) {requests : List Request}
    (permitted : Bindings.PermitsAll substitution.table requests) :
    substitution.replies requests = Bindings.replies substitution.table requests := by
  induction requests generalizing substitution with
  | nil => rfl
  | cons request requests ih =>
      obtain ⟨now, later⟩ := permitted
      obtain ⟨same, nextCoherent⟩ := coherent.serve now
      rw [same] at later
      simp only [replies, Bindings.replies, same, ih nextCoherent later]

/-- From the empty substitution on, all answers and all bindings are those of an
implementation that remembers nothing. -/
theorem path_compression_invisible {requests : List Request}
    (permitted : Bindings.PermitsAll .empty requests) :
    Substitution.empty.replies requests = Bindings.replies .empty requests :=
  coherent_empty.replies_eq permitted

theorem acyclic_of_falls {bindings : Bindings} (measure : TypeVar → Nat)
    (falls : ∀ entry ∈ bindings.entries, ∀ other ∈ entry.2.occurrences,
      measure other < measure entry.1) :
    Bindings.Acyclic bindings := by
  have lower {name other : TypeVar}
      (path : Relation.TransGen bindings.Mentions name other) :
      measure other < measure name := by
    induction path using Relation.TransGen.trans_induction_on with
    | single mentions =>
        obtain ⟨ty, found, member⟩ := mentions
        obtain ⟨entry, first, rfl⟩ := Option.map_eq_some_iff.mp found
        have key := List.find?_some first
        rw [← of_decide_eq_true key]
        exact falls entry (List.mem_of_find?_eq_some first) _ member
    | trans _ _ first second => exact second.trans first
  exact fun name cycle => Nat.lt_irrefl _ (lower cycle)

/-- Requests after which what is remembered of a type variable is outdated. -/
def outdating : List Request :=
  [.insert ⟨2⟩ (.arrow (.var ⟨1⟩) .unit), .apply (.var ⟨2⟩),
    .insert ⟨1⟩ (.product (.var ⟨0⟩) .unit), .insert ⟨3⟩ (.var ⟨2⟩),
    .replace (.var ⟨3⟩), .replace (.var ⟨0⟩), .unify (.var ⟨0⟩) (.var ⟨2⟩),
    .solve [⟨.var ⟨0⟩, .unit⟩, ⟨.var ⟨3⟩, .unit⟩]]

theorem path_compression_invisible_outdating :
    Bindings.PermitsAll .empty outdating ∧
    Substitution.empty.replies outdating = Bindings.replies .empty outdating ∧
    (Bindings.replies .empty outdating).map Prod.fst =
      [.inserted none, .applied (.arrow (.var ⟨1⟩) .unit), .inserted none,
        .inserted none, .replaced (some (.arrow (.product (.var ⟨0⟩) .unit) .unit)),
        .replaced none,
        .failed (.circularity ⟨0⟩ (.arrow (.product (.var ⟨0⟩) .unit) .unit)),
        .failed (.mismatch (.arrow (.product .unit .unit) .unit) .unit)] := by
  have permitted : Bindings.PermitsAll .empty outdating := by
    refine ⟨⟨rfl, acyclic_of_falls (·.index.toNat) (by decide)⟩, trivial,
      ⟨rfl, acyclic_of_falls (·.index.toNat) (by decide)⟩,
      ⟨rfl, acyclic_of_falls (·.index.toNat) (by decide)⟩, trivial, trivial, trivial, trivial,
      trivial⟩
  exact ⟨permitted, path_compression_invisible permitted, by decide⟩

end Substitution

end TypedHoles
