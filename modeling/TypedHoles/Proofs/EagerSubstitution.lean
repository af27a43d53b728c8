import TypedHoles.Proofs.SubstitutionInvariant

/-!
# Substituting eagerly

Applying a substitution follows chains of bindings and remembers what it finds.  For the
substitutions of unification there is a simpler way to the same result: replace the bound
type variables one after the other, in the order in which they were bound, each
everywhere at once.  One pass is enough, because a type to which a type variable is bound
mentions no type variable that has been bound before.
-/

namespace TypedHoles

namespace Ty

/-- Replace the type variables of some bindings one after the other. -/
def substituteAll (ty : Ty) (bindings : List (TypeVar × Ty)) : Ty :=
  bindings.foldl (fun ty binding => ty.substitute binding.1 binding.2) ty

theorem substituteAll_concat (ty : Ty) (bindings : List (TypeVar × Ty)) (name : TypeVar)
    (replacement : Ty) :
    ty.substituteAll (bindings ++ [(name, replacement)]) =
      (ty.substituteAll bindings).substitute name replacement := by
  rw [substituteAll, List.foldl_append]
  rfl

/-- Replacing one type variable is instantiating it and keeping the others. -/
theorem substitute_eq_instantiate (ty : Ty) (name : TypeVar) (replacement : Ty) :
    ty.substitute name replacement =
      ty.instantiate (Function.update var name replacement) := by
  induction ty with
  | unit => rfl
  | var other => simp [substitute, Function.update_apply]
  | arrow domain codomain domainIh codomainIh =>
      rw [substitute, instantiate_arrow, domainIh, codomainIh]
  | product first second firstIh secondIh =>
      rw [substitute, instantiate_product, firstIh, secondIh]

end Ty

namespace Substitution

/-- Whether each type mentions neither the type variable that is bound to it nor one
that is bound in front of it. -/
def Triangular (bindings : List (TypeVar × Ty)) : Prop :=
  ∀ earlier name ty later, bindings = earlier ++ (name, ty) :: later →
    ∀ bound ∈ earlier.map Prod.fst ++ [name], ty.contains bound = false

theorem triangular_nil : Triangular [] := by
  intro earlier name ty later split
  simp at split

theorem Triangular.concat {bindings : List (TypeVar × Ty)} (triangular : Triangular bindings)
    {name : TypeVar} {ty : Ty}
    (resolved : ∀ bound ∈ bindings.map Prod.fst ++ [name], ty.contains bound = false) :
    Triangular (bindings ++ [(name, ty)]) := by
  intro earlier other target later split
  rcases List.eq_nil_or_concat later with rfl | ⟨rest, last, rfl⟩
  · obtain ⟨rfl, same⟩ := List.append_inj' split rfl
    obtain ⟨rfl, rfl⟩ := Prod.mk.inj (List.singleton_inj.mp same)
    exact resolved
  · rw [List.concat_eq_append, ← List.cons_append, ← List.append_assoc] at split
    exact triangular earlier other target rest (List.append_inj' split rfl).1

/-- Whether following the bindings of a substitution comes to the same as replacing the
bound type variables in order. -/
structure Eager (substitution : Substitution) : Prop where
  instantiate_eq : ∀ ty : Ty, ty.instantiate substitution.resolution =
    ty.substituteAll substitution.table.entries
  triangular : Triangular substitution.table.entries

theorem eager_empty : empty.Eager where
  instantiate_eq ty := by
    rw [instantiate_resolution_of_free fun _ _ => rfl]
    rfl
  triangular := triangular_nil

theorem binds_iff_mem {substitution : Substitution} {name : TypeVar} :
    substitution.binds name = true ↔ name ∈ substitution.table.entries.map Prod.fst :=
  substitution.table.isSome_get?_iff name

section Steps

variable {names : Set TypeVar} {before after : Substitution}

/-- A binding is made for a resolved type, so it has to be followed only after all that
have been made before. -/
theorem Step.eager (step : Step names before after) (coherent : before.Coherent)
    (eager : before.Eager) : after.Eager := by
  cases step with
  | remember same _ =>
      constructor
      · rw [resolution_eq_of_table same, same]
        exact eager.instantiate_eq
      · rw [same]
        exact eager.triangular
  | @bind name ty _ free resolved absent =>
      have unbound : ∀ other ∈ ty.occurrences, before.binds other = false :=
        fun other member => (resolved other member).2
      have entries : (before.insert name ty).table.entries =
          before.table.entries ++ [(name, ty)] :=
        OrderedMap.put_of_absent ty (binds_eq_false.mp free)
      constructor
      · intro target
        rw [coherent.resolution_insert free unbound absent, ← Ty.instantiate_instantiate,
          eager.instantiate_eq, ← Ty.substitute_eq_instantiate, entries,
          Ty.substituteAll_concat]
      · rw [entries]
        refine eager.triangular.concat fun bound member => ?_
        rw [← Bool.not_eq_true, Ty.contains_iff]
        intro occurs
        rcases List.mem_append.mp member with earlier | isName
        · rw [← binds_iff_mem, unbound bound occurs] at earlier
          simp at earlier
        · exact absent (List.mem_singleton.mp isName ▸ occurs)

theorem Extends.eager (steps : Extends names before after) (coherent : before.Coherent)
    (eager : before.Eager) : after.Eager := by
  induction steps with
  | refl => exact eager
  | tail earlier step ih => exact step.eager (Extends.coherent earlier coherent) ih

end Steps

theorem reachable_foldl_perform {substitution : Substitution}
    (reachable : substitution.Reachable) (operations : List Operation) :
    (operations.foldl perform substitution).Reachable := by
  induction operations generalizing substitution with
  | nil => exact reachable
  | cons operation operations ih => exact ih (reachable.perform operation)

/-- What is done with an empty substitution, failures included, makes bindings one after
the other.  Applying the substitution that is left replaces their type variables in this
order, each once.  No type mentions the type variable that is bound to it or one that was
bound before, and the result mentions none of them at all. -/
theorem apply_eq_substituteAll (operations : List Operation) :
    let substitution := operations.foldl perform .empty
    ∃ insertions bindings,
      operations.foldl recorder.perform ⟨.empty, []⟩ = ⟨substitution, insertions⟩ ∧
      (insertions.map fun insertion => (insertion.name, insertion.ty)) = bindings ∧
      substitution.table.entries = bindings ∧
      (∀ ty, ((apply ty).run substitution).1 = ty.substituteAll bindings) ∧
      (∀ earlier name ty later, bindings = earlier ++ (name, ty) :: later →
        ∀ bound ∈ earlier.map Prod.fst ++ [name], ty.contains bound = false) ∧
      ∀ ty : Ty, ∀ bound ∈ bindings.map Prod.fst,
        (ty.substituteAll bindings).contains bound = false := by
  intro substitution
  have start : Records .empty .empty ⟨.empty, []⟩ :=
    ⟨coherent_empty, rfl, rfl, by simp⟩
  have recorded : Records .empty substitution
      (operations.foldl recorder.perform ⟨.empty, []⟩) :=
    (recorder_follows .empty).foldl_perform start operations
  obtain ⟨coherent, current, entries, -⟩ := recorded
  have reachable : substitution.Reachable := reachable_foldl_perform .empty operations
  have eager := reachable.extends_empty.eager coherent_empty eager_empty
  refine ⟨_, substitution.table.entries, by rw [← current], entries.symm, rfl, ?_,
    eager.triangular, ?_⟩
  · intro ty
    obtain ⟨next, run, -⟩ := coherent.apply_run ty
    rw [run]
    exact eager.instantiate_eq ty
  · intro ty bound member
    rw [← eager.instantiate_eq, ← Bool.not_eq_true, Ty.contains_iff]
    intro occurs
    rw [← binds_iff_mem, coherent.free_of_mem_instantiate occurs] at member
    simp at member

-- In the other order, one pass would leave a bound type variable behind.
example :
    let bindings : List (TypeVar × Ty) := [(⟨0⟩, .arrow (.var ⟨1⟩) .unit), (⟨1⟩, .unit)]
    (Ty.var ⟨0⟩).substituteAll bindings = .arrow .unit .unit ∧
      (Ty.var ⟨0⟩).substituteAll bindings.reverse = .arrow (.var ⟨1⟩) .unit := by
  decide

end Substitution

end TypedHoles
