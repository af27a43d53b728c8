import TypedHoles.Proofs.ActionFilling
import TypedHoles.Proofs.Sketches

/-!
# The names that an action takes

An action draws a fixed number of names of each kind.  So whether the names suffice for
putting it into a program depends on the largest names of the program only.
-/

namespace TypedHoles

/-! ## Computations that take names -/

namespace Draw

variable {α β : Type} {vars holes : Nat}

/-- Whether a computation draws the given numbers of names, and fails only if there are
not that many left. -/
def Takes (computation : Draw α) (vars holes : Nat) : Prop :=
  ∀ supplies : Supplies,
    match computation.run supplies with
    | .ok _ rest =>
        rest.vars.count = supplies.vars.count + vars ∧
          rest.holes.count = supplies.holes.count + holes
    | .error _ _ =>
        UInt32.size ≤ supplies.vars.count + vars ∨
          UInt32.size ≤ supplies.holes.count + holes

theorem takes_pure (value : α) : Takes (pure value) 0 0 := fun _ =>
  ⟨rfl, rfl⟩

theorem takes_freshVar : Takes freshVar 1 0 := by
  intro supplies
  simp only [EStateM.run, freshVar]
  cases drawn : supplies.vars.fresh with
  | error reason =>
      have last := NameSupply.fresh_eq_error_iff.mp drawn
      simp only
      omega
  | ok result => exact ⟨(NameSupply.fresh_eq_ok_iff.mp drawn).2, rfl⟩

theorem takes_freshHole : Takes freshHole 0 1 := by
  intro supplies
  simp only [EStateM.run, freshHole]
  cases drawn : supplies.holes.fresh with
  | error reason =>
      have last := NameSupply.fresh_eq_error_iff.mp drawn
      simp only
      omega
  | ok result => exact ⟨rfl, (NameSupply.fresh_eq_ok_iff.mp drawn).2⟩

theorem Takes.bind {computation : Draw α} {next : α → Draw β} {moreVars moreHoles : Nat}
    (takes : computation.Takes vars holes)
    (takesMore : ∀ value, (next value).Takes moreVars moreHoles) :
    Takes (computation >>= next) (vars + moreVars) (holes + moreHoles) := by
  intro supplies
  have taken := takes supplies
  rw [EStateM.run_bind]
  cases run : computation.run supplies with
  | error reason middle =>
      simp only [run] at taken ⊢
      omega
  | ok value middle =>
      have takenMore := takesMore value middle
      simp only [run] at taken ⊢
      cases nextRun : (next value).run middle with
      | error reason rest =>
          simp only [nextRun] at takenMore ⊢
          omega
      | ok result rest =>
          simp only [nextRun] at takenMore ⊢
          omega

/-- A computation succeeds exactly if the names that it takes are left, and the last name
of each kind is never among them. -/
theorem Takes.exists_run_iff {computation : Draw α} (takes : computation.Takes vars holes)
    (supplies : Supplies) :
    (∃ value rest, computation.run supplies = .ok value rest) ↔
      supplies.vars.count + vars < UInt32.size ∧
        supplies.holes.count + holes < UInt32.size := by
  have taken := takes supplies
  cases run : computation.run supplies with
  | error reason rest =>
      simp only [run] at taken
      simp only [reduceCtorEq, exists_false, false_iff]
      omega
  | ok value rest =>
      simp only [run] at taken
      refine iff_of_true ⟨value, rest, rfl⟩ ?_
      rw [← taken.1, ← taken.2]
      exact ⟨rest.vars.next.index.toNat_lt, rest.holes.next.index.toNat_lt⟩

end Draw

namespace NameSupply

variable {kind : NameKind} {names : List (Name kind)}

theorem exists_after {bound : Nat} (small : bound < UInt32.size)
    (below : ∀ name ∈ names, name.index.toNat < bound) :
    ∃ supply, NameSupply.after names.max? = .ok supply ∧ supply.count ≤ bound := by
  cases greatest : names.max? with
  | none => exact ⟨full, rfl, Nat.zero_le bound⟩
  | some largest =>
      have lower := below largest (List.max?_mem greatest)
      cases following : largest.succ? with
      | error reason =>
          have last := Name.succ?_eq_error_iff.mp following
          omega
      | ok next =>
          have successor := Name.succ?_eq_ok_iff.mp following
          refine ⟨⟨next⟩, by simp [after, following, Except.map], ?_⟩
          change next.index.toNat ≤ bound
          omega

/-- Some names are left after the largest of a list exactly if no name of the list is too
close to the last one. -/
theorem exists_after_iff {drawn : Nat} (few : drawn < UInt32.size) :
    (∃ supply, NameSupply.after names.max? = .ok supply ∧
        supply.count + drawn < UInt32.size) ↔
      ∀ name ∈ names, name.index.toNat + drawn + 1 < UInt32.size := by
  constructor
  · rintro ⟨supply, following, left⟩ name member
    have below := lt_count_of_after following name member
    omega
  · intro below
    obtain ⟨supply, following, count⟩ :=
      @exists_after _ names (UInt32.size - 1 - drawn) (by omega) fun name member => by
        have left := below name member
        omega
    exact ⟨supply, following, by omega⟩

end NameSupply

theorem Term.supplies_eq_ok_iff {term : Term} {supplies : Supplies} :
    term.supplies = .ok supplies ↔
      NameSupply.after term.maxVar? = .ok supplies.vars ∧
        NameSupply.after term.maxHole? = .ok supplies.holes := by
  refine ⟨after_of_supplies, ?_⟩
  rintro ⟨vars, holes⟩
  rw [Term.supplies, vars, holes]
  rfl

/-! ## Actions -/

namespace Action

open Draw

/-- The number of open places of an action. -/
def arity : Action → Nat
  | unit => 0
  | var _ => 0
  | abstraction => 1
  | application => 2
  | pair => 2
  | proj1 => 1
  | proj2 => 1

/-- The number of variables that an action binds. -/
def binderCount : Action → Nat
  | abstraction => 1
  | _ => 0

theorem takes_fragment (action : Action) :
    action.fragment.Takes action.binderCount action.arity := by
  cases action with
  | unit | var => exact takes_pure _
  | abstraction =>
      exact takes_freshVar.bind fun _ => takes_freshHole.bind fun _ => takes_pure _
  | application | pair =>
      exact takes_freshHole.bind fun _ => takes_freshHole.bind fun _ => takes_pure _
  | proj1 | proj2 => exact takes_freshHole.bind fun _ => takes_pure _

theorem binderCount_le (action : Action) : action.binderCount ≤ 1 := by
  cases action <;> simp [binderCount]

theorem arity_le (action : Action) : action.arity ≤ 2 := by
  cases action <;> simp [arity]

/-- Whether the names that an action takes are left after the largest ones of a term.
The last name of each kind cannot be taken. -/
structure NamesSuffice (action : Action) (term : Term) : Prop where
  vars : ∀ name ∈ term.vars, name.index.toNat + action.binderCount + 1 < UInt32.size
  holes : ∀ name ∈ term.holes, name.index.toNat + action.arity + 1 < UInt32.size

/-- Whether an action stands for a fragment whose names are new in a term. -/
def Draws (action : Action) (term fragment : Term) : Prop :=
  ∃ supplies rest, term.supplies = .ok supplies ∧
    action.fragment.run supplies = .ok fragment rest

theorem exists_draws_iff {action : Action} {term : Term} :
    (∃ fragment, action.Draws term fragment) ↔ action.NamesSuffice term := by
  have size : 2 < UInt32.size := by decide
  have fewVars := action.binderCount_le
  have fewHoles := action.arity_le
  have vars := @NameSupply.exists_after_iff _ term.vars action.binderCount (by omega)
  have holes := @NameSupply.exists_after_iff _ term.holes action.arity (by omega)
  constructor
  · rintro ⟨fragment, supplies, rest, supplied, drawn⟩
    obtain ⟨varsAfter, holesAfter⟩ := Term.supplies_eq_ok_iff.mp supplied
    obtain ⟨varsLeft, holesLeft⟩ :=
      (action.takes_fragment.exists_run_iff supplies).mp ⟨fragment, rest, drawn⟩
    exact ⟨vars.mp ⟨_, varsAfter, varsLeft⟩, holes.mp ⟨_, holesAfter, holesLeft⟩⟩
  · rintro ⟨varsBelow, holesBelow⟩
    obtain ⟨varSupply, varsAfter, varsLeft⟩ := vars.mpr varsBelow
    obtain ⟨holeSupply, holesAfter, holesLeft⟩ := holes.mpr holesBelow
    have supplied : term.supplies = .ok ⟨varSupply, holeSupply⟩ :=
      Term.supplies_eq_ok_iff.mpr ⟨varsAfter, holesAfter⟩
    obtain ⟨fragment, rest, drawn⟩ :=
      (action.takes_fragment.exists_run_iff ⟨varSupply, holeSupply⟩).mpr
        ⟨varsLeft, holesLeft⟩
    exact ⟨fragment, _, rest, supplied, drawn⟩

theorem Builds.typeVarCount_le {count : Nat} {action : Action} {fragment : Term}
    (builds : Builds count action fragment) : fragment.typeVarCount ≤ 3 := by
  cases builds <;> simp [Term.typeVarCount]

/-- Trying an action draws a few type variables on top of those of the term. -/
theorem affordable_iff {action : Action} {term : Term}
    (few : term.typeVarCount + 3 ≤ UInt32.size) :
    action.Affordable term ↔ action.NamesSuffice term := by
  rw [← exists_draws_iff]
  constructor
  · rintro ⟨supplies, fragment, rest, supplied, drawn, -⟩
    exact ⟨fragment, supplies, rest, supplied, drawn⟩
  · rintro ⟨fragment, supplies, rest, supplied, drawn⟩
    have fragmentCount := (fragment_builds drawn).typeVarCount_le
    exact ⟨supplies, fragment, rest, supplied, drawn, by omega⟩

end Action

end TypedHoles
