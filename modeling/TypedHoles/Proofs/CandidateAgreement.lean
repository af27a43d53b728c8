import TypedHoles.Proofs.ActionFilling
import TypedHoles.Proofs.Shadowing

/-!
# The two checks for variables agree

Unifying the type of a variable with the type of a hole decides whether the
program is still well typed with the variable in the hole.  So both checks list
the same candidates, and they run out of names for the same programs.
-/

namespace TypedHoles

/-! ## Unification on its own -/

theorem unifyAlone_isOk_iff {left right : Ty} :
    (unifyAlone left right).isOk = true ↔
      ∃ assignment : Assignment,
        left.instantiate assignment = right.instantiate assignment := by
  have decided := Unify.exists_unify_run_ok_iff Substitution.coherent_empty left right
  simp only [Substitution.satisfiedBy_empty, true_and] at decided
  refine Iff.trans ?_ decided
  rw [unifyAlone]
  cases (Unify.unify left right).run .empty <;> simp [Except.isOk, Except.toBool]

/-! ## The variables that a context offers -/

theorem Context.mem_bindings_iff {context : Context} {name : VarName} {ty : Ty} :
    (name, ty) ∈ context.bindings ↔ context.lookup name = some ty :=
  ShadowList.mem_visible_iff

/-! ## Keeping the actions that pass a check -/

namespace Action

variable {check other : Action → Except EditFailure Bool} {actions : List Action}

theorem keep_congr (agree : ∀ action ∈ actions, check action = other action) :
    keep check actions = keep other actions := by
  induction actions with
  | nil => rfl
  | cons action actions ih =>
      obtain ⟨head, tail⟩ := List.forall_mem_cons.mp agree
      rw [keep, keep, head, ih tail]

theorem keep_cons_of_error {action : Action} {failure : EditFailure}
    (failed : check action = .error failure) :
    keep check (action :: actions) = .error failure := by
  rw [keep, failed]
  rfl

theorem keep_cons_of_ok {action : Action} {verdict : Bool}
    (checked : check action = .ok verdict) :
    keep check (action :: actions) =
      (keep check actions).map fun others =>
        if verdict then action :: others else others := by
  rw [keep, checked]
  cases keep check actions <;> rfl

/-- Keeping succeeds if all checks give an answer, and then it filters. -/
theorem keep_eq_ok_iff {kept : List Action} :
    keep check actions = .ok kept ↔
      (∀ action ∈ actions, ∃ verdict, check action = .ok verdict) ∧
        kept = actions.filter fun action => decide (check action = .ok true) := by
  induction actions generalizing kept with
  | nil => simp [keep, pure, Except.pure, eq_comm]
  | cons action actions ih =>
      rw [List.forall_mem_cons, List.filter_cons]
      cases checked : check action with
      | error failure => simp [keep_cons_of_error checked]
      | ok verdict =>
          rw [keep_cons_of_ok checked]
          cases rest : keep check actions with
          | ok others =>
              obtain ⟨answered, rfl⟩ := ih.mp rest
              cases verdict <;> simp only [Except.map, Except.ok.injEq] <;> grind
          | error failure =>
              refine iff_of_false (by simp [Except.map]) ?_
              rintro ⟨⟨-, answered⟩, -⟩
              have kept := ih.mpr ⟨answered, rfl⟩
              simp [rest] at kept

theorem exists_of_keep_eq_error {failure : EditFailure}
    (failed : keep check actions = .error failure) :
    ∃ action ∈ actions, check action = .error failure := by
  induction actions with
  | nil => simp [keep, pure, Except.pure] at failed
  | cons action actions ih =>
      rw [List.exists_mem_cons_iff]
      cases checked : check action with
      | error reason =>
          rw [keep_cons_of_error checked] at failed
          exact .inl (congrArg _ (Except.error.inj failed))
      | ok verdict =>
          rw [keep_cons_of_ok checked] at failed
          cases rest : keep check actions with
          | ok others => simp [rest, Except.map] at failed
          | error reason =>
              obtain rfl : reason = failure := by simpa [rest, Except.map] using failed
              exact .inr (ih rest)

theorem accepts_inProgram (action : Action) (term : Term) (hole : HoleName) (ty : Ty)
    (context : Context) :
    action.accepts term hole ty context .inProgram =
      (action.fits term hole).mapError fun _ => .exhausted := by
  rw [accepts]
  simp

end Action

/-! ## Agreement -/

/-- Whether `ty` and `context` are what inference says about a hole of a program
whose holes have different names. -/
structure InferredHole (term : Term) (hole : HoleName) (ty : Ty) (context : Context) :
    Prop where
  distinct : term.holes.Nodup
  member : hole ∈ term.holes
  inferred : ∃ inference, infer term = .ok inference ∧
    inference.holeType? hole = some ty ∧ inference.holeContext? hole = some context

theorem exists_inferredHole {term : Term} {inference : Inference} {hole : HoleName}
    (distinct : term.holes.Nodup) (inferred : infer term = .ok inference)
    (member : hole ∈ term.holes) :
    ∃ ty context, inference.holeType? hole = some ty ∧
      inference.holeContext? hole = some context ∧
      InferredHole term hole ty context := by
  obtain ⟨ty, context, holeType, holeContext⟩ :=
    Inference.exists_holeType_holeContext inferred member
  exact ⟨ty, context, holeType, holeContext,
    distinct, member, inference, inferred, holeType, holeContext⟩

namespace InferredHole

variable {term : Term} {hole : HoleName} {ty : Ty} {context : Context}

theorem freeOccurrences_eq_nil (known : InferredHole term hole ty context) :
    term.freeOccurrences [] = [] := by
  obtain ⟨inference, inferred, -⟩ := known.inferred
  exact Inference.freeOccurrences_eq_nil inferred

theorem exists_mem_holesIn (known : InferredHole term hole ty context) :
    ∃ inference, infer term = .ok inference ∧
      (hole, ty, context) ∈ inference.term.holesIn .empty := by
  obtain ⟨inference, inferred, holeType, holeContext⟩ := known.inferred
  have once := List.count_eq_one_of_mem known.distinct known.member
  exact ⟨inference, inferred, Inference.mem_holesIn inferred once holeType holeContext⟩

theorem exists_hasType_filled_iff (known : InferredHole term hole ty context)
    {fragment filled : Term} (fills : Term.Fills hole fragment term filled) :
    (∃ result, filled.HasType .empty result) ↔
      ∃ assignment, fragment.HasType (context.instantiate assignment)
        (ty.instantiate assignment) := by
  obtain ⟨inference, inferred, member⟩ := known.exists_mem_holesIn
  have once := List.count_eq_one_of_mem known.distinct known.member
  exact Inference.exists_hasType_filled_iff inferred once member fills

/-- The program with a variable in the hole has a type exactly if the type of the
variable and that of the hole have a common instance. -/
theorem exists_hasType_iff (known : InferredHole term hole ty context)
    {name : VarName} {binding : Ty} (bound : (name, binding) ∈ context.bindings)
    {filled : Term} (fills : Term.Fills hole (.var name) term filled) :
    (∃ result, filled.HasType .empty result) ↔
      (unifyAlone binding ty).isOk = true := by
  have lookup := Context.mem_bindings_iff.mp bound
  rw [known.exists_hasType_filled_iff fills, unifyAlone_isOk_iff]
  apply exists_congr
  intro assignment
  have instanceLookup := Context.lookup_instantiate context assignment name
  rw [lookup, Option.map_some] at instanceLookup
  constructor
  · rintro (_ | found)
    exact Option.some.inj (instanceLookup.symm.trans found)
  · intro equal
    exact .var (instanceLookup.trans (congrArg some equal))

theorem exists_infer_iff (known : InferredHole term hole ty context)
    {name : VarName} {binding : Ty} (bound : (name, binding) ∈ context.bindings)
    {filled : Term} (fills : Term.Fills hole (.var name) term filled) :
    (∃ result, infer filled = .ok result) ↔ (unifyAlone binding ty).isOk = true := by
  obtain ⟨inference, inferred, -⟩ := known.inferred
  have few := Inference.typeVarCount_lt inferred
  -- A variable draws no type variable, while the hole has drawn one.
  have count : filled.typeVarCount + 1 = term.typeVarCount + 0 := fills.typeVarCount
  rw [TypedHoles.exists_infer_iff, known.exists_hasType_iff bound fills]
  exact and_iff_right (by omega)

theorem fits_var (known : InferredHole term hole ty context)
    {name : VarName} {binding : Ty} (bound : (name, binding) ∈ context.bindings)
    (affordable : Action.unit.Affordable term) :
    (Action.var name).fits term hole = .ok (unifyAlone binding ty).isOk := by
  obtain ⟨supplies, fragment, rest, supplied, drawn, enough⟩ := affordable
  obtain ⟨filled, found⟩ := Term.exists_fillHole? known.member (.var name)
  obtain ⟨inference, inferred, -⟩ := known.inferred
  have few := Inference.typeVarCount_lt inferred
  obtain ⟨verdict, fits, typed⟩ := Action.exists_fits supplied
    (show (Action.var name).fragment.run supplies = .ok (.var name) supplies from rfl)
    (Nat.le_of_lt few) found
  rw [fits]
  rw [known.exists_hasType_iff bound (Term.fills_of_fillHole? found)] at typed
  rw [Bool.eq_iff_iff.mpr typed]

theorem accepts_byType (known : InferredHole term hole ty context)
    (affordable : Action.unit.Affordable term) {action : Action}
    (member : action ∈ context.actions) :
    action.accepts term hole ty context .byType =
      action.accepts term hole ty context .inProgram := by
  cases action with
  | unit | application | abstraction | pair | proj1 | proj2 => rfl
  | var name =>
      obtain ⟨binding, bound⟩ : ∃ binding, (name, binding) ∈ context.bindings := by
        simpa [Context.actions, Action.constructors] using member
      simp only [Action.accepts, Context.mem_bindings_iff.mp bound,
        known.fits_var bound affordable, Except.mapError]

/-- A hole needs no more names for a variable than for the unit, which is tried
first.  So the checks can differ on a variable only by their verdicts. -/
theorem candidates_byType (known : InferredHole term hole ty context) :
    candidates term hole ty context .byType =
      candidates term hole ty context .inProgram := by
  by_cases affordable : Action.unit.Affordable term
  · exact Action.keep_congr fun action member => known.accepts_byType affordable member
  · have failed : Action.unit.fits term hole = .error .exhausted := by
      cases fits : Action.unit.fits term hole with
      | error reason => rfl
      | ok verdict =>
          exact absurd (Action.affordable_of_fits (by decide)
            known.freeOccurrences_eq_nil known.member fits) affordable
    have unitFails (check : VariableCheck) :
        Action.unit.accepts term hole ty context check = .error .exhausted := by
      cases check <;> simp [Action.accepts, failed, Except.mapError]
    rw [candidates, candidates, Context.actions, Action.constructors, List.cons_append,
      Action.keep_cons_of_error (unitFails .byType),
      Action.keep_cons_of_error (unitFails .inProgram)]

theorem candidates_eq_inProgram (known : InferredHole term hole ty context)
    (check : VariableCheck) :
    candidates term hole ty context check =
      candidates term hole ty context .inProgram := by
  cases check with
  | inProgram => rfl
  | byType => exact known.candidates_byType

theorem candidates_eq_error (known : InferredHole term hole ty context)
    {check : VariableCheck} {failure : EditFailure}
    (failed : candidates term hole ty context check = .error failure) :
    failure = .exhausted := by
  rw [known.candidates_eq_inProgram check] at failed
  obtain ⟨action, -, rejected⟩ := Action.exists_of_keep_eq_error failed
  rw [Action.accepts_inProgram] at rejected
  cases fits : action.fits term hole with
  | error reason => simpa [fits, Except.mapError, eq_comm] using rejected
  | ok verdict => simp [fits, Except.mapError] at rejected

/-- The candidates are those actions that pass the check in the program. -/
theorem candidates_eq_ok_iff (known : InferredHole term hole ty context)
    {check : VariableCheck} {actions : List Action} :
    candidates term hole ty context check = .ok actions ↔
      (∀ action ∈ context.actions, ∃ verdict, action.fits term hole = .ok verdict) ∧
        actions = context.actions.filter fun action =>
          decide (action.fits term hole = .ok true) := by
  have accepts (action : Action) (verdict : Bool) :
      action.accepts term hole ty context .inProgram = .ok verdict ↔
        action.fits term hole = .ok verdict := by
    rw [Action.accepts_inProgram]
    cases action.fits term hole <;> simp [Except.mapError]
  rw [known.candidates_eq_inProgram check, candidates, Action.keep_eq_ok_iff]
  simp only [accepts]

theorem affordable_of_candidates (known : InferredHole term hole ty context)
    {check : VariableCheck} {actions : List Action}
    (listed : candidates term hole ty context check = .ok actions) :
    ∀ action ∈ Action.constructors, action.Affordable term := by
  intro action isConstructor
  obtain ⟨verdict, fits⟩ := (known.candidates_eq_ok_iff.mp listed).1 action
    (List.mem_append_left _ isConstructor)
  exact Action.affordable_of_fits isConstructor known.freeOccurrences_eq_nil
    known.member fits

theorem exists_candidates (known : InferredHole term hole ty context)
    (affordable : ∀ action ∈ Action.constructors, action.Affordable term)
    (check : VariableCheck) :
    ∃ actions, candidates term hole ty context check = .ok actions := by
  refine ⟨_, known.candidates_eq_ok_iff.mpr ⟨?_, rfl⟩⟩
  intro action member
  rcases List.mem_append.mp member with isConstructor | isVariable
  · exact (affordable action isConstructor).exists_fits known.member
  · obtain ⟨⟨name, binding⟩, bound, rfl⟩ := List.mem_map.mp isVariable
    exact ⟨_, known.fits_var bound (affordable .unit (by decide))⟩

end InferredHole

/-- Both checks give the same candidates in the same order, or run out of names
alike.  They agree on each single variable, too, whether or not the holes are
renumbered after it has been put into the hole. -/
theorem variable_checks_agree {term : Term} {inference : Inference} {hole : HoleName}
    (distinct : term.holes.Nodup) (inferred : infer term = .ok inference)
    (member : hole ∈ term.holes) :
    ∃ ty context, inference.holeType? hole = some ty ∧
      inference.holeContext? hole = some context ∧
      candidates term hole ty context .byType =
        candidates term hole ty context .inProgram ∧
      (∀ failure, candidates term hole ty context .byType = .error failure →
        failure = .exhausted) ∧
      ∀ name binding, (name, binding) ∈ context.bindings →
        (∃ filled, term.fillHole? hole (.var name) = some filled ∧
          ((unifyAlone binding ty).isOk = true ↔
            ∃ result, infer filled = .ok result)) ∧
        ∀ filled, (Action.var name).fill term hole = .ok filled →
          ((unifyAlone binding ty).isOk = true ↔
            ∃ result, infer filled = .ok result) := by
  obtain ⟨ty, context, holeType, holeContext, known⟩ :=
    exists_inferredHole distinct inferred member
  refine ⟨ty, context, holeType, holeContext, known.candidates_byType,
    fun failure failed => known.candidates_eq_error failed, ?_⟩
  intro name binding bound
  constructor
  · obtain ⟨filled, found⟩ := Term.exists_fillHole? member (.var name)
    exact ⟨filled, found,
      (known.exists_infer_iff bound (Term.fills_of_fillHole? found)).symm⟩
  · intro filled filling
    obtain ⟨supplies, fragment, rest, unnumbered, -, drawn, fills, -, rfl⟩ :=
      Action.exists_of_fill_eq_ok member filling
    obtain ⟨rfl, -⟩ := EStateM.Result.ok.inj drawn
    rw [Term.exists_infer_mapHoles_iff]
    exact (known.exists_infer_iff bound fills).symm

/-- A derivation for a function that applies its first argument to a hole. -/
def appliedHole : AnnotatedTerm :=
  .abs ⟨⟨0⟩, none⟩ (.arrow (.var ⟨0⟩) (.var ⟨1⟩)) <| .abs ⟨⟨1⟩, none⟩ (.var ⟨2⟩) <|
    .app (.var ⟨0⟩ (.arrow (.var ⟨0⟩) (.var ⟨1⟩))) (.hole ⟨0⟩ (.var ⟨0⟩)) (.var ⟨1⟩)

theorem variable_checks_agree_appliedHole :
    let context : Context :=
      ⟨[(⟨1⟩, .var ⟨2⟩), (⟨0⟩, .arrow (.var ⟨0⟩) (.var ⟨1⟩))]⟩
    infer appliedHole.erase = .ok (.ofAnnotated appliedHole) ∧
      candidates appliedHole.erase ⟨0⟩ (.var ⟨0⟩) context .byType =
        candidates appliedHole.erase ⟨0⟩ (.var ⟨0⟩) context .inProgram ∧
      candidates appliedHole.erase ⟨0⟩ (.var ⟨0⟩) context .byType =
        .ok (Action.constructors ++ [.var ⟨1⟩]) := by
  have inferred : infer appliedHole.erase = .ok (.ofAnnotated appliedHole) := by decide
  obtain ⟨ty, context, holeType, holeContext, same, -⟩ :=
    variable_checks_agree (by decide) inferred
      (show (⟨0⟩ : HoleName) ∈ appliedHole.erase.holes by decide)
  obtain rfl := Option.some.inj holeType
  obtain rfl := Option.some.inj holeContext
  exact ⟨inferred, same, by decide⟩

end TypedHoles
