import Mathlib.Logic.Equiv.Basic
import TypedHoles.Proofs.CanonicalForms
import TypedHoles.Proofs.FilledPrograms

/-!
# Actions in different holes commute

Two actions that are put into different holes make the same program in either order,
because each leaves the hole of the other one alone and types only look at what stands
in the holes.  The order shows only if both actions are abstractions: then the one that
is put first binds the smaller variable.
-/

namespace TypedHoles

namespace Term

/-! ## Renaming variables -/

/-- The term with other names for its variables. -/
def mapVars (rename : VarName → VarName) : Term → Term
  | unit => unit
  | var name => var (rename name)
  | abs binder body =>
      abs { binder with name := rename binder.name } (body.mapVars rename)
  | app applicant argument => app (applicant.mapVars rename) (argument.mapVars rename)
  | pair first second => pair (first.mapVars rename) (second.mapVars rename)
  | proj1 argument => proj1 (argument.mapVars rename)
  | proj2 argument => proj2 (argument.mapVars rename)
  | hole name => hole name

section MapVars

variable {rename : VarName → VarName}

theorem mapVars_eq_self {term : Term} (fixed : ∀ name ∈ term.vars, rename name = name) :
    term.mapVars rename = term := by
  induction term with
  | unit | hole => rfl
  | var name => rw [mapVars, fixed name (by simp)]
  | abs binder body ih =>
      simp only [vars_abs, List.forall_mem_cons] at fixed
      rw [mapVars, fixed.1, ih fixed.2]
  | app applicant argument applicantIh argumentIh =>
      simp only [vars_app, List.forall_mem_append] at fixed
      rw [mapVars, applicantIh fixed.1, argumentIh fixed.2]
  | pair first second firstIh secondIh =>
      simp only [vars_pair, List.forall_mem_append] at fixed
      rw [mapVars, firstIh fixed.1, secondIh fixed.2]
  | proj1 argument ih => rw [mapVars, ih (by simpa using fixed)]
  | proj2 argument ih => rw [mapVars, ih (by simpa using fixed)]

theorem mapVars_plug (rename : VarName → VarName) (term : Term)
    (parts : HoleName → Term) :
    (term.plug parts).mapVars rename =
      (term.mapVars rename).plug fun name => (parts name).mapVars rename := by
  induction term with
  | unit | var | hole => rfl
  | abs binder body ih => simp only [plug, mapVars, ih]
  | app applicant argument applicantIh argumentIh =>
      simp only [plug, mapVars, applicantIh, argumentIh]
  | pair first second firstIh secondIh => simp only [plug, mapVars, firstIh, secondIh]
  | proj1 argument ih => simp only [plug, mapVars, ih]
  | proj2 argument ih => simp only [plug, mapVars, ih]

@[simp]
theorem holes_mapVars (rename : VarName → VarName) (term : Term) :
    (term.mapVars rename).holes = term.holes := by
  induction term with
  | unit | var | hole => rfl
  | abs binder body ih => simp [mapVars, ih]
  | app applicant argument applicantIh argumentIh =>
      simp [mapVars, applicantIh, argumentIh]
  | pair first second firstIh secondIh => simp [mapVars, firstIh, secondIh]
  | proj1 argument ih => simp [mapVars, ih]
  | proj2 argument ih => simp [mapVars, ih]

theorem HolesInOrder.mapVars {term : Term} (inOrder : term.HolesInOrder)
    (rename : VarName → VarName) : (term.mapVars rename).HolesInOrder := by
  rw [HolesInOrder, holes_mapVars]
  exact inOrder

theorem outline_mapVars (rename : VarName → VarName) (term : Term) :
    (term.mapVars rename).outline = term.outline.mapVars rename := by
  simp only [outline, mapHoles_eq_plug, mapVars_plug, mapVars]

end MapVars

/-! ## Two parts -/

/-- The outline of a program with parts in two of its holes. -/
def plugBoth (term : Term) (first : HoleName) (left : Term) (second : HoleName)
    (right : Term) : Term :=
  term.plug fun name =>
    if name = first then left else if name = second then right else hole ⟨0⟩

section PlugBoth

variable {term left right : Term} {first second : HoleName}

theorem plugBoth_comm (differ : first ≠ second) :
    term.plugBoth first left second right = term.plugBoth second right first left := by
  rw [plugBoth, plugBoth]
  congr 1
  funext name
  by_cases isFirst : name = first
  · simp [isFirst, differ]
  · simp [isFirst]

theorem HasType.plugBoth {otherLeft otherRight : Term} {ty : Ty}
    (typed : (term.plugBoth first left second right).HasType .empty ty)
    (leftTyped : ∀ context ty, left.HasType context ty → otherLeft.HasType context ty)
    (rightTyped : ∀ context ty, right.HasType context ty → otherRight.HasType context ty) :
    (term.plugBoth first otherLeft second otherRight).HasType .empty ty := by
  refine typed.plug_of_imp ?_
  intro name _ context ty typed
  by_cases isFirst : name = first
  · rw [if_pos isFirst] at typed ⊢
    exact leftTyped context ty typed
  · rw [if_neg isFirst] at typed ⊢
    by_cases isSecond : name = second
    · rw [if_pos isSecond] at typed ⊢
      exact rightTyped context ty typed
    · rwa [if_neg isSecond] at typed ⊢

theorem mapVars_plugBoth {rename : VarName → VarName}
    (fixed : ∀ name ∈ term.vars, rename name = name) :
    (term.plugBoth first left second right).mapVars rename =
      term.plugBoth first (left.mapVars rename) second (right.mapVars rename) := by
  rw [Term.plugBoth, mapVars_plug, mapVars_eq_self fixed, Term.plugBoth]
  congr 1
  funext name
  rw [apply_ite (mapVars rename), apply_ite (mapVars rename)]
  rfl

theorem hasType_outline_iff {context : Context} {ty : Ty} :
    term.outline.HasType context ty ↔ term.HasType context ty :=
  hasType_mapHoles_iff

end PlugBoth

end Term

namespace Action

variable {action other : Action} {term middle final : Term} {first second : HoleName}
  {supplies after : Supplies}

theorem outline_of_fill (distinct : term.holes.Nodup) (member : first ∈ term.holes)
    (filling : action.fill term first = .ok middle)
    (supplied : term.supplies = .ok supplies) (second : HoleName) :
    middle.outline =
      term.plugBoth first (action.outline supplies.vars.next) second (.hole ⟨0⟩) := by
  obtain ⟨parts, rfl, fragment, moved⟩ :=
    exists_plug_of_fill distinct member filling supplied
  rw [Term.outline_plug, Term.plugBoth]
  apply Term.plug_congr
  intro name occurs
  by_cases isFirst : name = first
  · rw [if_pos isFirst, isFirst, fragment]
  · rw [if_neg isFirst, ite_self, moved name occurs isFirst, Term.outline_hole]

theorem movedHole_mem_holes (distinct : term.holes.Nodup) (member : first ∈ term.holes)
    (filling : action.fill term first = .ok middle) (otherMember : second ∈ term.holes)
    (differ : first ≠ second) : action.movedHole term first second ∈ middle.holes := by
  obtain ⟨supplies, supplied⟩ := exists_supplies_of_fill member filling
  obtain ⟨parts, rfl, -, moved⟩ := exists_plug_of_fill distinct member filling supplied
  rw [Term.holes_plug, List.mem_flatMap]
  exact ⟨second, otherMember, by simp [moved second otherMember differ.symm]⟩

/-- After two actions, each hole holds the fragment of its action. -/
theorem outline_of_fills (distinct : term.holes.Nodup) (firstMember : first ∈ term.holes)
    (secondMember : second ∈ term.holes) (differ : first ≠ second)
    (filling : action.fill term first = .ok middle)
    (refilling : other.fill middle (action.movedHole term first second) = .ok final)
    (supplied : term.supplies = .ok supplies) (resupplied : middle.supplies = .ok after) :
    final.outline = term.plugBoth first (action.outline supplies.vars.next) second
      (other.outline after.vars.next) := by
  have middleDistinct := nodup_holes_of_fill distinct firstMember filling
  have movedMember :=
    movedHole_mem_holes distinct firstMember filling secondMember differ
  obtain ⟨parts, rfl, fragment, moved⟩ :=
    exists_plug_of_fill distinct firstMember filling supplied
  obtain ⟨laterParts, rfl, laterFragment, kept⟩ :=
    exists_plug_of_fill middleDistinct movedMember refilling resupplied
  -- The holes of different parts are different, so one part only meets the second action.
  have apart (name : HoleName) (occurs : name ∈ term.holes) (isOther : name ≠ second) :
      ∀ hole ∈ (parts name).holes, (laterParts hole).outline = .hole ⟨0⟩ := by
    intro hole inside
    have disjoint := Term.disjoint_holes_of_nodup_plug middleDistinct occurs secondMember
      isOther
    rw [moved second secondMember differ.symm] at disjoint
    have differs : hole ≠ action.movedHole term first second := by
      rintro rfl
      exact disjoint inside (by simp)
    have present : hole ∈ (term.plug parts).holes := by
      rw [Term.holes_plug]
      exact List.mem_flatMap.mpr ⟨name, occurs, inside⟩
    rw [kept hole present differs, Term.outline_hole]
  rw [Term.plug_plug, Term.outline_plug, Term.plugBoth]
  apply Term.plug_congr
  intro name occurs
  by_cases isFirst : name = first
  · subst isFirst
    rw [if_pos rfl, Term.outline_plug_holes (apart name occurs differ), fragment]
  · rw [if_neg isFirst]
    by_cases isSecond : name = second
    · rw [if_pos isSecond, isSecond, moved second secondMember differ.symm, Term.plug,
        laterFragment]
    · rw [if_neg isSecond, Term.outline_plug_holes (apart name occurs isSecond),
        moved name occurs isFirst, Term.outline_hole]

end Action

namespace EditorState

/-! ## Selecting and putting -/

variable {state : EditorState} {inference : Inference}

theorem run_append_eq (state : EditorState) (first second : List Transition) :
    state.run (first ++ second) = (state.run first).bind fun middle => middle.run second := by
  rw [run, List.foldlM_append]
  rfl

/-- Unless the names run out, an action can be put into a hole if the program is well
typed after it. -/
theorem Consistent.exhausted_or_exists_fill (consistent : state.Consistent inference)
    {hole : HoleName} (member : hole ∈ state.term.holes) (action : Action) :
    state.run [.select hole, .put action] = .error .exhausted ∨
      ∃ filled, action.fill state.term hole = .ok filled ∧
        ∀ ty, filled.HasType .empty ty →
          ∃ next nextInference, state.run [.select hole, .put action] = .ok next ∧
            next.term = filled ∧ next.Consistent nextInference := by
  obtain ⟨ty, context, known, focusOn⟩ := consistent.exists_focusOn_eq member
  cases listed : candidates state.term hole ty context state.options.variableCheck with
  | error failure =>
      obtain rfl := known.candidates_eq_error listed
      have selected : state.select hole = .error .exhausted := by
        rw [consistent.select_eq, if_pos member, focusOn, listed]
        rfl
      exact .inl (by simp [run, update, selected, bind, Except.bind])
  | ok actions =>
      obtain ⟨filled, filling, accepted, rejected⟩ := known.exists_fill listed action
      refine .inr ⟨filled, filling, fun filledTy typed => ?_⟩
      have inferred : ∃ result, infer filled = .ok result := by
        rcases infer_exhausted_or_exists_infer_iff filled with ⟨exhausted, -⟩ | typable
        · by_cases offered : action ∈ actions
          · exact accepted.mp offered
          · obtain ⟨error, illTyped⟩ := rejected.mp offered
            simp [exhausted] at illTyped
        · exact typable.mpr ⟨filledTy, typed⟩
      obtain ⟨result, inferred⟩ := inferred
      exact consistent.exists_select_put member (known.affordable listed) filling inferred

theorem Consistent.exists_of_select_put (consistent : state.Consistent inference)
    {hole : HoleName} {action : Action} {next : EditorState}
    (taken : state.run [.select hole, .put action] = .ok next) :
    ∃ filled result, action.fill state.term hole = .ok filled ∧
      next = { state with term := filled, ty := result.ty, focus := none } ∧
      next.Consistent result := by
  cases selected : state.select hole with
  | error failure => simp [run, update, selected, bind, Except.bind] at taken
  | ok middle =>
      have put : middle.put action = .ok next := by
        cases put : middle.put action <;>
          simp_all [run, update, bind, Except.bind, pure, Except.pure]
      obtain ⟨member, focus, rfl, rfl⟩ := consistent.exists_of_select_eq_ok selected
      obtain ⟨_, filled, result, ⟨rfl⟩, -, filling, inferred, rfl⟩ :=
        exists_of_put_eq_ok put
      exact ⟨filled, result, filling, rfl,
        Action.nodup_holes_of_fill consistent.distinct member filling, inferred, rfl,
        by simp⟩

/-! ## Two actions -/

/-- Put an action into a hole, and then another one into a second hole, which has got
a new name by that. -/
def fillInTurn (state : EditorState) (first : HoleName) (action : Action)
    (second : HoleName) (other : Action) : Except EditFailure EditorState :=
  state.run [.select first, .put action,
    .select (action.movedHole state.term first second), .put other]

/-- What two actions make of a state.  The second one takes `binder` for a new
variable, if it needs one. -/
structure FilledInTurn (state : EditorState) (first : HoleName) (action : Action)
    (second : HoleName) (other : Action) (supplies : Supplies) (binder : VarName)
    (final : EditorState) : Prop where
  index : binder.index.toNat =
    if action = .abstraction then supplies.vars.count + 1 else supplies.vars.count
  outline : final.term.outline = state.term.plugBoth first
    (action.outline supplies.vars.next) second (other.outline binder)
  binders : final.term.binders.Perm (state.term.binders ++
    (action.outline supplies.vars.next).binders ++ (other.outline binder).binders)
  inOrder : final.term.HolesInOrder
  inferred : ∃ inference, infer final.term = .ok inference ∧
    final = { state with term := final.term, ty := inference.ty, focus := none }

section InTurn

variable {first second : HoleName} {action other : Action}

theorem fillInTurn_eq (state : EditorState) (first : HoleName) (action : Action)
    (second : HoleName) (other : Action) :
    state.fillInTurn first action second other =
      (state.run [.select first, .put action]).bind fun middle => middle.run
        [.select (action.movedHole state.term first second), .put other] :=
  state.run_append_eq [.select first, .put action] _

theorem Consistent.exists_filledInTurn (consistent : state.Consistent inference)
    (firstMember : first ∈ state.term.holes) (secondMember : second ∈ state.term.holes)
    (differ : first ≠ second) {final : EditorState}
    (taken : state.fillInTurn first action second other = .ok final) :
    ∃ supplies binder, state.term.supplies = .ok supplies ∧
      FilledInTurn state first action second other supplies binder final := by
  rw [fillInTurn_eq] at taken
  cases firstTaken : state.run [.select first, .put action] with
  | error failure => simp [firstTaken, Except.bind] at taken
  | ok middle =>
      rw [firstTaken] at taken
      obtain ⟨filled, filledInference, filling, rfl, middleConsistent⟩ :=
        consistent.exists_of_select_put firstTaken
      obtain ⟨refilled, result, refilling, rfl, finalConsistent⟩ :=
        middleConsistent.exists_of_select_put taken
      have movedMember := Action.movedHole_mem_holes consistent.distinct firstMember filling
        secondMember differ
      obtain ⟨supplies, supplied⟩ := Action.exists_supplies_of_fill firstMember filling
      obtain ⟨after, resupplied⟩ := Action.exists_supplies_of_fill movedMember refilling
      have closed := Inference.freeOccurrences_eq_nil middleConsistent.inferred
      have binders :=
        Action.binders_of_fill consistent.distinct firstMember filling supplied
      have laterBinders :=
        Action.binders_of_fill middleConsistent.distinct movedMember refilling resupplied
      exact ⟨supplies, after.vars.next, supplied, {
        index := Action.count_vars_of_fill consistent.distinct firstMember filling closed
          supplied resupplied
        outline := Action.outline_of_fills consistent.distinct firstMember secondMember
          differ filling refilling supplied resupplied
        binders := laterBinders.trans (binders.append_right _)
        inOrder := Action.holesInOrder_of_fill middleConsistent.distinct movedMember
          refilling
        inferred := ⟨result, finalConsistent.inferred, rfl⟩ }⟩

/-- Two actions can be put if the program with both of their fragments is well typed. -/
theorem Consistent.exists_fillInTurn (consistent : state.Consistent inference)
    (firstMember : first ∈ state.term.holes) (secondMember : second ∈ state.term.holes)
    (differ : first ≠ second)
    (enough : state.fillInTurn first action second other ≠ .error .exhausted)
    {left right : VarName} {ty : Ty}
    (typed : (state.term.plugBoth first (action.outline left) second
      (other.outline right)).HasType .empty ty) :
    ∃ final, state.fillInTurn first action second other = .ok final := by
  rw [fillInTurn_eq] at enough ⊢
  rcases consistent.exhausted_or_exists_fill firstMember action with
    exhausted | ⟨filled, filling, fits⟩
  · simp [exhausted, Except.bind] at enough
  · obtain ⟨supplies, supplied⟩ := Action.exists_supplies_of_fill firstMember filling
    have filledTyped : filled.HasType .empty ty := by
      rw [← Term.hasType_outline_iff,
        Action.outline_of_fill consistent.distinct firstMember filling supplied second]
      exact typed.plugBoth (action.hasType_outline _ _) fun _ _ _ => .hole
    obtain ⟨middle, middleInference, firstTaken, rfl, middleConsistent⟩ :=
      fits ty filledTyped
    rw [firstTaken] at enough ⊢
    have movedMember := Action.movedHole_mem_holes consistent.distinct firstMember filling
      secondMember differ
    rcases middleConsistent.exhausted_or_exists_fill movedMember other with
      exhausted | ⟨refilled, refilling, laterFits⟩
    · exact absurd exhausted enough
    · obtain ⟨after, resupplied⟩ := Action.exists_supplies_of_fill movedMember refilling
      have refilledTyped : refilled.HasType .empty ty := by
        rw [← Term.hasType_outline_iff, Action.outline_of_fills consistent.distinct
          firstMember secondMember differ filling refilling supplied resupplied]
        exact typed.plugBoth (action.hasType_outline _ _) (other.hasType_outline _ _)
      obtain ⟨final, -, taken, -⟩ := laterFits ty refilledTyped
      exact ⟨final, taken⟩

theorem Consistent.exists_fillInTurn_of_swapped (consistent : state.Consistent inference)
    (firstMember : first ∈ state.term.holes) (secondMember : second ∈ state.term.holes)
    (differ : first ≠ second)
    (enough : state.fillInTurn first action second other ≠ .error .exhausted)
    {final : EditorState}
    (taken : state.fillInTurn second other first action = .ok final) :
    ∃ final, state.fillInTurn first action second other = .ok final := by
  obtain ⟨supplies, binder, -, filled⟩ :=
    consistent.exists_filledInTurn secondMember firstMember differ.symm taken
  obtain ⟨result, inferred, -⟩ := filled.inferred
  have typed := Inference.hasType inferred
  rw [← Term.hasType_outline_iff, filled.outline, Term.plugBoth_comm differ.symm] at typed
  exact consistent.exists_fillInTurn firstMember secondMember differ enough typed

end InTurn

namespace FilledInTurn

variable {first second : HoleName} {action other : Action} {supplies : Supplies}
  {binder otherBinder : VarName} {forward backward : EditorState}

theorem hasType_of_swapped
    (there : FilledInTurn state first action second other supplies binder forward)
    (back : FilledInTurn state second other first action supplies otherBinder backward)
    (differ : first ≠ second) {ty : Ty} (typed : backward.term.HasType .empty ty) :
    forward.term.HasType .empty ty := by
  rw [← Term.hasType_outline_iff, back.outline, Term.plugBoth_comm differ.symm] at typed
  rw [← Term.hasType_outline_iff, there.outline]
  exact typed.plugBoth (action.hasType_outline _ _) (other.hasType_outline _ _)

theorem ty_eq
    (there : FilledInTurn state first action second other supplies binder forward)
    (back : FilledInTurn state second other first action supplies otherBinder backward)
    (differ : first ≠ second) : forward.ty = backward.ty := by
  obtain ⟨inference, inferred, final⟩ := there.inferred
  obtain ⟨otherInference, otherInferred, otherFinal⟩ := back.inferred
  rw [final, otherFinal]
  exact Inference.ty_eq_of_hasType_iff inferred otherInferred fun ty =>
    ⟨back.hasType_of_swapped there differ.symm, there.hasType_of_swapped back differ⟩

/-- The states differ at most in their programs. -/
theorem eq_of_swapped
    (there : FilledInTurn state first action second other supplies binder forward)
    (back : FilledInTurn state second other first action supplies otherBinder backward)
    (differ : first ≠ second) : backward = { forward with term := backward.term } := by
  have types := there.ty_eq back differ
  obtain ⟨inference, -, final⟩ := there.inferred
  obtain ⟨otherInference, -, otherFinal⟩ := back.inferred
  rw [final, otherFinal] at types
  rw [final, otherFinal]
  simpa using types.symm

/-- At most one of the actions is an abstraction, so the next variable is the same for
it in both orders. -/
theorem term_eq
    (there : FilledInTurn state first action second other supplies binder forward)
    (back : FilledInTurn state second other first action supplies otherBinder backward)
    (differ : first ≠ second)
    (notBoth : ¬(action = .abstraction ∧ other = .abstraction)) :
    backward.term = forward.term := by
  refine back.inOrder.eq_of_outline there.inOrder ?_
  rw [there.outline, back.outline, Term.plugBoth_comm differ.symm]
  by_cases isAbstraction : action = .abstraction
  · have isOther : other ≠ .abstraction := fun both => notBoth ⟨isAbstraction, both⟩
    have same : otherBinder = supplies.vars.next :=
      Name.index_injective (back.index.trans (if_neg isOther))
    rw [same, Action.outline_eq_of_ne isOther]
  · have same : binder = supplies.vars.next :=
      Name.index_injective (there.index.trans (if_neg isAbstraction))
    rw [same, Action.outline_eq_of_ne isAbstraction]

theorem exists_exchanged
    (there : FilledInTurn state first .abstraction second .abstraction supplies binder
      forward)
    (back : FilledInTurn state second .abstraction first .abstraction supplies otherBinder
      backward)
    (differ : first ≠ second) (supplied : state.term.supplies = .ok supplies) :
    ∃ left right, left ≠ right ∧ left ∉ state.term.vars ∧ right ∉ state.term.vars ∧
      forward.term.binders.Perm
        (state.term.binders ++ [⟨left, none⟩, ⟨right, none⟩]) ∧
      backward.term = forward.term.mapVars (Equiv.swap left right) := by
  have index : binder.index.toNat = supplies.vars.count + 1 := there.index
  have same : otherBinder = binder :=
    Name.index_injective (back.index.trans there.index.symm)
  have newer : binder ∉ state.term.vars := by
    intro member
    have below := (Term.count_vars_le_iff supplied).mp (Nat.le_refl _) binder member
    omega
  have fresh := Term.next_not_mem_vars supplied
  refine ⟨supplies.vars.next, binder, ?_, fresh, newer, ?_, ?_⟩
  · intro equal
    rw [← equal] at index
    exact absurd index (by simp [NameSupply.count])
  · simpa [Action.outline] using there.binders
  · -- Both variables are new, so exchanging them leaves the old program alone.
    have fixed : ∀ name ∈ state.term.vars,
        Equiv.swap supplies.vars.next binder name = name := fun name member =>
      Equiv.swap_apply_of_ne_of_ne (ne_of_mem_of_not_mem member fresh)
        (ne_of_mem_of_not_mem member newer)
    refine back.inOrder.eq_of_outline (there.inOrder.mapVars _) ?_
    rw [Term.outline_mapVars, there.outline, Term.mapVars_plugBoth fixed, back.outline,
      Term.plugBoth_comm differ.symm, same]
    simp [Action.outline, Term.mapVars]

end FilledInTurn

/-- Unless the names run out, two actions can be put into different holes in one order
exactly if they can in the other one.  The final states are the same, but if both
actions are abstractions, their new variables are exchanged. -/
theorem actions_commute (reachable : state.Reachable) {first second : HoleName}
    (firstMember : first ∈ state.term.holes) (secondMember : second ∈ state.term.holes)
    (differ : first ≠ second) (action other : Action)
    (enough : state.fillInTurn first action second other ≠ .error .exhausted)
    (enoughBack : state.fillInTurn second other first action ≠ .error .exhausted) :
    ((∃ final, state.fillInTurn first action second other = .ok final) ↔
      ∃ final, state.fillInTurn second other first action = .ok final) ∧
    ∀ forward backward, state.fillInTurn first action second other = .ok forward →
      state.fillInTurn second other first action = .ok backward →
      (¬(action = .abstraction ∧ other = .abstraction) → backward = forward) ∧
      (action = .abstraction ∧ other = .abstraction →
        ∃ left right, left ≠ right ∧ left ∉ state.term.vars ∧ right ∉ state.term.vars ∧
          forward.term.binders.Perm
            (state.term.binders ++ [⟨left, none⟩, ⟨right, none⟩]) ∧
          backward = { forward with
            term := forward.term.mapVars (Equiv.swap left right) }) := by
  obtain ⟨inference, consistent⟩ := reachable.consistent
  refine ⟨⟨?_, ?_⟩, ?_⟩
  · rintro ⟨final, taken⟩
    exact consistent.exists_fillInTurn_of_swapped secondMember firstMember differ.symm
      enoughBack taken
  · rintro ⟨final, taken⟩
    exact consistent.exists_fillInTurn_of_swapped firstMember secondMember differ enough taken
  · intro forward backward forwardTaken backwardTaken
    obtain ⟨supplies, binder, supplied, there⟩ :=
      consistent.exists_filledInTurn firstMember secondMember differ forwardTaken
    obtain ⟨sameSupplies, otherBinder, sameSupplied, back⟩ :=
      consistent.exists_filledInTurn secondMember firstMember differ.symm backwardTaken
    obtain rfl := Except.ok.inj (sameSupplied.symm.trans supplied)
    have states := there.eq_of_swapped back differ
    constructor
    · intro notBoth
      rw [states, there.term_eq back differ notBoth]
    · rintro ⟨rfl, rfl⟩
      obtain ⟨left, right, differs, leftNew, rightNew, binders, exchanged⟩ :=
        there.exists_exchanged back differ supplied
      refine ⟨left, right, differs, leftNew, rightNew, binders, ?_⟩
      rw [states, exchanged]

/-- A pair of holes below a labeled binder, with names that the editor would not give
them. -/
def openPair : EditorState where
  term := .abs ⟨⟨4⟩, some "n"⟩ (.pair (.hole ⟨5⟩) (.hole ⟨3⟩))
  ty := .arrow (.var ⟨0⟩) (.product (.var ⟨1⟩) (.var ⟨2⟩))
  focus := none
  options := { variableCheck := .byType, offerSelections := true }

/-- The pair with an abstraction in either hole. -/
def functionPair (left right : VarName) : EditorState where
  term := .abs ⟨⟨4⟩, some "n"⟩
    (.pair (.abs ⟨left, none⟩ (.hole ⟨0⟩)) (.abs ⟨right, none⟩ (.hole ⟨1⟩)))
  ty := .arrow (.var ⟨0⟩) (.product (.arrow (.var ⟨1⟩) (.var ⟨2⟩))
    (.arrow (.var ⟨3⟩) (.var ⟨4⟩)))
  focus := none
  options := openPair.options

/-- Two abstractions exchange their variables.  An application and a variable can be put
in either order, with the same result. -/
theorem actions_commute_openPair :
    openPair.fillInTurn ⟨3⟩ .abstraction ⟨5⟩ .abstraction = .ok (functionPair ⟨6⟩ ⟨5⟩) ∧
    openPair.fillInTurn ⟨5⟩ .abstraction ⟨3⟩ .abstraction = .ok (functionPair ⟨5⟩ ⟨6⟩) ∧
    (∃ left right, left ≠ right ∧
      (functionPair ⟨6⟩ ⟨5⟩).term.binders.Perm
        [⟨⟨4⟩, some "n"⟩, ⟨left, none⟩, ⟨right, none⟩] ∧
      functionPair ⟨5⟩ ⟨6⟩ = { functionPair ⟨6⟩ ⟨5⟩ with
        term := (functionPair ⟨6⟩ ⟨5⟩).term.mapVars (Equiv.swap left right) }) ∧
    ∃ final, openPair.fillInTurn ⟨3⟩ .application ⟨5⟩ (.var ⟨4⟩) = .ok final ∧
      openPair.fillInTurn ⟨5⟩ (.var ⟨4⟩) ⟨3⟩ .application = .ok final := by
  have reachable : openPair.Reachable :=
    .start (show start openPair.term openPair.options = .ok openPair by decide)
  have firstMember : ⟨3⟩ ∈ openPair.term.holes := by decide
  have secondMember : ⟨5⟩ ∈ openPair.term.holes := by decide
  have taken : openPair.fillInTurn ⟨3⟩ .abstraction ⟨5⟩ .abstraction =
      .ok (functionPair ⟨6⟩ ⟨5⟩) := by decide
  have takenBack : openPair.fillInTurn ⟨5⟩ .abstraction ⟨3⟩ .abstraction =
      .ok (functionPair ⟨5⟩ ⟨6⟩) := by decide
  refine ⟨taken, takenBack, ?_, ?_⟩
  · obtain ⟨-, same⟩ := actions_commute reachable firstMember secondMember (by decide)
      .abstraction .abstraction (by simp [taken]) (by simp [takenBack])
    obtain ⟨left, right, differ, -, -, binders, exchanged⟩ :=
      (same _ _ taken takenBack).2 ⟨rfl, rfl⟩
    exact ⟨left, right, differ, binders, exchanged⟩
  · obtain ⟨both, same⟩ := actions_commute reachable firstMember secondMember (by decide)
      .application (.var ⟨4⟩) (by decide) (by decide)
    have mixed : (openPair.fillInTurn ⟨3⟩ .application ⟨5⟩ (.var ⟨4⟩)).isOk = true := by
      decide
    cases forward : openPair.fillInTurn ⟨3⟩ .application ⟨5⟩ (.var ⟨4⟩) with
    | error failure => simp [forward, Except.isOk, Except.toBool] at mixed
    | ok final =>
        obtain ⟨other, backward⟩ := both.mp ⟨final, forward⟩
        obtain rfl := (same final other forward backward).1 (by decide)
        exact ⟨other, rfl, backward⟩

end EditorState

end TypedHoles
