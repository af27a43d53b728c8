import TypedHoles.Proofs.ReachableStates

/-!
# What the editor offers

When a hole is selected, the editor offers exactly the actions after which the
program is still well typed.  A variable is among them only if it is bound around
the hole, and then at the place of its innermost binder.  So the menu that the
editor goes through is long enough, although it is finite.
-/

namespace TypedHoles

/-! ## The binders around a hole -/

/-- The holes in order of traversal with the binders around them, the nearest first,
for a term that stands below the binders `around`. -/
def Term.holesBelow (around : List Binder) : Term → List (HoleName × List Binder)
  | unit => []
  | var _ => []
  | abs binder body => body.holesBelow (binder :: around)
  | app applicant argument =>
      applicant.holesBelow around ++ argument.holesBelow around
  | pair first second => first.holesBelow around ++ second.holesBelow around
  | proj1 argument => argument.holesBelow around
  | proj2 argument => argument.holesBelow around
  | hole name => [(name, around)]

/-- The context of a hole binds the variables of the binders around it. -/
theorem AnnotatedTerm.exists_mem_holesBelow {term : AnnotatedTerm} {context : Context}
    {around : List Binder} (same : context.scope = around.map Binder.name)
    {name : HoleName} {ty : Ty} {inner : Context}
    (member : (name, ty, inner) ∈ term.holesIn context) :
    ∃ binders, (name, binders) ∈ term.erase.holesBelow around ∧
      inner.scope = binders.map Binder.name := by
  induction term generalizing context around with
  | unit | var => simp [holesIn] at member
  | hole other stored =>
      simp only [holesIn, List.mem_singleton, Prod.mk.injEq] at member
      obtain ⟨rfl, rfl, rfl⟩ := member
      exact ⟨around, by simp [erase, Term.holesBelow], same⟩
  | abs binder domain body ih =>
      have extended : (context.extend binder.name domain).scope =
          (binder :: around).map Binder.name := by
        rw [List.map_cons, ← same]
        rfl
      exact ih extended member
  | app applicant argument stored applicantIh argumentIh =>
      rcases List.mem_append.mp member with member | member
      · obtain ⟨binders, found, scope⟩ := applicantIh same member
        exact ⟨binders, List.mem_append_left _ found, scope⟩
      · obtain ⟨binders, found, scope⟩ := argumentIh same member
        exact ⟨binders, List.mem_append_right _ found, scope⟩
  | pair first second stored firstIh secondIh =>
      rcases List.mem_append.mp member with member | member
      · obtain ⟨binders, found, scope⟩ := firstIh same member
        exact ⟨binders, List.mem_append_left _ found, scope⟩
      · obtain ⟨binders, found, scope⟩ := secondIh same member
        exact ⟨binders, List.mem_append_right _ found, scope⟩
  | proj1 argument stored second ih => exact ih same member
  | proj2 argument stored first ih => exact ih same member

/-! ## The order of the menu -/

/-- The entries that are not hidden stand in the order in which their keys first
occur. -/
theorem ShadowList.pairwise_unhidden {κ α : Type} [DecidableEq κ]
    (entries : List (κ × α)) :
    (unhidden entries).Pairwise fun earlier later =>
      (entries.map Prod.fst).idxOf earlier.1 <
        (entries.map Prod.fst).idxOf later.1 := by
  induction entries with
  | nil => exact .nil
  | cons entry older ih =>
      -- What is left of the older entries has other keys, all one place further on.
      have shifted (other : κ × α)
          (member : other ∈ (unhidden older).filter fun other => other.1 ≠ entry.1) :
          ((entry :: older).map Prod.fst).idxOf other.1 =
            (older.map Prod.fst).idxOf other.1 + 1 := by
        have differs : other.1 ≠ entry.1 := by
          simpa using (List.mem_filter.mp member).2
        rw [List.map_cons, List.idxOf_cons_ne _ differs.symm]
      rw [unhidden, List.pairwise_cons]
      constructor
      · intro other member
        rw [shifted other member, List.map_cons, List.idxOf_cons_self]
        omega
      · refine (ih.filter _).imp_of_mem ?_
        intro earlier later earlierMember laterMember before
        rw [shifted earlier earlierMember, shifted later laterMember]
        omega

/-- The place of an action in the menu for a hole around which the variables `scope`
are bound, the nearest first.  The constructors come first, and a variable stands
where its innermost binder does. -/
def Action.position (scope : List VarName) : Action → Nat
  | .var name => constructors.length + scope.idxOf name
  | action => constructors.idxOf action

theorem Action.position_constructor {action : Action}
    (isConstructor : action ∈ constructors) (scope : List VarName) :
    action.position scope = constructors.idxOf action := by
  cases action with
  | var name => simp [constructors] at isConstructor
  | unit | application | abstraction | pair | proj1 | proj2 => rfl

theorem Context.pairwise_actions (context : Context) :
    context.actions.Pairwise fun earlier later =>
      earlier.position context.scope < later.position context.scope := by
  rw [actions, List.pairwise_append, List.pairwise_map]
  refine ⟨?_, ?_, ?_⟩
  · have inOrder : Action.constructors.Pairwise fun earlier later =>
        Action.constructors.idxOf earlier < Action.constructors.idxOf later := by decide
    refine inOrder.imp_of_mem ?_
    intro earlier later earlierMember laterMember before
    rwa [Action.position_constructor earlierMember,
      Action.position_constructor laterMember]
  · refine (ShadowList.pairwise_unhidden context.entries).imp ?_
    intro nearer farther before
    exact Nat.add_lt_add_left before _
  · intro earlier isConstructor later isVariable
    obtain ⟨binding, -, rfl⟩ := List.mem_map.mp isVariable
    rw [Action.position_constructor isConstructor]
    exact Nat.lt_of_lt_of_le (List.idxOf_lt_length_iff.mpr isConstructor)
      (Nat.le_add_right _ _)

theorem Context.mem_scope_of_mem_actions {context : Context} {name : VarName}
    (member : .var name ∈ context.actions) : name ∈ context.scope := by
  obtain ⟨binding, bound⟩ : ∃ binding, (name, binding) ∈ context.bindings := by
    simpa [actions, Action.constructors] using member
  rw [← isSome_lookup_iff, mem_bindings_iff.mp bound, Option.isSome_some]

/-! ## The candidates are all actions that fit -/

theorem Action.Affordable.var {term : Term} (affordable : Action.unit.Affordable term)
    (name : VarName) : (Action.var name).Affordable term := by
  obtain ⟨supplies, fragment, rest, supplied, drawn, enough⟩ := affordable
  obtain ⟨rfl, -⟩ := EStateM.Result.ok.inj drawn
  exact ⟨supplies, .var name, supplies, supplied, rfl, enough⟩

namespace InferredHole

variable {term : Term} {hole : HoleName} {ty : Ty} {context : Context}
  {check : VariableCheck} {actions : List Action}

/-- The names suffice for all actions once they suffice for the constructors. -/
theorem affordable (known : InferredHole term hole ty context)
    (listed : candidates term hole ty context check = .ok actions) (action : Action) :
    action.Affordable term := by
  have constructors := known.affordable_of_candidates listed
  cases action with
  | var name => exact (constructors .unit (by decide)).var name
  | unit | application | abstraction | pair | proj1 | proj2 =>
      exact constructors _ (by decide)

/-- A variable that fits is bound around the hole. -/
theorem mem_actions_of_fits (known : InferredHole term hole ty context)
    {action : Action} (fits : action.fits term hole = .ok true) :
    action ∈ context.actions := by
  cases action with
  | unit | application | abstraction | pair | proj1 | proj2 =>
      exact List.mem_append_left _ (by decide)
  | var name =>
      obtain ⟨result, resultInference, filling, typed⟩ :=
        Action.exists_of_fits_eq_true fits
      obtain ⟨supplies, fragment, rest, filled, -, drawn, fills, -, rfl⟩ :=
        Action.exists_of_fill_eq_ok known.member filling
      obtain ⟨rfl, -⟩ := EStateM.Result.ok.inj drawn
      obtain ⟨-, typable⟩ := TypedHoles.exists_infer_iff.mp
        (Term.exists_infer_mapHoles_iff.mp ⟨_, typed⟩)
      obtain ⟨assignment, fragmentTyped⟩ :=
        (known.exists_hasType_filled_iff fills).mp typable
      -- The variable has a type in an instance of the context, so the context binds it.
      cases fragmentTyped with
      | var found =>
          rw [Context.lookup_instantiate, Option.map_eq_some_iff] at found
          obtain ⟨binding, bound, -⟩ := found
          exact List.mem_append_right _
            (List.mem_map.mpr ⟨_, Context.mem_bindings_iff.mpr bound, rfl⟩)

theorem mem_candidates_iff (known : InferredHole term hole ty context)
    (listed : candidates term hole ty context check = .ok actions) {action : Action} :
    action ∈ actions ↔ action.fits term hole = .ok true := by
  rw [(known.candidates_eq_ok_iff.mp listed).2, List.mem_filter, decide_eq_true_iff]
  exact and_iff_right_of_imp known.mem_actions_of_fits

/-- Every action can be put into the hole, and it is a candidate or makes the program
ill typed. -/
theorem exists_fill (known : InferredHole term hole ty context)
    (listed : candidates term hole ty context check = .ok actions) (action : Action) :
    ∃ filled, action.fill term hole = .ok filled ∧
      (action ∈ actions ↔ ∃ inference, infer filled = .ok inference) ∧
      (action ∉ actions ↔ ∃ error, infer filled = .error (.illTyped error)) := by
  obtain ⟨verdict, fits⟩ := (known.affordable listed action).exists_fits known.member
  obtain ⟨filled, filling, accepted, rejected⟩ := Action.exists_of_fits_eq_ok fits
  refine ⟨filled, filling, ?_, ?_⟩
  · rw [known.mem_candidates_iff listed, fits, Except.ok.injEq, accepted]
  · rw [known.mem_candidates_iff listed, fits, Except.ok.injEq, Bool.not_eq_true, rejected]

theorem mem_scope_of_mem_candidates (known : InferredHole term hole ty context)
    (listed : candidates term hole ty context check = .ok actions) {name : VarName}
    (member : .var name ∈ actions) : name ∈ context.scope := by
  rw [known.mem_candidates_iff listed] at member
  exact Context.mem_scope_of_mem_actions (known.mem_actions_of_fits member)

theorem pairwise_candidates (known : InferredHole term hole ty context)
    (listed : candidates term hole ty context check = .ok actions) :
    actions.Pairwise fun earlier later =>
      earlier.position context.scope < later.position context.scope := by
  rw [(known.candidates_eq_ok_iff.mp listed).2]
  exact context.pairwise_actions.filter _

theorem exists_mem_holesBelow (known : InferredHole term hole ty context) :
    ∃ binders, (hole, binders) ∈ term.holesBelow [] ∧
      context.scope = binders.map Binder.name := by
  obtain ⟨inference, inferred, member⟩ := known.exists_mem_holesIn
  rw [← (Inference.isPrincipal inferred).erases]
  exact AnnotatedTerm.exists_mem_holesBelow rfl member

end InferredHole

/-! ## The selected hole -/

theorem Focus.mem_actions_iff {focus : Focus} {action : Action} :
    action ∈ focus.actions ↔ focus.offers action = true := by
  rw [actions, List.mem_filterMap, offers, List.contains_iff_mem]
  constructor
  · rintro ⟨transition, listed, isPut⟩
    cases transition with
    | put other =>
        obtain rfl := Option.some.inj isPut
        exact listed
    | select | relabel => simp [putAction?] at isPut
  · exact fun listed => ⟨.put action, listed, rfl⟩

namespace EditorState

theorem put_eq_notOffered_iff {state : EditorState} {focus : Focus} {action : Action}
    (focused : state.focus = some focus) :
    state.put action = .error (.refused (.notOffered action)) ↔
      focus.offers action = false := by
  simp only [put, focused]
  by_cases offered : focus.offers action = true
  · -- An offered action may still fail, but not by this refusal.
    rw [if_pos offered]
    refine iff_of_false ?_ (by simp [offered])
    split
    · simp
    · split <;> simp
  · rw [if_neg offered]
    exact iff_of_true rfl (Bool.not_eq_true _ ▸ offered)

/-- The actions of a focus are the candidates for its hole. -/
theorem Consistent.candidates_eq {state : EditorState} {inference : Inference}
    (consistent : state.Consistent inference) {focus : Focus}
    (focused : state.focus = some focus) :
    InferredHole state.term focus.hole focus.ty focus.context ∧
      candidates state.term focus.hole focus.ty focus.context
        state.options.variableCheck = .ok focus.actions := by
  obtain ⟨actions, known, listed, transitions⟩ := consistent.focused_eq focused
  have same : focus.actions = actions := by
    simp [Focus.actions, transitions, Focus.putAction?, List.filterMap_map,
      Function.comp_def]
  exact ⟨known, same ▸ listed⟩

/-- Selecting a hole changes nothing but the focus. -/
theorem Consistent.exists_of_select_eq_ok {state next : EditorState}
    {inference : Inference} (consistent : state.Consistent inference) {hole : HoleName}
    (selected : state.select hole = .ok next) :
    hole ∈ state.term.holes ∧
      ∃ focus, focus.hole = hole ∧ next = { state with focus := some focus } := by
  rw [consistent.select_eq] at selected
  split at selected
  · next member =>
    cases focused : state.focusOn inference hole with
    | error failure => simp [focused, Except.map] at selected
    | ok focus =>
        rw [focused] at selected
        obtain rfl := Except.ok.inj selected
        exact ⟨member, focus, (consistent.focusOn_eq_ok member focused).1, rfl⟩
  · simp at selected

theorem Consistent.exists_focus_of_select {state next : EditorState}
    {inference : Inference} (consistent : state.Consistent inference) {hole : HoleName}
    (selected : state.select hole = .ok next) :
    next.term = state.term ∧ ∃ focus, next.focus = some focus ∧ focus.hole = hole := by
  obtain ⟨-, focus, isHole, rfl⟩ := consistent.exists_of_select_eq_ok selected
  exact ⟨rfl, focus, rfl, isHole⟩

/-- Selecting a hole offers exactly the actions after which the program is well typed,
each once and in the order of the menu.  Putting any other action is refused. -/
theorem select_offers_exactly {state next : EditorState} {hole : HoleName}
    (reachable : state.Reachable) (selected : state.select hole = .ok next) :
    next.term = state.term ∧
    ∃ focus binders, next.focus = some focus ∧ focus.hole = hole ∧
      (hole, binders) ∈ state.term.holesBelow [] ∧
      (∀ action, (action ∈ focus.actions ↔ focus.offers action = true) ∧
        ∃ filled, action.fill state.term hole = .ok filled ∧
          (focus.offers action = true ↔ ∃ inference, infer filled = .ok inference) ∧
          (next.put action = .error (.refused (.notOffered action)) ↔
            ∃ error, infer filled = .error (.illTyped error))) ∧
      (∀ name, .var name ∈ focus.actions → name ∈ binders.map Binder.name) ∧
      focus.actions.Nodup ∧
      focus.actions.Pairwise fun earlier later =>
        earlier.position (binders.map Binder.name) <
          later.position (binders.map Binder.name) := by
  obtain ⟨inference, consistent⟩ := reachable.consistent
  obtain ⟨sameTerm, focus, focused, rfl⟩ := consistent.exists_focus_of_select selected
  -- What the focus lists is known of the new state, whose program is the same.
  have safe := consistent.select_safe focus.hole
  rw [selected] at safe
  obtain ⟨nextInference, nextConsistent⟩ := safe
  obtain ⟨known, listed⟩ := nextConsistent.candidates_eq focused
  rw [sameTerm] at known listed
  obtain ⟨binders, around, scope⟩ := known.exists_mem_holesBelow
  have inOrder := known.pairwise_candidates listed
  rw [scope] at inOrder
  refine ⟨sameTerm, focus, binders, focused, rfl, around, ?_, ?_, ?_, inOrder⟩
  · intro action
    obtain ⟨filled, filling, accepted, rejected⟩ := known.exists_fill listed action
    refine ⟨Focus.mem_actions_iff, filled, filling, ?_, ?_⟩
    · rw [← Focus.mem_actions_iff, accepted]
    · rw [put_eq_notOffered_iff focused, ← Bool.not_eq_true, ← Focus.mem_actions_iff,
        rejected]
  · intro name offered
    rw [← scope]
    exact known.mem_scope_of_mem_candidates listed offered
  · refine inOrder.imp ?_
    rintro action _ before rfl
    exact Nat.lt_irrefl _ before

/-- A program in which the nearest variable hides the farthest one and is applied to a
hole. -/
def hidingArgument : EditorState where
  term := .abs ⟨⟨0⟩, none⟩ <| .abs ⟨⟨1⟩, none⟩ <| .abs ⟨⟨0⟩, none⟩ <|
    .app (.var ⟨0⟩) (.hole ⟨0⟩)
  ty := .arrow (.var ⟨0⟩) <| .arrow (.var ⟨1⟩) <|
    .arrow (.arrow (.var ⟨2⟩) (.var ⟨3⟩)) (.var ⟨3⟩)
  focus := none
  options := { variableCheck := .byType, offerSelections := true }

/-- The same program after its hole has been selected. -/
def hidingArgumentSelected : EditorState :=
  { hidingArgument with
    focus := some {
      hole := ⟨0⟩
      ty := .var ⟨2⟩
      context := ⟨[(⟨0⟩, .arrow (.var ⟨2⟩) (.var ⟨3⟩)), (⟨1⟩, .var ⟨1⟩),
        (⟨0⟩, .var ⟨0⟩)]⟩
      transitions := Action.constructors.map .put ++ [.put (.var ⟨1⟩)] } }

theorem select_offers_exactly_hidingArgument :
    hidingArgument.Reachable ∧
      hidingArgument.select ⟨0⟩ = .ok hidingArgumentSelected ∧
      (∃ filled inference,
        (Action.var ⟨1⟩).fill hidingArgument.term ⟨0⟩ = .ok filled ∧
          infer filled = .ok inference) ∧
      hidingArgumentSelected.put (.var ⟨0⟩) =
        .error (.refused (.notOffered (.var ⟨0⟩))) ∧
      hidingArgumentSelected.put (.var ⟨9⟩) =
        .error (.refused (.notOffered (.var ⟨9⟩))) := by
  have accepted : start hidingArgument.term hidingArgument.options =
      .ok hidingArgument := by decide
  have reachable := Reachable.start accepted
  have selected : hidingArgument.select ⟨0⟩ = .ok hidingArgumentSelected := by decide
  obtain ⟨-, focus, binders, focused, -, -, offers, -⟩ :=
    select_offers_exactly reachable selected
  obtain rfl := Option.some.inj focused
  refine ⟨reachable, selected, ?_, ?_, ?_⟩
  · obtain ⟨-, filled, filling, typed, -⟩ := offers (.var ⟨1⟩)
    obtain ⟨inference, inferred⟩ := typed.mp (by decide)
    exact ⟨filled, inference, filling, inferred⟩
  · obtain ⟨-, filled, filling, -, refused⟩ := offers (.var ⟨0⟩)
    obtain rfl := Except.ok.inj filling
    exact refused.mpr ⟨_, rfl⟩
  · obtain ⟨-, filled, filling, -, refused⟩ := offers (.var ⟨9⟩)
    obtain rfl := Except.ok.inj filling
    exact refused.mpr ⟨_, rfl⟩

end EditorState

end TypedHoles
