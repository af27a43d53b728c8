import TypedHoles.Proofs.CandidateAgreement
import TypedHoles.Proofs.Labels

/-!
# The states that the editor reaches

In every state that the editor reaches, the program is well typed and the focus
lists what it would list if it were computed again.  So no step finds the state
in disagreement with its program, and every step that a focus lists can be taken.
-/

namespace TypedHoles

theorem nodup_of_firstRepeated {kind : NameKind} {seen names : List (Name kind)}
    (none : firstRepeated seen names = none) :
    names.Nodup ∧ ∀ name ∈ names, name ∉ seen := by
  induction names generalizing seen with
  | nil => simp
  | cons name names ih =>
      rw [firstRepeated] at none
      split at none
      · simp at none
      · next fresh =>
        obtain ⟨nodup, unseen⟩ := ih none
        grind

namespace EditorState

/-- The state after a step, which stays the same if the step fails. -/
def attempt (state : EditorState) (transition : Transition) : EditorState :=
  match state.update transition with
  | .ok next => next
  | .error _ => state

/-- The states that can be reached from one that the editor accepts. -/
inductive Reachable : EditorState → Prop
  | start {term : Term} {options : EditorOptions} {state : EditorState}
      (accepted : start term options = .ok state) : Reachable state
  | ofSnapshot {snapshot : Snapshot} {state : EditorState}
      (accepted : ofSnapshot snapshot = .ok state) : Reachable state
  | attempt {state : EditorState} (earlier : Reachable state)
      (transition : Transition) : Reachable (state.attempt transition)

/-- An action that is put was offered, and the program is well typed after it. -/
theorem exists_of_put_eq_ok {state next : EditorState} {action : Action}
    (taken : state.put action = .ok next) :
    ∃ focus filled inference, state.focus = some focus ∧ focus.offers action = true ∧
      action.fill state.term focus.hole = .ok filled ∧ infer filled = .ok inference ∧
      next = { state with term := filled, ty := inference.ty, focus := none } := by
  cases focused : state.focus with
  | none => simp [put, focused] at taken
  | some focus =>
      cases offered : focus.offers action with
      | false => simp [put, focused, offered] at taken
      | true =>
          cases filling : action.fill state.term focus.hole with
          | error reason => simp [put, focused, offered, filling] at taken
          | ok filled =>
              simp only [put, focused, offered, filling, if_true] at taken
              split at taken
              · next inference inferred =>
                exact ⟨focus, filled, inference, rfl, offered, filling, inferred,
                  (Except.ok.inj taken).symm⟩
              · simp at taken
              · simp at taken

theorem exists_of_relabel_eq_ok {state next : EditorState} {name : VarName}
    {label : Option String} (taken : state.relabel name label = .ok next) :
    ∃ relabeled, state.term.relabel? name label = some relabeled ∧
      next = { state with term := relabeled } := by
  rw [relabel] at taken
  split at taken
  · next relabeled found => exact ⟨relabeled, found, (Except.ok.inj taken).symm⟩
  · simp at taken

/-- A state agrees with its program, of which `inference` is the inference. -/
structure Consistent (state : EditorState) (inference : Inference) : Prop where
  distinct : state.term.holes.Nodup
  inferred : infer state.term = .ok inference
  ty_eq : state.ty = inference.ty
  focused : ∀ focus, state.focus = some focus →
    focus.hole ∈ state.term.holes ∧ state.focusOn inference focus.hole = .ok focus

namespace Consistent

variable {state : EditorState} {inference : Inference}

/-- The focus on a hole of the program fails only for want of candidates. -/
theorem exists_focusOn_eq (consistent : state.Consistent inference) {hole : HoleName}
    (member : hole ∈ state.term.holes) :
    ∃ ty context, InferredHole state.term hole ty context ∧
      state.focusOn inference hole =
        (candidates state.term hole ty context state.options.variableCheck).map
          fun actions => {
            hole, ty, context
            transitions := actions.map .put ++
              (if state.options.offerSelections then
                inference.holes.filter (· ≠ hole)
              else
                []).map .select } := by
  obtain ⟨ty, context, holeType, holeContext, known⟩ :=
    exists_inferredHole consistent.distinct consistent.inferred member
  refine ⟨ty, context, known, ?_⟩
  simp only [focusOn, holeType, holeContext]
  cases candidates state.term hole ty context state.options.variableCheck <;> rfl

theorem select_eq (consistent : state.Consistent inference) (hole : HoleName) :
    state.select hole =
      if hole ∈ state.term.holes then
        (state.focusOn inference hole).map fun focus =>
          { state with focus := some focus }
      else
        .error (.refused (.unknownHole hole)) := by
  have known : state.inference = .ok inference := by
    rw [EditorState.inference, consistent.inferred]
  simp only [select, Term.hasHole, List.contains_iff_mem, known]
  split
  · cases focused : state.focusOn inference hole <;>
      simp [focused, bind, Except.bind, Except.map, pure, Except.pure]
  · rfl

theorem focusOn_eq_ok (consistent : state.Consistent inference) {hole : HoleName}
    (member : hole ∈ state.term.holes) {focus : Focus}
    (found : state.focusOn inference hole = .ok focus) :
    focus.hole = hole ∧ ∃ actions,
      InferredHole state.term hole focus.ty focus.context ∧
      candidates state.term hole focus.ty focus.context
        state.options.variableCheck = .ok actions ∧
      focus.transitions = actions.map .put ++
        (if state.options.offerSelections then
          inference.holes.filter (· ≠ hole)
        else
          []).map .select := by
  obtain ⟨ty, context, known, focusOn⟩ := consistent.exists_focusOn_eq member
  rw [focusOn] at found
  cases listed : candidates state.term hole ty context state.options.variableCheck with
  | error failure => simp [listed, Except.map] at found
  | ok actions =>
      rw [listed] at found
      obtain rfl := Except.ok.inj found
      exact ⟨rfl, actions, known, listed, rfl⟩

theorem focused_eq (consistent : state.Consistent inference) {focus : Focus}
    (focused : state.focus = some focus) :
    ∃ actions, InferredHole state.term focus.hole focus.ty focus.context ∧
      candidates state.term focus.hole focus.ty focus.context
        state.options.variableCheck = .ok actions ∧
      focus.transitions = actions.map .put ++
        (if state.options.offerSelections then
          inference.holes.filter (· ≠ focus.hole)
        else
          []).map .select := by
  obtain ⟨member, current⟩ := consistent.focused focus focused
  exact (consistent.focusOn_eq_ok member current).2

theorem fits_of_offered (consistent : state.Consistent inference) {focus : Focus}
    (focused : state.focus = some focus) {action : Action}
    (offered : .put action ∈ focus.transitions) :
    action.fits state.term focus.hole = .ok true := by
  obtain ⟨actions, known, listed, transitions⟩ := consistent.focused_eq focused
  have member : action ∈ actions := by simpa [transitions] using offered
  rw [(known.candidates_eq_ok_iff.mp listed).2] at member
  simpa using (List.mem_filter.mp member).2

theorem exists_put (consistent : state.Consistent inference) {focus : Focus}
    (focused : state.focus = some focus) {action : Action}
    (offered : .put action ∈ focus.transitions) :
    ∃ next nextInference, state.put action = .ok next ∧
      next.Consistent nextInference := by
  have fits := consistent.fits_of_offered focused offered
  obtain ⟨filled, inferred, filling, typed⟩ := Action.exists_of_fits_eq_true fits
  have isOffered : focus.offers action = true := by simpa [Focus.offers] using offered
  refine ⟨{ state with term := filled, ty := inferred.ty, focus := none }, inferred,
    ?_, ?_⟩
  · simp only [put, focused, isOffered, filling, typed, if_true]
  · exact ⟨Action.nodup_holes_of_fill consistent.distinct
        (consistent.focused focus focused).1 filling,
      typed, rfl, fun focus absent => nomatch absent⟩

theorem exists_select (consistent : state.Consistent inference) {focus : Focus}
    (focused : state.focus = some focus) {hole : HoleName}
    (listed : .select hole ∈ focus.transitions) :
    ∃ next, state.select hole = .ok next := by
  obtain ⟨actions, known, candidates, transitions⟩ := consistent.focused_eq focused
  have other : hole ∈ inference.holes := by
    rw [transitions] at listed
    split at listed
    · simp at listed
      exact listed.1
    · simp at listed
  have member := (Inference.mem_holes_iff consistent.inferred).mp other
  obtain ⟨ty, context, otherKnown, focusOn⟩ := consistent.exists_focusOn_eq member
  -- The names suffice at the selected hole, and it does not matter which hole it is.
  obtain ⟨otherActions, otherCandidates⟩ := otherKnown.exists_candidates
    (known.affordable_of_candidates candidates) state.options.variableCheck
  rw [consistent.select_eq, if_pos member, focusOn, otherCandidates]
  exact ⟨_, rfl⟩

/-! ## Steps -/

/-- What is known about a hole does not depend on labels. -/
theorem focusOn_of_unlabeled_eq {relabeled : Term} {next : Inference}
    (same : relabeled.unlabeled = state.term.unlabeled)
    (sameInference : next.unlabeled = inference.unlabeled) (hole : HoleName) :
    focusOn { state with term := relabeled } next hole = state.focusOn inference hole := by
  obtain ⟨-, -, sameTypes, sameContexts⟩ := Inference.mk.inj sameInference
  have sameCandidates (ty : Ty) (context : Context) :
      candidates relabeled hole ty context state.options.variableCheck =
        candidates state.term hole ty context state.options.variableCheck := by
    rw [← candidates_unlabeled, same, candidates_unlabeled]
  rw [focusOn, focusOn]
  simp only [Inference.holeType?, Inference.holeContext?, Inference.holes, sameTypes,
    sameContexts, sameCandidates]

theorem relabeled (consistent : state.Consistent inference) {relabeled : Term}
    (same : relabeled.unlabeled = state.term.unlabeled) :
    ∃ next, next.unlabeled = inference.unlabeled ∧
      Consistent { state with term := relabeled } next := by
  have sameHoles : relabeled.holes = state.term.holes := by
    rw [← Term.holes_unlabeled, same, Term.holes_unlabeled]
  obtain ⟨next, inferred, unlabeled⟩ :=
    exists_infer_of_unlabeled_eq same consistent.inferred
  obtain ⟨-, sameTy, -, -⟩ := Inference.mk.inj unlabeled
  refine ⟨next, unlabeled, sameHoles ▸ consistent.distinct, inferred,
    consistent.ty_eq.trans sameTy.symm, ?_⟩
  intro focus focused
  obtain ⟨member, current⟩ := consistent.focused focus focused
  -- The focus is older than the label, but it would be the same if computed now.
  exact ⟨sameHoles ▸ member, (focusOn_of_unlabeled_eq same unlabeled _).trans current⟩

end Consistent

/-- A result that does not find a state in disagreement with its program: a state
that agrees with its program, a refusal, or a want of names. -/
def Safe : Except EditFailure EditorState → Prop
  | .ok state => ∃ inference, state.Consistent inference
  | .error failure => ∀ reason, failure ≠ .breach reason

section Steps

variable {state : EditorState} {inference : Inference}

theorem Consistent.select_safe (consistent : state.Consistent inference)
    (hole : HoleName) : Safe (state.select hole) := by
  rw [consistent.select_eq]
  split
  · next member =>
    obtain ⟨ty, context, known, focusOn⟩ := consistent.exists_focusOn_eq member
    cases focused : state.focusOn inference hole with
    | ok focus =>
        refine ⟨inference, consistent.distinct, consistent.inferred,
          consistent.ty_eq, ?_⟩
        rintro _ ⟨rfl⟩
        obtain ⟨isHole, -⟩ := consistent.focusOn_eq_ok member focused
        rw [isHole]
        exact ⟨member, focused⟩
    | error failure =>
        rw [focusOn] at focused
        cases listed : candidates state.term hole ty context
            state.options.variableCheck with
        | ok actions => simp [listed, Except.map] at focused
        | error reason =>
            obtain rfl : reason = failure := by simpa [listed, Except.map] using focused
            rw [known.candidates_eq_error listed]
            intro breach
            simp
  · intro reason
    simp

theorem Consistent.put_safe (consistent : state.Consistent inference)
    (action : Action) : Safe (state.put action) := by
  cases focused : state.focus with
  | none =>
      rw [put, focused]
      intro reason
      simp
  | some focus =>
      by_cases offered : .put action ∈ focus.transitions
      · obtain ⟨next, nextInference, taken, nextConsistent⟩ :=
          consistent.exists_put focused offered
        rw [taken]
        exact ⟨nextInference, nextConsistent⟩
      · have isNotOffered : focus.offers action = false := by
          simpa [Focus.offers] using offered
        simp only [put, focused, isNotOffered]
        intro reason
        simp

theorem Consistent.relabel_safe (consistent : state.Consistent inference)
    (name : VarName) (label : Option String) : Safe (state.relabel name label) := by
  rw [EditorState.relabel]
  cases found : state.term.relabel? name label with
  | some relabeled =>
      obtain ⟨next, -, nextConsistent⟩ :=
        consistent.relabeled (Term.unlabeled_relabel? found)
      exact ⟨next, nextConsistent⟩
  | none =>
      intro reason
      simp

theorem Consistent.update_safe (consistent : state.Consistent inference)
    (transition : Transition) : Safe (state.update transition) := by
  cases transition with
  | select hole => exact consistent.select_safe hole
  | put action => exact consistent.put_safe action
  | relabel name label => exact consistent.relabel_safe name label

theorem Consistent.attempt (consistent : state.Consistent inference)
    (transition : Transition) :
    ∃ nextInference, (state.attempt transition).Consistent nextInference := by
  have safe := consistent.update_safe transition
  rw [EditorState.attempt]
  cases updated : state.update transition with
  | ok next =>
      rw [updated] at safe
      exact safe
  | error failure => exact ⟨inference, consistent⟩

theorem start_safe (term : Term) (options : EditorOptions) :
    Safe (start term options) := by
  rw [start]
  split
  · intro reason
    simp
  · next none =>
    split
    · next inference inferred =>
      exact ⟨inference, (nodup_of_firstRepeated none).1, inferred, rfl,
        fun focus focused => nomatch focused⟩
    · intro reason
      simp
    · intro reason
      simp

theorem ofSnapshot_safe (snapshot : Snapshot) : Safe (ofSnapshot snapshot) := by
  have safe := start_safe snapshot.term snapshot.options
  rw [ofSnapshot]
  cases started : start snapshot.term snapshot.options with
  | error failure =>
      rw [started] at safe
      exact safe
  | ok initial =>
      rw [started] at safe
      obtain ⟨inference, consistent⟩ := safe
      cases snapshot.hole with
      | none => exact ⟨inference, consistent⟩
      | some hole => exact consistent.select_safe hole

end Steps

/-- A state that the editor reaches agrees with its program. -/
theorem Reachable.consistent {state : EditorState} (reachable : state.Reachable) :
    ∃ inference, state.Consistent inference := by
  induction reachable with
  | @start term options _ accepted =>
      have safe := start_safe term options
      rw [accepted] at safe
      exact safe
  | @ofSnapshot snapshot _ accepted =>
      have safe := ofSnapshot_safe snapshot
      rw [accepted] at safe
      exact safe
  | attempt earlier transition ih =>
      obtain ⟨inference, consistent⟩ := ih
      exact consistent.attempt transition

/-- No step from a state that the editor reaches finds it in disagreement with its
program, and each step that its focus lists gives a new state. -/
theorem reachable_steps {state : EditorState} (reachable : state.Reachable) :
    (∀ transition reason, state.update transition ≠ .error (.breach reason)) ∧
    ∀ focus, state.focus = some focus → ∀ transition ∈ focus.transitions,
      ∃ next, state.update transition = .ok next := by
  obtain ⟨inference, consistent⟩ := reachable.consistent
  constructor
  · intro transition reason failed
    have safe := consistent.update_safe transition
    rw [failed] at safe
    exact safe reason rfl
  · intro focus focused transition listed
    cases transition with
    | select hole => exact consistent.exists_select focused listed
    | put action =>
        obtain ⟨next, -, taken, -⟩ := consistent.exists_put focused listed
        exact ⟨next, taken⟩
    | relabel name label =>
        obtain ⟨actions, -, -, transitions⟩ := consistent.focused_eq focused
        simp [transitions] at listed

/-- A pair of holes below a binder, of which the first is selected. -/
def selectedPair : EditorState where
  term := .abs ⟨⟨0⟩, none⟩ (.pair (.hole ⟨0⟩) (.hole ⟨1⟩))
  ty := .arrow (.var ⟨0⟩) (.product (.var ⟨1⟩) (.var ⟨2⟩))
  focus := some {
    hole := ⟨0⟩
    ty := .var ⟨1⟩
    context := ⟨[(⟨0⟩, .var ⟨0⟩)]⟩
    transitions := Action.constructors.map .put ++ [.put (.var ⟨0⟩), .select ⟨1⟩] }
  options := { variableCheck := .byType, offerSelections := true }

theorem reachable_steps_selectedPair :
    let state := selectedPair.attempt (.relabel ⟨0⟩ (some "n"))
    (∀ transition reason, state.update transition ≠ .error (.breach reason)) ∧
      (∃ next, state.update (.put (.var ⟨0⟩)) = .ok next) ∧
      ∃ next, state.update (.select ⟨1⟩) = .ok next := by
  have accepted : ofSnapshot selectedPair.snapshot = .ok selectedPair := by decide
  have reachable := (Reachable.ofSnapshot accepted).attempt (.relabel ⟨0⟩ (some "n"))
  obtain ⟨safe, listed⟩ := reachable_steps reachable
  exact ⟨safe, listed _ rfl _ (by decide), listed _ rfl _ (by decide)⟩

end EditorState

end TypedHoles
