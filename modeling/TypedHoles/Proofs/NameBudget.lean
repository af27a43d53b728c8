import Mathlib.Algebra.Group.Nat.Defs
import TypedHoles.Proofs.NameDiscipline

/-!
# The names do not run out

A program that is built from one hole has no gaps between its names, so the next
variable and the next hole are numbered by what the program holds.  Each action that is
put adds at most one binder, one hole and two type variables.  Hence the names of all
kinds suffice for more than `2 ^ 30` actions, however many steps fail or do something
else in between.
-/

namespace TypedHoles

/-! ## The size of a well-named program -/

namespace Term

theorem length_binders_le_typeVarCount (term : Term) :
    term.binders.length ≤ term.typeVarCount := by
  induction term with
  | unit | var | hole => simp [typeVarCount]
  | abs binder body ih =>
      simp only [binders_abs, List.length_cons, typeVarCount]
      omega
  | app applicant argument applicantIh argumentIh =>
      simp only [binders_app, List.length_append, typeVarCount]
      omega
  | pair first second firstIh secondIh =>
      simp only [binders_pair, List.length_append, typeVarCount]
      omega
  | proj1 argument ih =>
      simp only [binders_proj1, typeVarCount]
      omega
  | proj2 argument ih =>
      simp only [binders_proj2, typeVarCount]
      omega

@[simp]
theorem typeVarCount_unlabeled (term : Term) :
    term.unlabeled.typeVarCount = term.typeVarCount := by
  induction term with
  | unit | var | hole => rfl
  | abs binder body ih => simp only [unlabeled, typeVarCount, ih]
  | app applicant argument applicantIh argumentIh =>
      simp only [unlabeled, typeVarCount, applicantIh, argumentIh]
  | pair first second firstIh secondIh =>
      simp only [unlabeled, typeVarCount, firstIh, secondIh]
  | proj1 argument ih => simp only [unlabeled, typeVarCount, ih]
  | proj2 argument ih => simp only [unlabeled, typeVarCount, ih]

namespace WellNamed

variable {term : Term}

theorem index_lt_of_mem_vars (named : term.WellNamed)
    (closed : term.freeOccurrences [] = []) {name : VarName} (member : name ∈ term.vars) :
    name.index.toNat < term.binders.length := by
  have bound : name ∈ term.binders.map Binder.name := by
    simpa using mem_binders_of_closed closed member
  have index : name.index.toNat ∈ term.binderIndices := by
    obtain ⟨binder, isBinder, rfl⟩ := List.mem_map.mp bound
    exact List.mem_map_of_mem isBinder
  exact List.mem_range.mp (named.binders.mem_iff.mp index)

theorem index_lt_of_mem_holes (named : term.WellNamed) {name : HoleName}
    (member : name ∈ term.holes) : name.index.toNat < term.holes.length := by
  rw [← List.mem_range, ← named.holes]
  exact List.mem_map_of_mem member

/-- The type variables of a well-named program bound its other names, so if they leave
enough room, any action can be put into the program. -/
theorem affordable (named : term.WellNamed) (closed : term.freeOccurrences [] = [])
    (small : term.typeVarCount + 2 < UInt32.size) (action : Action) :
    action.Affordable term := by
  refine affordable_of_lt small ?_ ?_ small action
  · intro name member
    have index := named.index_lt_of_mem_vars closed member
    have binders := term.length_binders_le_typeVarCount
    omega
  · intro name member
    have index := named.index_lt_of_mem_holes member
    have holes := term.length_holes_le_typeVarCount
    omega

end WellNamed

end Term

namespace Action

variable {action : Action} {term : Term} {hole : HoleName}

/-- An action takes the place of a hole and brings at most three type variables. -/
theorem typeVarCount_of_fill {result : Term} (member : hole ∈ term.holes)
    (filling : action.fill term hole = .ok result) :
    result.typeVarCount ≤ term.typeVarCount + 2 := by
  obtain ⟨supplies, fragment, rest, filled, -, drawn, fills, -, rfl⟩ :=
    exists_of_fill_eq_ok member filling
  have count := fills.typeVarCount
  have few := (fragment_builds drawn).typeVarCount_le
  rw [Term.typeVarCount_mapHoles]
  omega

theorem Affordable.exists_fill (affordable : action.Affordable term)
    (member : hole ∈ term.holes) :
    ∃ filled, action.fill term hole = .ok filled ∧ infer filled ≠ .error .exhausted := by
  obtain ⟨verdict, fits⟩ := affordable.exists_fits member
  obtain ⟨filled, filling, accepted, rejected⟩ := exists_of_fits_eq_ok fits
  refine ⟨filled, filling, fun exhausted => ?_⟩
  cases verdict with
  | true =>
      obtain ⟨inference, inferred⟩ := accepted.mp rfl
      simp [exhausted] at inferred
  | false =>
      obtain ⟨error, illTyped⟩ := rejected.mp rfl
      simp [exhausted] at illTyped

end Action

namespace EditorState

/-! ## Counting the actions that are put -/

/-- The number of actions, none or one, that a step puts into a hole. -/
def putsAt (state : EditorState) : Transition → Nat
  | .put action => if (state.put action).isOk then 1 else 0
  | .select _ => 0
  | .relabel _ _ => 0

/-- The number of actions that steps put into holes.  Steps that fail do not count. -/
def putCount (state : EditorState) : List Transition → Nat
  | [] => 0
  | transition :: transitions =>
      state.putsAt transition + (state.attempt transition).putCount transitions

variable {state : EditorState} {inference : Inference}

/-- A program draws at most two type variables more for each action that is put. -/
theorem Consistent.typeVarCount_attempt (consistent : state.Consistent inference)
    (transition : Transition) :
    (state.attempt transition).term.typeVarCount ≤
      state.term.typeVarCount + 2 * state.putsAt transition := by
  rw [EditorState.attempt]
  cases updated : state.update transition with
  | error failure => exact Nat.le_add_right _ _
  | ok next =>
      cases transition with
      | select hole =>
          obtain ⟨same, -⟩ := consistent.exists_focus_of_select updated
          simp [same]
      | put action =>
          have counts : state.putsAt (.put action) = 1 := by
            have taken : state.put action = .ok next := updated
            simp [putsAt, taken, Except.isOk, Except.toBool]
          obtain ⟨focus, filled, -, focused, -, filling, -, rfl⟩ :=
            exists_of_put_eq_ok updated
          have member := (consistent.focused focus focused).1
          rw [counts]
          exact Action.typeVarCount_of_fill member filling
      | relabel name label =>
          obtain ⟨relabeled, found, rfl⟩ := exists_of_relabel_eq_ok updated
          rw [← Term.typeVarCount_unlabeled, Term.unlabeled_relabel? found,
            Term.typeVarCount_unlabeled]
          exact Nat.le_add_right _ _

/-- A state that agrees with its program, which is well named and no larger than what
`puts` actions can make of one hole. -/
structure BuiltBy (puts : Nat) (state : EditorState) : Prop where
  consistent : ∃ inference, state.Consistent inference
  named : state.term.WellNamed
  small : state.term.typeVarCount ≤ 2 * puts + 1

theorem builtBy_blank (options : EditorOptions) : BuiltBy 0 { blank with options } where
  consistent := by
    have safe := start_safe .blank options
    rw [start_blank] at safe
    exact safe
  named := ⟨rfl, .nil⟩
  small := Nat.le_refl 1

namespace BuiltBy

variable {puts : Nat}

theorem attempt (built : BuiltBy puts state) (transition : Transition) :
    BuiltBy (puts + state.putsAt transition) (state.attempt transition) := by
  obtain ⟨inference, consistent⟩ := built.consistent
  have growth := consistent.typeVarCount_attempt transition
  have small := built.small
  exact ⟨consistent.attempt transition, consistent.wellNamed_attempt built.named transition,
    by omega⟩

theorem foldl_attempt (built : BuiltBy puts state) (transitions : List Transition) :
    BuiltBy (puts + state.putCount transitions)
      (transitions.foldl EditorState.attempt state) := by
  induction transitions generalizing state puts with
  | nil => exact built
  | cons transition transitions ih =>
      rw [putCount, ← Nat.add_assoc]
      exact ih (built.attempt transition)

theorem affordable (built : BuiltBy puts state) (few : puts < 2 ^ 30) (action : Action) :
    action.Affordable state.term := by
  obtain ⟨inference, consistent⟩ := built.consistent
  have size : UInt32.size = 2 ^ 32 := rfl
  have small := built.small
  exact built.named.affordable (Inference.freeOccurrences_eq_nil consistent.inferred)
    (by omega) action

end BuiltBy

/-! ## No step runs out of names -/

theorem Consistent.update_ne_exhausted (consistent : state.Consistent inference)
    (affordable : ∀ action : Action, action.Affordable state.term)
    (transition : Transition) : state.update transition ≠ .error .exhausted := by
  cases transition with
  | select hole =>
      rw [update, consistent.select_eq]
      split
      · next member =>
        obtain ⟨ty, context, known, focusOn⟩ := consistent.exists_focusOn_eq member
        obtain ⟨actions, listed⟩ := known.exists_candidates
          (fun action _ => affordable action) state.options.variableCheck
        simp [focusOn, listed, Except.map]
      · simp
  | put action =>
      rw [update]
      cases focused : state.focus with
      | none => simp [put, focused]
      | some focus =>
          by_cases offered : .put action ∈ focus.transitions
          · obtain ⟨next, -, taken, -⟩ := consistent.exists_put focused offered
            simp [taken]
          · simp [put, focused, Focus.offers, offered]
  | relabel name label =>
      rw [update, relabel]
      split <;> simp

/-- After any steps from one hole of which fewer than `2 ^ 30` put an action, no step
runs out of names, and neither does any inference: the program has a type, and each
action can be tried in each of its holes. -/
theorem names_suffice (options : EditorOptions) (transitions : List Transition)
    (few : putCount { blank with options } transitions < 2 ^ 30) :
    let state := transitions.foldl EditorState.attempt { blank with options }
    (∀ transition, state.update transition ≠ .error .exhausted) ∧
      (∃ inference, infer state.term = .ok inference) ∧
      ∀ (action : Action), ∀ hole ∈ state.term.holes,
        ∃ filled, action.fill state.term hole = .ok filled ∧
          infer filled ≠ .error .exhausted := by
  intro state
  have built := (builtBy_blank options).foldl_attempt transitions
  rw [Nat.zero_add] at built
  obtain ⟨inference, consistent⟩ := built.consistent
  have affordable := built.affordable few
  exact ⟨consistent.update_ne_exhausted affordable, ⟨inference, consistent.inferred⟩,
    fun action hole member => (affordable action).exists_fill member⟩

theorem names_suffice_lateBinder :
    let state := lateBinder.foldl EditorState.attempt { blank with options := .standard }
    putCount { blank with options := .standard } lateBinder = 4 ∧
      (∀ transition, state.update transition ≠ .error .exhausted) ∧
      ∃ filled, Action.abstraction.fill state.term ⟨1⟩ = .ok filled ∧
        infer filled ≠ .error .exhausted := by
  intro state
  have count : putCount { blank with options := .standard } lateBinder = 4 := by decide
  obtain ⟨updates, -, fills⟩ := names_suffice .standard lateBinder (by rw [count]; decide)
  exact ⟨count, updates, fills .abstraction ⟨1⟩ (by decide)⟩

end EditorState

end TypedHoles
