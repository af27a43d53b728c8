import TypedHoles.Proofs.CanonicalForms
import TypedHoles.Proofs.FilledPrograms

/-!
# The names in a program that is built from one hole

As long as the editor draws all names itself, a program uses just the names that it
needs: its holes are `0, 1, 2, …` in order of traversal, and its binders are the first
variables, each once.  Therefore no binding hides another one.
-/

namespace TypedHoles

namespace Term

/-! ## Bound variables -/

/-- All variables of a closed program are bound in it. -/
theorem mem_binders_of_closed {term : Term} {scope : List VarName}
    (closed : term.freeOccurrences scope = []) {name : VarName}
    (member : name ∈ term.vars) : name ∈ scope ∨ name ∈ term.binders.map Binder.name := by
  induction term generalizing scope with
  | unit | hole => simp at member
  | var other =>
      obtain rfl : name = other := by simpa using member
      left
      by_contra free
      simp [freeOccurrences, free] at closed
  | abs binder body ih =>
      rcases (by simpa using member : name = binder.name ∨ name ∈ body.vars) with
        rfl | inside
      · simp
      · simpa [or_assoc, or_left_comm] using ih closed inside
  | app applicant argument applicantIh argumentIh =>
      obtain ⟨applicantClosed, argumentClosed⟩ := List.append_eq_nil_iff.mp closed
      rw [binders_app, List.map_append, List.mem_append]
      rcases List.mem_append.mp (vars_app applicant argument ▸ member) with inside | inside
      · exact (applicantIh applicantClosed inside).imp_right .inl
      · exact (argumentIh argumentClosed inside).imp_right .inr
  | pair first second firstIh secondIh =>
      obtain ⟨firstClosed, secondClosed⟩ := List.append_eq_nil_iff.mp closed
      rw [binders_pair, List.map_append, List.mem_append]
      rcases List.mem_append.mp (vars_pair first second ▸ member) with inside | inside
      · exact (firstIh firstClosed inside).imp_right .inl
      · exact (secondIh secondClosed inside).imp_right .inr
  | proj1 argument ih => exact ih closed (by simpa using member)
  | proj2 argument ih => exact ih closed (by simpa using member)

theorem sublist_binders_vars (term : Term) :
    (term.binders.map Binder.name).Sublist term.vars := by
  induction term with
  | unit | hole => exact .slnil
  | var name => exact List.nil_sublist _
  | abs binder body ih => simpa using ih
  | app applicant argument applicantIh argumentIh =>
      simpa using applicantIh.append argumentIh
  | pair first second firstIh secondIh => simpa using firstIh.append secondIh
  | proj1 argument ih => exact ih
  | proj2 argument ih => exact ih

@[simp]
theorem map_name_binders_unlabeled (term : Term) :
    term.unlabeled.binders.map Binder.name = term.binders.map Binder.name := by
  induction term with
  | unit | var | hole => rfl
  | abs binder body ih => simp [unlabeled, ih]
  | app applicant argument applicantIh argumentIh =>
      simp [unlabeled, applicantIh, argumentIh]
  | pair first second firstIh secondIh => simp [unlabeled, firstIh, secondIh]
  | proj1 argument ih => simp [unlabeled, ih]
  | proj2 argument ih => simp [unlabeled, ih]

/-- The binders around a hole occur in the program, the outermost first. -/
theorem sublist_of_mem_holesBelow {term : Term} {around binders : List Binder}
    {name : HoleName} (member : (name, binders) ∈ term.holesBelow around) :
    binders.reverse.Sublist (around.reverse ++ term.binders) := by
  induction term generalizing around with
  | unit | var => simp [holesBelow] at member
  | hole other =>
      obtain ⟨-, rfl⟩ : name = other ∧ binders = around := by
        simpa [holesBelow] using member
      simp
  | abs binder body ih => simpa using ih member
  | app applicant argument applicantIh argumentIh =>
      rw [binders_app]
      rcases List.mem_append.mp member with inside | inside
      · exact (applicantIh inside).trans ((List.sublist_append_left _ _).append_left _)
      · exact (argumentIh inside).trans ((List.sublist_append_right _ _).append_left _)
  | pair first second firstIh secondIh =>
      rw [binders_pair]
      rcases List.mem_append.mp member with inside | inside
      · exact (firstIh inside).trans ((List.sublist_append_left _ _).append_left _)
      · exact (secondIh inside).trans ((List.sublist_append_right _ _).append_left _)
  | proj1 argument ih => exact ih member
  | proj2 argument ih => exact ih member

end Term

/-- No entry is hidden if all keys are different. -/
theorem ShadowList.unhidden_eq_self {κ α : Type} [DecidableEq κ] {entries : List (κ × α)}
    (distinct : (entries.map Prod.fst).Nodup) : unhidden entries = entries := by
  induction entries with
  | nil => rfl
  | cons entry older ih =>
      obtain ⟨absent, olderDistinct⟩ := List.nodup_cons.mp distinct
      rw [unhidden, ih olderDistinct, List.filter_eq_self.mpr]
      intro other member
      have differs : other.1 ≠ entry.1 := fun same =>
        absent (same ▸ List.mem_map_of_mem member)
      simpa using differs

/-! ## Well-named programs -/

namespace Term

/-- The indices of the variables that a term binds, in order of traversal. -/
def binderIndices (term : Term) : List Nat :=
  term.binders.map fun binder => binder.name.index.toNat

/-- Whether a program uses just the names that it needs. -/
structure WellNamed (term : Term) : Prop where
  holes : term.HolesInOrder
  binders : term.binderIndices.Perm (List.range term.binders.length)

namespace WellNamed

variable {term : Term}

theorem nodup_binders (named : term.WellNamed) : (term.binders.map Binder.name).Nodup := by
  have indices : term.binderIndices.Nodup := named.binders.nodup_iff.mpr List.nodup_range
  rw [binderIndices, ← Function.comp_def (fun name : VarName => name.index.toNat),
    ← List.map_map] at indices
  exact indices.of_map _

/-- The next variable of a closed program is numbered by its binders. -/
theorem count_vars (named : term.WellNamed) (closed : term.freeOccurrences [] = [])
    {supplies : Supplies} (supplied : term.supplies = .ok supplies) :
    supplies.vars.count = term.binders.length := by
  have vars (name : VarName) : name ∈ term.vars ↔ name ∈ term.binders.map Binder.name :=
    ⟨fun member => by simpa using mem_binders_of_closed closed member,
      fun member => term.sublist_binders_vars.subset member⟩
  apply eq_of_forall_ge_iff
  intro bound
  calc supplies.vars.count ≤ bound
      ↔ ∀ name ∈ term.vars, name.index.toNat < bound := count_vars_le_iff supplied
    _ ↔ ∀ index ∈ term.binderIndices, index < bound := by simp [vars, binderIndices]
    _ ↔ ∀ index ∈ List.range term.binders.length, index < bound := by
        simp only [named.binders.mem_iff]
    _ ↔ term.binders.length ≤ bound := by
        simp only [List.mem_range]
        exact forall_lt_iff_le

theorem of_unlabeled_eq {relabeled : Term} (named : term.WellNamed)
    (same : relabeled.unlabeled = term.unlabeled) : relabeled.WellNamed := by
  have sameHoles : relabeled.holes = term.holes := by
    rw [← holes_unlabeled, same, holes_unlabeled]
  have sameNames : relabeled.binders.map Binder.name = term.binders.map Binder.name := by
    rw [← map_name_binders_unlabeled, same, map_name_binders_unlabeled]
  have sameIndices : relabeled.binderIndices = term.binderIndices := by
    simpa [binderIndices, Function.comp_def] using
      congrArg (List.map fun name : VarName => name.index.toNat) sameNames
  have sameLength : relabeled.binders.length = term.binders.length := by
    simpa using congrArg List.length sameNames
  constructor
  · rw [HolesInOrder, sameHoles]
    exact named.holes
  · rw [sameIndices, sameLength]
    exact named.binders

/-- A program stays well named when an action is put into one of its holes. -/
theorem fill {action : Action} {hole : HoleName} {result : Term} (named : term.WellNamed)
    (closed : term.freeOccurrences [] = []) (member : hole ∈ term.holes)
    (filling : action.fill term hole = .ok result) : result.WellNamed := by
  have distinct := named.holes.nodup
  refine ⟨Action.holesInOrder_of_fill distinct member filling, ?_⟩
  obtain ⟨supplies, supplied⟩ := Action.exists_supplies_of_fill member filling
  have binders := Action.binders_of_fill distinct member filling supplied
  have next : supplies.vars.next.index.toNat = term.binders.length :=
    named.count_vars closed supplied
  have indices : result.binderIndices.Perm
      (term.binderIndices ++ (action.outline supplies.vars.next).binderIndices) := by
    simpa [binderIndices] using binders.map fun binder => binder.name.index.toNat
  -- The binders are numbered from zero, so the next variable is the next number.
  rw [binders.length_eq, List.length_append]
  refine indices.trans ((named.binders.append_right _).trans ?_)
  cases action with
  | abstraction =>
      simp only [Action.outline, binderIndices, binders_abs, binders_hole, List.map_cons,
        List.map_nil, List.length_singleton, next, List.range_succ]
      exact .refl _
  | unit | var | application | pair | proj1 | proj2 =>
      simp [Action.outline, binderIndices]

end WellNamed

end Term

namespace EditorState

variable {state : EditorState} {inference : Inference}

/-- Every step keeps a program well named. -/
theorem Consistent.wellNamed_update (consistent : state.Consistent inference)
    (named : state.term.WellNamed) {transition : Transition} {next : EditorState}
    (updated : state.update transition = .ok next) : next.term.WellNamed := by
  cases transition with
  | select hole =>
      obtain ⟨same, -⟩ := consistent.exists_focus_of_select updated
      rwa [same]
  | put action =>
      obtain ⟨focus, filled, -, focused, -, filling, -, rfl⟩ := exists_of_put_eq_ok updated
      have member := (consistent.focused focus focused).1
      exact named.fill (Inference.freeOccurrences_eq_nil consistent.inferred) member filling
  | relabel name label =>
      obtain ⟨relabeled, found, rfl⟩ := exists_of_relabel_eq_ok updated
      exact named.of_unlabeled_eq (Term.unlabeled_relabel? found)

theorem Consistent.wellNamed_attempt (consistent : state.Consistent inference)
    (named : state.term.WellNamed) (transition : Transition) :
    (state.attempt transition).term.WellNamed := by
  rw [EditorState.attempt]
  cases updated : state.update transition with
  | ok next => exact consistent.wellNamed_update named updated
  | error failure => exact named

/-- Any number of steps, of which some may fail, keep a program well named. -/
theorem Consistent.wellNamed_foldl_attempt (consistent : state.Consistent inference)
    (named : state.term.WellNamed) (transitions : List Transition) :
    ∃ final, (transitions.foldl EditorState.attempt state).Consistent final ∧
      (transitions.foldl EditorState.attempt state).term.WellNamed := by
  induction transitions generalizing state inference with
  | nil => exact ⟨inference, consistent, named⟩
  | cons transition transitions ih =>
      obtain ⟨next, nextConsistent⟩ := consistent.attempt transition
      exact ih nextConsistent (consistent.wellNamed_attempt named transition)

/-- In a well-named program no binding around the selected hole is hidden. -/
theorem Consistent.bindings_eq_entries (consistent : state.Consistent inference)
    (named : state.term.WellNamed) {focus : Focus} (focused : state.focus = some focus) :
    focus.context.bindings = focus.context.entries := by
  obtain ⟨known, -⟩ := consistent.candidates_eq focused
  obtain ⟨binders, below, scope⟩ := known.exists_mem_holesBelow
  have inside := (Term.sublist_of_mem_holesBelow below).map Binder.name
  have distinct : focus.context.scope.Nodup := by
    rw [scope, ← List.nodup_reverse, ← List.map_reverse]
    exact named.nodup_binders.sublist inside
  exact ShadowList.unhidden_eq_self distinct

/-- In every state that the editor reaches from one hole, the holes of the program are
`0, 1, 2, …` in order of traversal, its binders are the first variables, each once, its
variables occur below their binders, no binding around the selected hole is hidden, and
the type is the inferred one, which is canonical. -/
theorem names_in_reached_programs (options : EditorOptions)
    (transitions : List Transition) :
    let state := transitions.foldl EditorState.attempt { blank with options }
    state.term.holes.map (fun hole => hole.index.toNat) =
        List.range state.term.holes.length ∧
      (state.term.binders.map fun binder => binder.name.index.toNat).Perm
        (List.range state.term.binders.length) ∧
      state.term.freeOccurrences [] = [] ∧
      (∀ focus, state.focus = some focus →
        focus.context.bindings = focus.context.entries) ∧
      ∃ inference, infer state.term = .ok inference ∧ state.ty = inference.ty ∧
        state.ty.canonical = .ok state.ty := by
  intro state
  have safe := start_safe .blank options
  rw [start_blank] at safe
  obtain ⟨initial, started⟩ := safe
  have blankNamed : Term.blank.WellNamed := ⟨rfl, .nil⟩
  obtain ⟨inference, consistent, named⟩ :=
    started.wellNamed_foldl_attempt blankNamed transitions
  refine ⟨named.holes, named.binders,
    Inference.freeOccurrences_eq_nil consistent.inferred,
    fun focus focused => consistent.bindings_eq_entries named focused,
    inference, consistent.inferred, consistent.ty_eq, ?_⟩
  rw [consistent.ty_eq]
  exact Inference.canonical_ty consistent.inferred

/-- Steps that put the last of three binders in front of the others and end below two
of them.  The first step fails. -/
def lateBinder : List Transition :=
  [.put .unit, .select ⟨0⟩, .put .pair, .select ⟨1⟩, .put .abstraction,
    .relabel ⟨0⟩ (some "n"), .select ⟨1⟩, .put .abstraction, .select ⟨0⟩,
    .put .abstraction, .select ⟨1⟩]

theorem names_in_reached_programs_lateBinder :
    let state := lateBinder.foldl EditorState.attempt { blank with options := .standard }
    state.term.binders.map (fun binder => binder.name.index.toNat) = [2, 0, 1] ∧
      (state.term.binders.map fun binder => binder.name.index.toNat).Perm
        (List.range state.term.binders.length) ∧
      ∃ focus, state.focus = some focus ∧ focus.context.scope = [⟨1⟩, ⟨0⟩] ∧
        focus.context.bindings = focus.context.entries := by
  intro state
  obtain ⟨-, binders, -, unhidden, -⟩ := names_in_reached_programs .standard lateBinder
  have focused : (state.focus.map fun focus => focus.context.scope) =
      some [⟨1⟩, ⟨0⟩] := by decide
  obtain ⟨focus, found, scope⟩ := Option.map_eq_some_iff.mp focused
  exact ⟨by decide, binders, focus, found, scope, unhidden focus found⟩

end EditorState

end TypedHoles
