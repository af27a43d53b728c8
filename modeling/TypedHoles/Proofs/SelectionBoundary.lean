import TypedHoles.Proofs.InsertedFragments
import TypedHoles.Proofs.NameBudget

/-!
# When selecting a hole runs out of names

Selecting a hole tries all constructors, so it needs one more variable for an abstraction
and two more holes for an application or a pair.  Which names a program has left is said
by its largest names.  Hence selection fails exactly if one of these is too close to the
last name, and neither the hole nor the labels of the program matter.
-/

namespace TypedHoles

/-! ## The largest name -/

namespace Name

variable {kind : NameKind}

/-- Whether there is a largest among some names, and its index is at least `bound`. -/
def LargestAtLeast (bound : Nat) (names : List (Name kind)) : Prop :=
  ∃ largest ∈ names, (∀ name ∈ names, name ≤ largest) ∧ bound ≤ largest.index.toNat

theorem largestAtLeast_iff {bound : Nat} {names : List (Name kind)} :
    LargestAtLeast bound names ↔ ∃ name ∈ names, bound ≤ name.index.toNat := by
  constructor
  · rintro ⟨largest, member, -, large⟩
    exact ⟨largest, member, large⟩
  · rintro ⟨name, member, large⟩
    cases greatest : names.max? with
    | none => simp [List.max?_eq_none_iff.mp greatest] at member
    | some largest =>
        have above : ∀ other ∈ names, other ≤ largest :=
          (List.max?_le_iff greatest).mp (le_iff_toNat.mpr (Nat.le_refl _))
        have atLeast := le_iff_toNat.mp (above name member)
        exact ⟨largest, List.max?_mem greatest, above, by omega⟩

theorem not_largestAtLeast_iff {bound : Nat} {names : List (Name kind)} :
    ¬ LargestAtLeast bound names ↔ ∀ name ∈ names, name.index.toNat < bound := by
  rw [largestAtLeast_iff]
  push Not
  rfl

end Name

/-! ## Trying all constructors -/

namespace Action

variable {term : Term}

/-- An abstraction takes the most variables, and an application the most holes. -/
theorem namesSuffice_constructors_iff :
    (∀ action ∈ constructors, action.NamesSuffice term) ↔
      (∀ name ∈ term.vars, name.index.toNat + 2 < UInt32.size) ∧
        ∀ name ∈ term.holes, name.index.toNat + 3 < UInt32.size := by
  constructor
  · intro suffice
    exact ⟨(suffice .abstraction (by decide)).vars,
      (suffice .application (by decide)).holes⟩
  · rintro ⟨vars, holes⟩ action -
    have fewVars := action.binderCount_le
    have fewHoles := action.arity_le
    constructor
    · intro name member
      have left := vars name member
      omega
    · intro name member
      have left := holes name member
      omega

end Action

theorem InferredHole.exists_candidates_iff {term : Term} {hole : HoleName} {ty : Ty}
    {context : Context} (known : InferredHole term hole ty context)
    (check : VariableCheck) :
    (∃ actions, candidates term hole ty context check = .ok actions) ↔
      ∀ action ∈ Action.constructors, action.Affordable term :=
  ⟨fun ⟨_, listed⟩ => known.affordable_of_candidates listed,
    fun affordable => known.exists_candidates affordable check⟩

/-- Labels are not names. -/
theorem Term.names_eq_of_unlabeled_eq {left right : Term}
    (same : left.unlabeled = right.unlabeled) :
    left.vars = right.vars ∧ left.holes = right.holes ∧
      left.typeVarCount = right.typeVarCount := by
  refine ⟨?_, ?_, ?_⟩
  · rw [vars, ← filterMap_varName?_preorder_unlabeled, same,
      filterMap_varName?_preorder_unlabeled, vars]
  · rw [← holes_unlabeled, same, holes_unlabeled]
  · rw [← typeVarCount_unlabeled, same, typeVarCount_unlabeled]

namespace EditorState

variable {state : EditorState} {inference : Inference} {hole : HoleName}

/-! ## Selecting -/

namespace Consistent

theorem exists_select_iff (consistent : state.Consistent inference)
    (member : hole ∈ state.term.holes) :
    (∃ next, state.select hole = .ok next) ↔
      ∀ action ∈ Action.constructors, action.Affordable state.term := by
  obtain ⟨ty, context, known, focusOn⟩ := consistent.exists_focusOn_eq member
  rw [← known.exists_candidates_iff state.options.variableCheck, consistent.select_eq,
    if_pos member, focusOn]
  cases candidates state.term hole ty context state.options.variableCheck <;>
    simp [Except.map]

/-- A hole of the program can be selected unless the names run out. -/
theorem select_eq_exhausted_iff (consistent : state.Consistent inference)
    (member : hole ∈ state.term.holes) :
    state.select hole = .error .exhausted ↔ ¬ ∃ next, state.select hole = .ok next := by
  obtain ⟨ty, context, known, focusOn⟩ := consistent.exists_focusOn_eq member
  rw [consistent.select_eq, if_pos member, focusOn]
  cases listed : candidates state.term hole ty context state.options.variableCheck with
  | error failure => simp [Except.map, known.candidates_eq_error listed]
  | ok actions => simp [Except.map]

theorem select_eq_exhausted_iff_largestAtLeast (consistent : state.Consistent inference)
    (few : state.term.typeVarCount + 3 ≤ UInt32.size)
    (member : hole ∈ state.term.holes) :
    state.select hole = .error .exhausted ↔
      Name.LargestAtLeast (2 ^ 32 - 2) state.term.vars ∨
        Name.LargestAtLeast (2 ^ 32 - 3) state.term.holes := by
  have size : UInt32.size = 2 ^ 32 := rfl
  rw [consistent.select_eq_exhausted_iff member, consistent.exists_select_iff member,
    not_iff_comm, not_or, Name.not_largestAtLeast_iff, Name.not_largestAtLeast_iff]
  simp only [Action.affordable_iff few, Action.namesSuffice_constructors_iff]
  exact and_congr (forall₂_congr fun name _ => by omega)
    (forall₂_congr fun name _ => by omega)

end Consistent

/-! ## Giving labels -/

/-- Give labels to variables, one after the other.  Variables that are not bound are
passed over. -/
def relabelAll (state : EditorState) (labels : List (VarName × Option String)) :
    EditorState :=
  labels.foldl (fun state label => state.attempt (.relabel label.1 label.2)) state

theorem unlabeled_attempt_relabel (state : EditorState) (name : VarName)
    (label : Option String) :
    (state.attempt (.relabel name label)).term.unlabeled = state.term.unlabeled := by
  rw [attempt]
  cases updated : state.update (.relabel name label) with
  | error failure => rfl
  | ok next =>
      obtain ⟨relabeled, found, rfl⟩ := exists_of_relabel_eq_ok updated
      exact Term.unlabeled_relabel? found

theorem unlabeled_relabelAll (state : EditorState)
    (labels : List (VarName × Option String)) :
    (state.relabelAll labels).term.unlabeled = state.term.unlabeled := by
  induction labels generalizing state with
  | nil => rfl
  | cons label labels ih =>
      exact (ih _).trans (state.unlabeled_attempt_relabel label.1 label.2)

theorem Reachable.relabelAll (reachable : state.Reachable)
    (labels : List (VarName × Option String)) : (state.relabelAll labels).Reachable := by
  induction labels generalizing state with
  | nil => exact reachable
  | cons label labels ih => exact ih (reachable.attempt _)

/-! ## The boundary -/

/-- Whatever labels are given, selecting a hole of a program with fewer than `2 ^ 30`
nodes runs out of names exactly if the largest variable is one of the last two or the
largest hole one of the last three, and it succeeds otherwise. -/
theorem select_exhausted_iff (reachable : state.Reachable)
    (small : state.term.nodes < 2 ^ 30) (member : hole ∈ state.term.holes)
    (labels : List (VarName × Option String)) :
    ((state.relabelAll labels).select hole = .error .exhausted ↔
      Name.LargestAtLeast (2 ^ 32 - 2) state.term.vars ∨
        Name.LargestAtLeast (2 ^ 32 - 3) state.term.holes) ∧
      ((state.relabelAll labels).select hole ≠ .error .exhausted →
        ∃ next, (state.relabelAll labels).select hole = .ok next) := by
  obtain ⟨inference, consistent⟩ := (reachable.relabelAll labels).consistent
  obtain ⟨sameVars, sameHoles, sameCount⟩ :=
    Term.names_eq_of_unlabeled_eq (state.unlabeled_relabelAll labels)
  have size : UInt32.size = 2 ^ 32 := rfl
  have count := state.term.typeVarCount_le_nodes
  rw [← sameHoles] at member
  constructor
  · rw [consistent.select_eq_exhausted_iff_largestAtLeast (by omega) member, sameVars,
      sameHoles]
  · intro notExhausted
    by_contra failed
    exact notExhausted ((consistent.select_eq_exhausted_iff member).mpr failed)

/-- A pair of holes below a binder, which is unfocused. -/
def pairBelow (binder : VarName) (first : HoleName) (check : VariableCheck) :
    EditorState where
  term := .abs ⟨binder, none⟩ (.pair (.hole first) (.hole ⟨0⟩))
  ty := .arrow (.var ⟨0⟩) (.product (.var ⟨1⟩) (.var ⟨2⟩))
  focus := none
  options := { variableCheck := check, offerSelections := false }

theorem select_exhausted_iff_pairBelow :
    let labels := [(⟨4294967293⟩, some "n"), (⟨4294967293⟩, some "m"), (⟨1⟩, none)]
    let fitting := pairBelow ⟨4294967293⟩ ⟨4294967292⟩ .byType
    let lastVar := pairBelow ⟨4294967294⟩ ⟨1⟩ .byType
    let lastHole := pairBelow ⟨0⟩ ⟨4294967293⟩ .inProgram
    (∃ next, (fitting.relabelAll labels).select ⟨0⟩ = .ok next) ∧
      (lastVar.relabelAll labels).select ⟨0⟩ = .error .exhausted ∧
      (lastHole.relabelAll labels).select ⟨0⟩ = .error .exhausted := by
  intro labels fitting lastVar lastHole
  have fittingStarts : start fitting.term fitting.options = .ok fitting := by decide
  have lastVarStarts : start lastVar.term lastVar.options = .ok lastVar := by decide
  have lastHoleStarts : start lastHole.term lastHole.options = .ok lastHole := by decide
  refine ⟨?_, ?_, ?_⟩
  · obtain ⟨exhausted, otherwise⟩ := @select_exhausted_iff _ ⟨0⟩ (.start fittingStarts)
      (by decide) (by decide) labels
    refine otherwise (exhausted.not.mpr ?_)
    rw [not_or, Name.not_largestAtLeast_iff, Name.not_largestAtLeast_iff]
    decide
  · refine (select_exhausted_iff (.start lastVarStarts) (by decide) (by decide)
      labels).1.mpr (.inl (Name.largestAtLeast_iff.mpr ?_))
    decide
  · refine (select_exhausted_iff (.start lastHoleStarts) (by decide) (by decide)
      labels).1.mpr (.inr (Name.largestAtLeast_iff.mpr ?_))
    decide

end EditorState

end TypedHoles
