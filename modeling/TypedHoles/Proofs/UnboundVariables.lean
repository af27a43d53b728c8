import TypedHoles.Proofs.Places

/-!
# Unbound variables

Inference reports a variable as unbound exactly if the program mentions one that no
abstraction around it binds.  It reports the first such place of the traversal, whatever
else is wrong with the program, because types are compared only after all variables have
been looked up.
-/

namespace TypedHoles

namespace Term

/-- The variable that this node mentions. -/
def mentioned? : Term → Option VarName
  | var name => some name
  | _ => none

/-- The variable that is mentioned at a place, if neither an abstraction around the place
nor `scope` binds it. -/
def freeAt? (scope : List VarName) (term : Term) (path : Path) : Option VarName :=
  ((term.nodeAt? path).bind mentioned?).filter fun name =>
    !((term.bindersAround path).map Binder.name ++ scope).contains name

/-- Whether the variable `name` is mentioned at a place and no abstraction around the
place binds it. -/
structure FreeAt (term : Term) (path : Path) (name : VarName) : Prop where
  occurs : term.nodeAt? path = some (var name)
  unbound : ∀ binder ∈ term.bindersAround path, binder.name ≠ name

theorem mentioned?_eq_some_iff {node : Term} {name : VarName} :
    node.mentioned? = some name ↔ node = var name := by
  cases node <;> simp [mentioned?]

theorem freeAt?_eq_some_iff {term : Term} {path : Path} {name : VarName} :
    term.freeAt? [] path = some name ↔ term.FreeAt path name := by
  simp only [freeAt?, Option.filter_eq_some_iff, Option.bind_eq_some_iff,
    mentioned?_eq_some_iff, exists_eq_right]
  constructor
  · rintro ⟨occurs, outside⟩
    exact ⟨occurs, by simpa using outside⟩
  · rintro ⟨occurs, unbound⟩
    exact ⟨occurs, by simpa using unbound⟩

/-- Below a node, its binder is one more that is in scope. -/
theorem freeAt?_cons {term part : Term} {position : Nat}
    (isPart : term.parts[position]? = some part) (scope : List VarName) (path : Path) :
    freeAt? scope term (position :: path) =
      freeAt? (term.binder?.toList.map Binder.name ++ scope) part path := by
  simp only [freeAt?, nodeAt?_cons, isPart, Option.bind_some, bindersAround_cons isPart,
    List.map_append, List.append_assoc]

/-- The free occurrences are found at the places in order of traversal. -/
theorem freeOccurrences_eq_filterMap_paths (term : Term) (scope : List VarName) :
    term.freeOccurrences scope = term.paths.filterMap (freeAt? scope term) := by
  induction term generalizing scope with
  | unit | hole => rfl
  | var name =>
      by_cases bound : name ∈ scope <;>
        simp [freeOccurrences, paths, freeAt?, mentioned?, bindersAround, Option.filter, bound]
  | abs _ _ ih | proj1 _ ih | proj2 _ ih =>
      rw [freeOccurrences, ih, paths, List.filterMap_cons_none rfl,
        filterMap_map_cons (freeAt?_cons rfl scope)]
      rfl
  | app _ _ leftIh rightIh | pair _ _ leftIh rightIh =>
      rw [freeOccurrences, leftIh, rightIh, paths, List.filterMap_cons_none rfl,
        List.filterMap_append, filterMap_map_cons (freeAt?_cons rfl scope),
        filterMap_map_cons (freeAt?_cons rfl scope)]
      rfl

/-- Whether the traversal comes to a place at which `name` is free before it comes to any
other place at which a variable is free. -/
structure IsFirstFree (term : Term) (path : Path) (name : VarName) : Prop where
  free : term.FreeAt path name
  first : ∀ other otherName, term.FreeAt other otherName →
    other = path ∨ path.Before other

theorem head?_freeOccurrences_eq_some_iff {term : Term} {name : VarName} :
    (term.freeOccurrences []).head? = some name ↔ ∃ path, term.IsFirstFree path name := by
  rw [freeOccurrences_eq_filterMap_paths,
    head?_filterMap_eq_some_iff Path.Before.asymm term.pairwise_paths]
  constructor
  · rintro ⟨path, -, found, least⟩
    refine ⟨path, freeAt?_eq_some_iff.mp found, fun other otherName free => ?_⟩
    have chosen := freeAt?_eq_some_iff.mpr free
    exact least other (mem_paths_of_nodeAt? free.occurs) (by rw [chosen]; rfl)
  · rintro ⟨path, free, first⟩
    refine ⟨path, mem_paths_of_nodeAt? free.occurs, freeAt?_eq_some_iff.mpr free, ?_⟩
    intro other _ chooses
    obtain ⟨otherName, chosen⟩ := Option.isSome_iff_exists.mp chooses
    exact first other otherName (freeAt?_eq_some_iff.mp chosen)

theorem freeOccurrences_eq_nil_iff {term : Term} :
    term.freeOccurrences [] = [] ↔ ∀ path name, ¬ term.FreeAt path name := by
  rw [freeOccurrences_eq_filterMap_paths, List.filterMap_eq_nil_iff]
  constructor
  · intro none path name free
    have chosen := freeAt?_eq_some_iff.mpr free
    rw [none path (mem_paths_of_nodeAt? free.occurs)] at chosen
    simp at chosen
  · intro none path _
    rw [← Option.not_isSome_iff_eq_none, Option.isSome_iff_exists]
    rintro ⟨name, chosen⟩
    exact none path name (freeAt?_eq_some_iff.mp chosen)

end Term

/-! ## What inference reports -/

section Reports

variable {term : Term}

theorem infer_eq_unbound_iff (few : term.typeVarCount < UInt32.size) {name : VarName} :
    infer term = .error (.illTyped (.unbound name)) ↔
      (term.freeOccurrences []).head? = some name := by
  generalize answer : infer term = result
  have outcome := infer_outcome term
  rw [answer] at outcome
  cases outcome with
  | unbound free => simp [free]
  | exhausted many => omega
  | clash _ bound => simp [bound]
  | typed => simp [Inference.freeOccurrences_eq_nil answer]

theorem freeOccurrences_eq_nil_of_clash {reason : Clash}
    (clashes : infer term = .error (.illTyped (.clash reason))) :
    term.freeOccurrences [] = [] := by
  have outcome := infer_outcome term
  rw [clashes] at outcome
  cases outcome with
  | clash _ bound => exact bound

theorem infer_ne_exhausted (few : term.typeVarCount < UInt32.size) :
    infer term ≠ .error .exhausted := by
  intro exhausted
  have outcome := infer_outcome term
  rw [exhausted] at outcome
  cases outcome with
  | exhausted many => omega

end Reports

/-- If the type variables suffice, inference reports an unbound variable exactly if one is
free in the program, and then the one at the first such place.  Only closed programs are
found to have types that clash. -/
theorem infer_reports_first_unbound (term : Term) (few : term.typeVarCount < UInt32.size) :
    ((∃ name, infer term = .error (.illTyped (.unbound name))) ↔
      ∃ path name, term.FreeAt path name) ∧
    (∀ name, infer term = .error (.illTyped (.unbound name)) ↔
      ∃ path, term.IsFirstFree path name) ∧
    (∀ reason, infer term = .error (.illTyped (.clash reason)) →
      ∀ path name, ¬ term.FreeAt path name) ∧
    infer term ≠ .error .exhausted := by
  refine ⟨?_, fun name => ?_, fun reason clashes => ?_, infer_ne_exhausted few⟩
  · simp only [infer_eq_unbound_iff few]
    rw [← Option.ne_none_iff_exists', ne_eq, List.head?_eq_none_iff,
      Term.freeOccurrences_eq_nil_iff]
    simp
  · rw [infer_eq_unbound_iff few, Term.head?_freeOccurrences_eq_some_iff]
  · exact Term.freeOccurrences_eq_nil_iff.mp (freeOccurrences_eq_nil_of_clash clashes)

/-- Types clash to the left of two free variables.  Elsewhere in the program the first of
them is bound, with a circular type. -/
def clashBeforeUnbound : Term :=
  .pair (.app .unit .unit) <|
    .app (.abs ⟨⟨0⟩, none⟩ (.app (.var ⟨0⟩) (.var ⟨0⟩))) <|
      .pair (.var ⟨0⟩) (.abs ⟨⟨0⟩, none⟩ (.app (.var ⟨0⟩) (.var ⟨1⟩)))

theorem infer_reports_first_unbound_clashBeforeUnbound :
    clashBeforeUnbound.typeVarCount < UInt32.size ∧
      infer clashBeforeUnbound = .error (.illTyped (.unbound ⟨0⟩)) ∧
      clashBeforeUnbound.IsFirstFree [1, 1, 0] ⟨0⟩ ∧
      clashBeforeUnbound.FreeAt [1, 1, 1, 0, 1] ⟨1⟩ := by
  have few : clashBeforeUnbound.typeVarCount < UInt32.size := by decide
  have reported : infer clashBeforeUnbound = .error (.illTyped (.unbound ⟨0⟩)) := by decide
  have once : ∀ path ∈ clashBeforeUnbound.paths,
      clashBeforeUnbound.freeAt? [] path = some ⟨0⟩ → path = [1, 1, 0] := by decide
  obtain ⟨-, names, -⟩ := infer_reports_first_unbound clashBeforeUnbound few
  obtain ⟨path, isFirst⟩ := (names ⟨0⟩).mp reported
  obtain rfl := once path (Term.mem_paths_of_nodeAt? isFirst.free.occurs)
    (Term.freeAt?_eq_some_iff.mpr isFirst.free)
  exact ⟨few, reported, isFirst, rfl, by decide⟩

end TypedHoles
