import TypedHoles.Proofs.CosmeticLabels
import TypedHoles.Proofs.FirstHole

/-!
# Labelling the first binder

The binder of a variable is looked up along the traversal of a term.  A label is given by
a search of its own, which descends into the left part first and stops at the first
binder of that name.  Both come to the same abstraction, also if several of them bind the
variable, inside each other or next to each other.  Its label is all that changes.
-/

namespace TypedHoles

/-! ## Lists of binders -/

section RelabelFirst

variable {name other : VarName} {label : Option String}

theorem find?_relabelFirst (binders : List Binder) :
    (relabelFirst name label binders).find? (fun binder => binder.name = name) =
      (binders.find? fun binder => binder.name = name).map fun binder =>
        { binder with label } := by
  induction binders with
  | nil => rfl
  | cons binder binders ih =>
      by_cases same : binder.name = name
      · simp [relabelFirst, same]
      · simpa [relabelFirst, same] using ih

theorem find?_relabelFirst_of_ne (differs : other ≠ name) (binders : List Binder) :
    (relabelFirst name label binders).find? (fun binder => binder.name = other) =
      binders.find? fun binder => binder.name = other := by
  induction binders with
  | nil => rfl
  | cons binder binders ih =>
      by_cases same : binder.name = name
      · simp [relabelFirst, same, differs.symm]
      · simp only [relabelFirst, same, if_false, List.find?_cons, ih]

end RelabelFirst

namespace Term

variable {term relabeled : Term} {name other : VarName} {label : Option String}
  {path : Path} {binder : Binder}

/-! ## Looking up a binder -/

/-- Whether the traversal comes to an abstraction with this binder before it comes to any
other abstraction that binds the same variable. -/
structure IsFirstBinder (term : Term) (path : Path) (binder : Binder) : Prop where
  binds : ∃ body, term.nodeAt? path = some (abs binder body)
  first : ∀ place other body, term.nodeAt? place = some (abs other body) →
    other.name = binder.name → place = path ∨ path.Before place

theorem binder?_eq_some_iff {node : Term} :
    node.binder? = some binder ↔ ∃ body, node = abs binder body := by
  cases node <;> simp [binder?]

/-- The binder of the variable `name` at a place. -/
def binderAt? (term : Term) (name : VarName) (path : Path) : Option Binder :=
  ((term.nodeAt? path).bind binder?).filter fun binder => binder.name = name

theorem binderAt?_eq_some_iff :
    term.binderAt? name path = some binder ↔
      (∃ body, term.nodeAt? path = some (abs binder body)) ∧ binder.name = name := by
  simp only [binderAt?, Option.filter_eq_some_iff, Option.bind_eq_some_iff,
    binder?_eq_some_iff, decide_eq_true_eq]
  constructor
  · rintro ⟨⟨_, found, body, rfl⟩, same⟩
    exact ⟨⟨body, found⟩, same⟩
  · rintro ⟨⟨body, found⟩, same⟩
    exact ⟨⟨_, found, body, rfl⟩, same⟩

theorem findBinder?_eq_head? (term : Term) (name : VarName) :
    term.findBinder? name = (term.paths.filterMap (term.binderAt? name)).head? := by
  rw [findBinder?, binders, ← filterMap_nodeAt?_paths, List.filterMap_filterMap,
    ← List.head?_filter, List.filter_filterMap]
  rfl

/-- Looking up a variable finds the binder that the traversal comes to first. -/
theorem findBinder?_eq_some_iff :
    term.findBinder? name = some binder ↔
      binder.name = name ∧ ∃ path, term.IsFirstBinder path binder := by
  rw [findBinder?_eq_head?, head?_filterMap_eq_some_iff Path.Before.asymm term.pairwise_paths]
  constructor
  · rintro ⟨path, -, found, least⟩
    obtain ⟨binds, rfl⟩ := binderAt?_eq_some_iff.mp found
    refine ⟨rfl, path, binds, fun place other body isAbs same => ?_⟩
    have chosen := binderAt?_eq_some_iff.mpr ⟨⟨body, isAbs⟩, same⟩
    exact least place (mem_paths_of_nodeAt? isAbs) (by rw [chosen]; rfl)
  · rintro ⟨rfl, path, ⟨body, isAbs⟩, first⟩
    refine ⟨path, mem_paths_of_nodeAt? isAbs, binderAt?_eq_some_iff.mpr ⟨⟨body, isAbs⟩, rfl⟩, ?_⟩
    intro place _ chooses
    obtain ⟨other, chosen⟩ := Option.isSome_iff_exists.mp chooses
    obtain ⟨⟨otherBody, otherAbs⟩, same⟩ := binderAt?_eq_some_iff.mp chosen
    exact first place other otherBody otherAbs same

theorem findBinder?_eq_findSome?_visit (term : Term) (name : VarName) :
    term.findBinder? name = (visit [term]).findSome? fun node =>
      node.binder?.filter fun binder => binder.name = name := by
  rw [visit_eq_flatMap_preorder, List.flatMap_singleton, findBinder?, binders,
    ← List.head?_filter, List.filter_filterMap, List.head?_filterMap]

theorem isSome_findBinder?_iff :
    (term.findBinder? name).isSome = true ↔ name ∈ term.binders.map Binder.name := by
  simp [findBinder?, List.mem_map]

/-! ## The place that is labelled -/

/-- Whether the abstraction at a place gets a label, and nothing else changes. -/
structure LabelsAt (label : Option String) (term relabeled : Term) (path : Path)
    (binder : Binder) : Prop where
  labels : ∃ body, term.nodeAt? path = some (abs binder body) ∧
    relabeled.nodeAt? path = some (abs { binder with label } body)
  unchanged : ∀ other, other ≠ path →
    (relabeled.nodeAt? other).map root = (term.nodeAt? other).map root

section Part

variable {part relabeledPart : Term} {position : Nat}

theorem IsFirstBinder.of_part (isFirst : term.IsFirstBinder (position :: path) binder)
    (isPart : term.parts[position]? = some part) : part.IsFirstBinder path binder := by
  have inPart (place : Path) : term.nodeAt? (position :: place) = part.nodeAt? place := by
    rw [nodeAt?_cons, isPart, Option.bind_some]
  obtain ⟨⟨body, isAbs⟩, first⟩ := isFirst
  refine ⟨⟨body, inPart path ▸ isAbs⟩, ?_⟩
  intro place other body isAbs same
  rcases first (position :: place) other body (inPart place ▸ isAbs) same with equal | before
  · exact .inl (List.cons.inj equal).2
  · exact .inr (by simpa [Path.Before] using before)

/-- No abstraction to the left of the first one binds the variable. -/
theorem IsFirstBinder.relabel?_sibling
    (isFirst : term.IsFirstBinder (position :: path) binder) {index : Nat} {sibling : Term}
    (isSibling : term.parts[index]? = some sibling) (left : index < position) :
    sibling.relabel? binder.name label = none := by
  rw [relabel?_eq_none_iff, ← isSome_findBinder?_iff, Option.isSome_iff_exists]
  rintro ⟨other, found⟩
  obtain ⟨same, place, ⟨body, isAbs⟩, -⟩ := findBinder?_eq_some_iff.mp found
  have atPlace : term.nodeAt? (index :: place) = some (abs other body) := by
    rw [nodeAt?_cons, isSibling, Option.bind_some, isAbs]
  have before : Path.Before (index :: place) (position :: path) := .rel left
  rcases isFirst.first _ _ _ atPlace same with equal | after
  · exact absurd (List.cons.inj equal).1 (Nat.ne_of_lt left)
  · exact before.asymm after

theorem LabelsAt.below (inner : LabelsAt label part relabeledPart path binder)
    (isPart : term.parts[position]? = some part)
    (parts : relabeled.parts = term.parts.set position relabeledPart)
    (root : relabeled.root = term.root) :
    LabelsAt label term relabeled (position :: path) binder := by
  obtain ⟨inside, -⟩ := List.getElem?_eq_some_iff.mp isPart
  obtain ⟨⟨body, isAbs, labelled⟩, unchanged⟩ := inner
  refine ⟨⟨body, ?_, ?_⟩, fun other apart => ?_⟩
  · rw [nodeAt?_cons, isPart, Option.bind_some, isAbs]
  · rw [nodeAt?_cons, parts, List.getElem?_set_self inside, Option.bind_some, labelled]
  · refine map_root_nodeAt?_of_part isPart parts root unchanged ?_
    rintro rest rfl
    simpa using apart

end Part

theorem labelsAt_abs (label : Option String) (binder : Binder) (body : Term) :
    LabelsAt label (abs binder body) (abs { binder with label } body) [] binder := by
  refine ⟨⟨body, rfl, rfl⟩, ?_⟩
  intro other apart
  cases other with
  | nil => exact absurd rfl apart
  | cons => rfl

/-- The search stops at the binder that the traversal comes to first. -/
theorem IsFirstBinder.exists_relabel? (isFirst : term.IsFirstBinder path binder)
    (label : Option String) :
    ∃ relabeled, term.relabel? binder.name label = some relabeled ∧
      LabelsAt label term relabeled path binder := by
  induction path generalizing term with
  | nil =>
      obtain ⟨body, isAbs⟩ := isFirst.binds
      obtain rfl : term = abs binder body := by simpa using isAbs
      exact ⟨_, by simp [relabel?], labelsAt_abs label binder body⟩
  | cons position path ih =>
      obtain ⟨body, isAbs⟩ := isFirst.binds
      rw [nodeAt?_cons, Option.bind_eq_some_iff] at isAbs
      obtain ⟨part, isPart, -⟩ := isAbs
      obtain ⟨newPart, found, labels⟩ := ih (isFirst.of_part isPart)
      cases term with
      | unit | var | hole => simp [parts] at isPart
      | abs outer body =>
          -- The outer binder has another name, or it would come first.
          have differs : outer.name ≠ binder.name := by
            intro same
            rcases isFirst.first [] outer body rfl same with equal | before
            · simp at equal
            · cases before
          obtain ⟨rfl, rfl⟩ : position = 0 ∧ part = body := by
            simpa [parts, List.getElem?_singleton, eq_comm] using isPart
          exact ⟨abs outer newPart, by simp [relabel?, differs, found],
            labels.below rfl rfl rfl⟩
      | proj1 argument | proj2 argument =>
          obtain ⟨rfl, rfl⟩ : position = 0 ∧ part = argument := by
            simpa [parts, List.getElem?_singleton, eq_comm] using isPart
          refine ⟨_, by rw [relabel?, found]; rfl, ?_⟩
          exact labels.below rfl rfl rfl
      | app left right | pair left right =>
          rcases position with _ | _ | position
          · obtain rfl : left = part := by simpa [parts] using isPart
            refine ⟨_, by rw [relabel?, found], ?_⟩
            exact labels.below rfl rfl rfl
          · obtain rfl : right = part := by simpa [parts] using isPart
            have notLeft : left.relabel? binder.name label = none :=
              isFirst.relabel?_sibling rfl Nat.zero_lt_one
            refine ⟨_, by rw [relabel?, notLeft, found]; rfl, ?_⟩
            exact labels.below rfl rfl rfl
          · simp [parts] at isPart

/-! ## Labels and look-ups -/

theorem isSome_relabel?_iff :
    (term.relabel? name label).isSome = true ↔ (term.findBinder? name).isSome = true := by
  have absent : term.relabel? name label = none ↔ name ∉ term.binders.map Binder.name :=
    relabel?_eq_none_iff
  rw [isSome_findBinder?_iff, ← not_iff_not, ← absent]
  simp

/-- Giving a label and looking up a binder agree.  A label is given exactly if a binder is
found.  If there is none, the term stays, and otherwise the first one gets the label and
nothing else changes.  Look-ups of other variables find what they found before. -/
theorem relabeling_agrees_with_lookup (term : Term) (name : VarName) (label : Option String) :
    let relabeled := (term.relabel? name label).getD term
    (term.findBinder? name = (visit [term]).findSome? fun node =>
      node.binder?.filter fun binder => binder.name = name) ∧
    ((term.relabel? name label).isSome = true ↔ (term.findBinder? name).isSome = true) ∧
    ((term.relabel? name label).isSome = false → relabeled = term) ∧
    ((term.relabel? name label).isSome = true → ∃ binder path,
      term.findBinder? name = some binder ∧ binder.name = name ∧
      term.IsFirstBinder path binder ∧ LabelsAt label term relabeled path binder ∧
      relabeled.findBinder? name = some { binder with label }) ∧
    ∀ other, other ≠ name → relabeled.findBinder? other = term.findBinder? other := by
  intro relabeled
  refine ⟨findBinder?_eq_findSome?_visit term name, isSome_relabel?_iff, ?_, ?_, ?_⟩
  · intro unfound
    rw [Option.isSome_eq_false_iff, Option.isNone_iff_eq_none] at unfound
    simp only [relabeled, unfound, Option.getD_none]
  · intro done
    obtain ⟨binder, found⟩ := Option.isSome_iff_exists.mp (isSome_relabel?_iff.mp done)
    obtain ⟨rfl, path, isFirst⟩ := findBinder?_eq_some_iff.mp found
    obtain ⟨result, relabels, labels⟩ := isFirst.exists_relabel? label
    have isResult : relabeled = result := by simp only [relabeled, relabels, Option.getD_some]
    refine ⟨binder, path, found, rfl, isFirst, isResult ▸ labels, ?_⟩
    rw [isResult, findBinder?, binders_relabel? relabels, find?_relabelFirst, ← findBinder?,
      found, Option.map_some]
  · intro other differs
    cases relabels : term.relabel? name label with
    | none => simp only [relabeled, relabels, Option.getD_none]
    | some result =>
        simp only [relabeled, relabels, Option.getD_some]
        rw [findBinder?, binders_relabel? relabels, find?_relabelFirst_of_ne differs,
          ← findBinder?]

/-- The variable `x0` is bound three times, with one binder inside another and a third one
to the right of them. -/
def boundThreeTimes : Term :=
  .pair
    (.abs ⟨⟨1⟩, some "outer"⟩
      (.abs ⟨⟨0⟩, some "first"⟩ (.abs ⟨⟨0⟩, some "second"⟩ (.app (.var ⟨0⟩) (.var ⟨1⟩)))))
    (.abs ⟨⟨0⟩, none⟩ (.hole ⟨0⟩))

theorem relabeling_agrees_with_lookup_boundThreeTimes :
    let relabeled := (boundThreeTimes.relabel? ⟨0⟩ (some "new")).getD boundThreeTimes
    (boundThreeTimes.relabel? ⟨0⟩ (some "new")).isSome = true ∧
    LabelsAt (some "new") boundThreeTimes relabeled [0, 0] ⟨⟨0⟩, some "first"⟩ ∧
    relabeled.findBinder? ⟨0⟩ = some ⟨⟨0⟩, some "new"⟩ ∧
    relabeled.findBinder? ⟨1⟩ = some ⟨⟨1⟩, some "outer"⟩ ∧
    (boundThreeTimes.relabel? ⟨2⟩ none).isSome = false ∧
    (boundThreeTimes.relabel? ⟨2⟩ none).getD boundThreeTimes = boundThreeTimes := by
  intro relabeled
  obtain ⟨-, -, -, labels, others⟩ :=
    relabeling_agrees_with_lookup boundThreeTimes ⟨0⟩ (some "new")
  obtain ⟨-, -, stays, -⟩ := relabeling_agrees_with_lookup boundThreeTimes ⟨2⟩ none
  obtain ⟨binder, path, found, -, isFirst, labelled, relabeledFound⟩ := labels rfl
  obtain rfl : ⟨⟨0⟩, some "first"⟩ = binder := Option.some.inj found
  have once : ∀ path ∈ boundThreeTimes.paths,
      boundThreeTimes.binderAt? ⟨0⟩ path = some ⟨⟨0⟩, some "first"⟩ → path = [0, 0] := by
    decide
  obtain rfl := once path (mem_paths_of_nodeAt? isFirst.binds.choose_spec)
    (binderAt?_eq_some_iff.mpr ⟨isFirst.binds, rfl⟩)
  exact ⟨rfl, labelled, relabeledFound, others ⟨1⟩ (by decide), rfl, stays rfl⟩

end Term

end TypedHoles
