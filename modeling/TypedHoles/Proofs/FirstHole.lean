import TypedHoles.Proofs.Places

/-!
# Filling the first hole

The holes of a term are found by a traversal that keeps the parts which are still to be
visited on a stack.  A hole is filled by a search that descends into the left part first.
The search succeeds exactly if the traversal comes across a hole of that name, and then
the hole that it replaces is the one that the traversal visits first.  All other nodes
stay as they are.
-/

namespace TypedHoles

namespace Term

/-! ## Traversal with a stack -/

theorem preorder_eq_cons (term : Term) :
    term.preorder = term :: term.parts.flatMap preorder := by
  cases term <;> simp [preorder, parts]

/-- The nodes that are visited when the terms of a stack are taken from its top, and the
parts of each term are put there in its place. -/
def visit : List Term → List Term
  | [] => []
  | node :: stack => node :: visit (node.parts ++ stack)
termination_by stack => (stack.flatMap preorder).length
decreasing_by simp [preorder_eq_cons node]

/-- The terms of a stack are visited one after the other. -/
theorem visit_eq_flatMap_preorder (stack : List Term) : visit stack = stack.flatMap preorder := by
  fun_induction visit stack with
  | case1 => rfl
  | case2 node stack ih =>
      rw [ih, List.flatMap_append, List.flatMap_cons, preorder_eq_cons node, List.cons_append]

/-! ## The place that is filled -/

/-- A node without its parts. -/
def root : Term → Term
  | unit => unit
  | var name => var name
  | abs binder _ => abs binder unit
  | app _ _ => app unit unit
  | pair _ _ => pair unit unit
  | proj1 _ => proj1 unit
  | proj2 _ => proj2 unit
  | hole name => hole name

theorem holeName?_root (term : Term) : term.root.holeName? = term.holeName? := by
  cases term <;> rfl

/-- Whether a term is filled at a place, which is that of the first hole called `name`. -/
structure FillsFirst (name : HoleName) (fragment term filled : Term) (path : Path) : Prop where
  isHole : term.nodeAt? path = some (hole name)
  isFirst : ∀ other, term.nodeAt? other = some (hole name) → other = path ∨ path.Before other
  inserted : filled.nodeAt? path = some fragment
  /-- The nodes in front of the hole, behind it and around it stay. -/
  unchanged : ∀ other, ¬ path <+: other →
    (filled.nodeAt? other).map root = (term.nodeAt? other).map root
  /-- The holes of the fragment come in place of the first hole of that name. -/
  holes : ∃ before after, term.holes = before ++ name :: after ∧ name ∉ before ∧
    filled.holes = before ++ fragment.holes ++ after

/-- A change below one part leaves the other parts and what stands above as they are. -/
theorem map_root_nodeAt?_of_part {term changed part changedPart : Term} {position : Nat}
    (isPart : term.parts[position]? = some part)
    (parts : changed.parts = term.parts.set position changedPart)
    (root : changed.root = term.root) {outside : Path → Prop}
    (unchanged : ∀ other, outside other →
      (changedPart.nodeAt? other).map Term.root = (part.nodeAt? other).map Term.root)
    {other : Path} (apart : ∀ rest, other = position :: rest → outside rest) :
    (changed.nodeAt? other).map Term.root = (term.nodeAt? other).map Term.root := by
  obtain ⟨inside, -⟩ := List.getElem?_eq_some_iff.mp isPart
  cases other with
  | nil => simp [root]
  | cons index other =>
      rw [nodeAt?_cons, nodeAt?_cons, parts]
      by_cases same : position = index
      · subst same
        rw [List.getElem?_set_self inside, isPart]
        exact unchanged other (apart other rfl)
      · rw [List.getElem?_set_ne same]

theorem holes_eq_append_parts (term : Term) :
    term.holes = term.holeName?.toList ++ term.parts.flatMap Term.holes := by
  cases term <;> simp [parts, holeName?]

section FillsFirst

variable {name : HoleName} {fragment term filled part filledPart : Term} {position : Nat}
  {path : Path}

/-- A place comes first that is the first one in a part, if there is no hole of that name
further left. -/
theorem eq_or_before_of_part (isPart : term.parts[position]? = some part)
    (noneLeft : ∀ sibling ∈ term.parts.take position, name ∉ sibling.holes)
    (isFirst : ∀ other, part.nodeAt? other = some (hole name) →
      other = path ∨ path.Before other)
    {other : Path} (found : term.nodeAt? other = some (hole name)) :
    other = position :: path ∨ Path.Before (position :: path) other := by
  cases other with
  | nil =>
      obtain rfl : term = hole name := by simpa using found
      simp [parts] at isPart
  | cons index other =>
      rw [nodeAt?_cons, Option.bind_eq_some_iff] at found
      obtain ⟨sibling, isSibling, found⟩ := found
      rcases Nat.lt_trichotomy index position with left | rfl | right
      · have among : sibling ∈ term.parts.take position :=
          List.mem_of_getElem? ((List.getElem?_take_of_lt left).trans isSibling)
        exact absurd (mem_holes_iff_exists_path.mpr ⟨other, found⟩) (noneLeft _ among)
      · obtain rfl : part = sibling := Option.some.inj (isPart.symm.trans isSibling)
        exact (isFirst other found).imp (congrArg (index :: ·)) .cons
      · exact .inr (.rel right)

/-- The holes of the whole are those of the part between those of the other parts. -/
theorem exists_holes_of_part (inside : position < term.parts.length)
    (isPart : term.parts[position]? = some part)
    (parts : filled.parts = term.parts.set position filledPart)
    (root : filled.root = term.root)
    (noneLeft : ∀ sibling ∈ term.parts.take position, name ∉ sibling.holes)
    (inner : ∃ before after, part.holes = before ++ name :: after ∧ name ∉ before ∧
      filledPart.holes = before ++ fragment.holes ++ after) :
    ∃ before after, term.holes = before ++ name :: after ∧ name ∉ before ∧
      filled.holes = before ++ fragment.holes ++ after := by
  obtain ⟨before, after, old, notBefore, new⟩ := inner
  have noHole : term.holeName? = none := by
    cases term <;> simp_all [Term.parts, holeName?]
  have filledNoHole : filled.holeName? = none := by
    rw [← holeName?_root, root, holeName?_root, noHole]
  have split (part : Term) : (term.parts.set position part).flatMap Term.holes =
      (term.parts.take position).flatMap Term.holes ++
        (part.holes ++ (term.parts.drop (position + 1)).flatMap Term.holes) := by
    rw [List.set_eq_take_append_cons_drop, if_pos inside, List.flatMap_append,
      List.flatMap_cons]
  have whole : term.parts.set position part = term.parts := by
    rw [List.getElem?_eq_getElem inside, Option.some.injEq] at isPart
    rw [← isPart, List.set_getElem_self]
  refine ⟨(term.parts.take position).flatMap Term.holes ++ before,
    after ++ (term.parts.drop (position + 1)).flatMap Term.holes, ?_, ?_, ?_⟩
  · rw [holes_eq_append_parts, noHole, ← whole, split, old]
    simp [whole]
  · simpa [notBefore] using noneLeft
  · rw [holes_eq_append_parts, filledNoHole, parts, split, new]
    simp

/-- The first hole of a part is the first one of the whole, if there is none further
left. -/
theorem FillsFirst.below (inner : FillsFirst name fragment part filledPart path)
    (isPart : term.parts[position]? = some part)
    (parts : filled.parts = term.parts.set position filledPart)
    (root : filled.root = term.root)
    (noneLeft : ∀ sibling ∈ term.parts.take position, name ∉ sibling.holes) :
    FillsFirst name fragment term filled (position :: path) := by
  obtain ⟨inside, -⟩ := List.getElem?_eq_some_iff.mp isPart
  have filledPart_eq : filled.parts[position]? = some filledPart := by
    rw [parts, List.getElem?_set_self inside]
  refine ⟨?_, fun other => eq_or_before_of_part isPart noneLeft inner.isFirst, ?_, ?_, ?_⟩
  · rw [nodeAt?_cons, isPart, Option.bind_some, inner.isHole]
  · rw [nodeAt?_cons, filledPart_eq, Option.bind_some, inner.inserted]
  · intro other apart
    refine map_root_nodeAt?_of_part isPart parts root inner.unchanged ?_
    rintro rest rfl
    simpa using apart
  · exact exists_holes_of_part inside isPart parts root noneLeft inner.holes

theorem fillsFirst_hole (name : HoleName) (fragment : Term) :
    FillsFirst name fragment (hole name) fragment [] := by
  refine ⟨rfl, fun other _ => ?_, rfl, fun other apart => absurd ⟨other, rfl⟩ apart,
    [], [], by simp⟩
  cases other with
  | nil => exact .inl rfl
  | cons => exact .inr .nil

/-- The search finds the hole that the traversal visits first. -/
theorem exists_fillsFirst (found : term.fillHole? name fragment = some filled) :
    ∃ path, FillsFirst name fragment term filled path := by
  have absent {part : Term} (unfilled : part.fillHole? name fragment = none) :
      name ∉ part.holes := by
    rw [← isSome_fillHole?_iff, unfilled]
    simp
  induction term generalizing filled with
  | unit | var => simp [fillHole?] at found
  | hole other =>
      by_cases same : other = name
      · obtain rfl : fragment = filled := by simpa [fillHole?, same] using found
        exact ⟨[], same ▸ fillsFirst_hole name fragment⟩
      · simp [fillHole?, same] at found
  | abs _ _ ih | proj1 _ ih | proj2 _ ih =>
      obtain ⟨_, inner, rfl⟩ := Option.map_eq_some_iff.mp found
      obtain ⟨path, first⟩ := ih inner
      exact ⟨0 :: path, first.below rfl rfl rfl (by simp)⟩
  | app left right leftIh rightIh | pair left right leftIh rightIh =>
      rw [fillHole?] at found
      split at found
      · next left' inner =>
        obtain rfl := Option.some.inj found
        obtain ⟨path, first⟩ := leftIh inner
        exact ⟨0 :: path, first.below rfl rfl rfl (by simp)⟩
      · next notLeft =>
        -- The search goes on to the right only if it has found nothing on the left.
        obtain ⟨_, inner, rfl⟩ := Option.map_eq_some_iff.mp found
        obtain ⟨path, first⟩ := rightIh inner
        exact ⟨1 :: path, first.below rfl rfl rfl (by simpa [parts] using absent notLeft)⟩

end FillsFirst

theorem hasHole_iff {term : Term} {name : HoleName} :
    term.hasHole name = true ↔ name ∈ term.holes := by
  rw [hasHole, List.contains_iff_mem]

theorem mem_visit_hole_iff {term : Term} {name : HoleName} :
    hole name ∈ visit [term] ↔ name ∈ term.holes := by
  rw [visit_eq_flatMap_preorder, List.flatMap_singleton, holes, List.mem_filterMap]
  simp [holeName?_eq_some_iff]

/-- Looking for a hole, listing the holes and filling a hole agree with the traversal.  A
hole can be filled exactly if the traversal visits one of that name.  If it does not, the
term stays, and otherwise the first one is replaced and nothing else. -/
theorem filling_agrees_with_traversal (term : Term) (name : HoleName) (fragment : Term) :
    term.holes = (visit [term]).filterMap holeName? ∧
    (term.hasHole name = true ↔ hole name ∈ visit [term]) ∧
    (term.hasHole name = true ↔ name ∈ term.holes) ∧
    ((term.fillHole? name fragment).isSome = true ↔ term.hasHole name = true) ∧
    ((term.fillHole? name fragment).isSome = false →
      (term.fillHole? name fragment).getD term = term) ∧
    ((term.fillHole? name fragment).isSome = true →
      ∃ path, FillsFirst name fragment term ((term.fillHole? name fragment).getD term) path) := by
  refine ⟨?_, hasHole_iff.trans mem_visit_hole_iff.symm, hasHole_iff,
    isSome_fillHole?_iff.trans hasHole_iff.symm, fun unfilled => ?_, fun filled => ?_⟩
  · rw [visit_eq_flatMap_preorder, List.flatMap_singleton, holes]
  · rw [Option.isSome_eq_false_iff, Option.isNone_iff_eq_none] at unfilled
    rw [unfilled, Option.getD_none]
  · obtain ⟨result, found⟩ := Option.isSome_iff_exists.mp filled
    rw [found, Option.getD_some]
    exact exists_fillsFirst found

theorem filling_agrees_with_traversal_repeated :
    let term : Term := .pair (.app (.hole ⟨3⟩) (.hole ⟨5⟩)) (.abs ⟨⟨0⟩, none⟩ (.hole ⟨5⟩))
    let fragment : Term := .pair (.hole ⟨8⟩) (.hole ⟨5⟩)
    let filled : Term := .pair (.app (.hole ⟨3⟩) fragment) (.abs ⟨⟨0⟩, none⟩ (.hole ⟨5⟩))
    term.fillHole? ⟨5⟩ fragment = some filled ∧ term.hasHole ⟨5⟩ = true ∧
    (∃ path, FillsFirst ⟨5⟩ fragment term filled path) ∧
    (term.fillHole? ⟨8⟩ fragment).isSome = false ∧
    (term.fillHole? ⟨8⟩ fragment).getD term = term := by
  intro term fragment filled
  obtain ⟨-, -, -, agrees, -, fills⟩ := filling_agrees_with_traversal term ⟨5⟩ fragment
  obtain ⟨-, -, -, -, stays, -⟩ := filling_agrees_with_traversal term ⟨8⟩ fragment
  exact ⟨rfl, agrees.mp rfl, fills rfl, rfl, stays rfl⟩

end Term

end TypedHoles
