import TypedHoles.Proofs.BuildablePrograms
import TypedHoles.Proofs.Plugging

/-!
# Programs after an action

What is left of a program when an action has been put into one of its holes.  The
holes are numbered in order of traversal, so that each other hole moves by the open
places that the action brings.  Only an abstraction brings a variable, the next one
after all that the program has.
-/

namespace TypedHoles

/-! ## The next variable -/

namespace Term

variable {term : Term} {supplies : Supplies}

theorem count_vars_le_iff (supplied : term.supplies = .ok supplies) {bound : Nat} :
    supplies.vars.count ≤ bound ↔ ∀ name ∈ term.vars, name.index.toNat < bound :=
  NameSupply.count_le_iff (after_of_supplies supplied).1

theorem next_not_mem_vars (supplied : term.supplies = .ok supplies) :
    supplies.vars.next ∉ term.vars := fun member =>
  Nat.lt_irrefl _ ((count_vars_le_iff supplied).mp (Nat.le_refl _) _ member)

/-! ## Holes in order -/

/-- Whether the holes are called `0, 1, 2, …` in order of traversal. -/
def HolesInOrder (term : Term) : Prop :=
  term.holes.map (fun hole => hole.index.toNat) = List.range term.holes.length

theorem HolesInOrder.nodup {term : Term} (inOrder : term.HolesInOrder) :
    term.holes.Nodup := by
  apply List.Nodup.of_map fun hole : HoleName => hole.index.toNat
  rw [inOrder]
  exact List.nodup_range

theorem HolesInOrder.holes_eq {left right : Term} (leftOrder : left.HolesInOrder)
    (rightOrder : right.HolesInOrder)
    (sameLength : left.holes.length = right.holes.length) : left.holes = right.holes := by
  apply Name.index_injective.list_map
  rw [leftOrder, rightOrder, sameLength]

theorem HolesInOrder.eq_of_outline {left right : Term} (leftOrder : left.HolesInOrder)
    (rightOrder : right.HolesInOrder) (outlines : left.outline = right.outline) :
    left = right := by
  refine Term.eq_of_outline outlines (leftOrder.holes_eq rightOrder ?_)
  rw [← length_holes_outline left, outlines, length_holes_outline]

end Term

/-- Names that are all different are seen in the order in which they are read. -/
theorem Numbering.seen_see_of_nodup {kind : NameKind} {numbering : Numbering kind}
    {names : List (Name kind)} (distinct : (numbering.seen ++ names).Nodup) :
    (numbering.see names).seen = numbering.seen ++ names := by
  induction names generalizing numbering with
  | nil => simp
  | cons name names ih =>
      have absent : name ∉ numbering.seen := fun member =>
        List.disjoint_of_nodup_append distinct member List.mem_cons_self
      have added := see_singleton_of_not_mem absent
      rw [see_cons, ih (by rw [added]; simpa using distinct), added, List.append_assoc,
        List.singleton_append]

namespace Term

variable {term : Term}

theorem seen_holeNumbering (distinct : term.holes.Nodup) :
    term.holeNumbering.seen = term.holes :=
  @Numbering.seen_see_of_nodup _ .empty _ distinct

theorem index_rename_holeNumbering (distinct : term.holes.Nodup)
    (fits : term.holeNumbering.Fits) {name : HoleName} (member : name ∈ term.holes) :
    (term.holeNumbering.rename name).index.toNat = term.holes.idxOf name := by
  have seen : name ∈ term.holeNumbering.seen := Numbering.mem_see.mpr (.inr member)
  rw [Numbering.index_rename fits seen, seen_holeNumbering distinct]

theorem holesInOrder_mapHoles (distinct : term.holes.Nodup)
    (fits : term.holeNumbering.Fits) :
    (term.mapHoles term.holeNumbering.rename).HolesInOrder := by
  rw [HolesInOrder, holes_mapHoles, List.length_map, List.map_map]
  apply List.ext_getElem (by simp)
  intro position inMapped inRange
  have inside : position < term.holes.length := by simpa using inRange
  simp only [List.getElem_map, List.getElem_range, Function.comp_apply]
  rw [index_rename_holeNumbering distinct fits (List.getElem_mem inside),
    distinct.idxOf_getElem position inside]

end Term

/-! ## Outlines of actions -/

namespace Action

/-- The fragment for which an action stands, with the names of its holes forgotten.
An abstraction binds `binder`. -/
def outline (binder : VarName) : Action → Term
  | unit => .unit
  | var name => .var name
  | abstraction => .abs ⟨binder, none⟩ (.hole ⟨0⟩)
  | application => .app (.hole ⟨0⟩) (.hole ⟨0⟩)
  | pair => .pair (.hole ⟨0⟩) (.hole ⟨0⟩)
  | proj1 => .proj1 (.hole ⟨0⟩)
  | proj2 => .proj2 (.hole ⟨0⟩)

/-- The name that another hole of a program gets when an action is put into `hole`.
In order of traversal, the holes in front of it stay where they are, and those behind
it make room for the open places of the action. -/
def movedHole (action : Action) (term : Term) (hole other : HoleName) : HoleName :=
  let position := term.holes.idxOf other
  if position < term.holes.idxOf hole then
    ⟨.ofNat position⟩
  else
    ⟨.ofNat (position + action.arity - 1)⟩

theorem outline_eq_of_ne {action : Action} (isOther : action ≠ .abstraction)
    (first second : VarName) : action.outline first = action.outline second := by
  cases action with
  | abstraction => exact absurd rfl isOther
  | unit | var | application | pair | proj1 | proj2 => rfl

/-- It does not matter for the type which variable is bound above a hole. -/
theorem hasType_outline (action : Action) (first second : VarName) (context : Context)
    (ty : Ty) (typed : (action.outline first).HasType context ty) :
    (action.outline second).HasType context ty := by
  cases action with
  | abstraction =>
      cases typed with
      | abs inner => exact .abs .hole
  | unit | var | application | pair | proj1 | proj2 => exact typed

theorem Builds.length_holes {count : Nat} {action : Action} {fragment : Term}
    (builds : Builds count action fragment) : fragment.holes.length = action.arity := by
  cases builds <;> rfl

theorem outline_fragment {action : Action} {supplies rest : Supplies} {fragment : Term}
    (drawn : action.fragment.run supplies = .ok fragment rest) :
    fragment.outline = action.outline supplies.vars.next := by
  have vars := mem_vars_fragment drawn
  cases fragment_builds drawn with
  | unit | var | application | pair | proj1 | proj2 => rfl
  | abstraction name =>
      rcases vars name (by simp) with isVar | ⟨-, rfl⟩
      · simp at isVar
      · rfl

/-! ## After an action -/

section Fill

variable {action : Action} {term result : Term} {hole : HoleName}

theorem holesInOrder_of_fill (distinct : term.holes.Nodup) (member : hole ∈ term.holes)
    (filling : action.fill term hole = .ok result) : result.HolesInOrder := by
  obtain ⟨supplies, fragment, rest, filled, supplied, drawn, fills, fits, rfl⟩ :=
    exists_of_fill_eq_ok member filling
  exact Term.holesInOrder_mapHoles (nodup_holes_filled distinct supplied drawn fills) fits

/-- Each other hole is found at its new place. -/
theorem rename_eq_movedHole {fragment filled : Term} {supplies rest : Supplies}
    (distinct : term.holes.Nodup) (supplied : term.supplies = .ok supplies)
    (drawn : action.fragment.run supplies = .ok fragment rest)
    (fills : Term.Fills hole fragment term filled) {other : HoleName}
    (member : other ∈ term.holes) (differs : other ≠ hole) :
    filled.holeNumbering.rename other = action.movedHole term hole other := by
  have filledDistinct := nodup_holes_filled distinct supplied drawn fills
  have seen := Term.seen_holeNumbering filledDistinct
  have arity := (fragment_builds drawn).length_holes
  obtain ⟨before, after, old, new⟩ := fills.holes
  rw [old] at distinct member
  rw [new] at filledDistinct
  have notBefore : hole ∉ before := by grind
  have place : (before ++ hole :: after).idxOf hole = before.length := by
    rw [List.idxOf_append, if_neg notBefore, List.idxOf_cons_self, Nat.zero_add]
  rw [Numbering.rename, seen, movedHole, old, new, place]
  by_cases inFront : other ∈ before
  · have position := List.idxOf_lt_length_of_mem inFront
    simp only [List.idxOf_append, if_pos inFront, if_pos position]
  · have behind : other ∈ after := by grind
    have notInFragment : other ∉ fragment.holes := by grind
    simp only [List.idxOf_append, if_neg inFront, if_neg notInFragment,
      List.idxOf_cons_ne _ (Ne.symm differs)]
    rw [if_neg (by omega), arity]
    congr 2
    omega

theorem exists_supplies_of_fill (member : hole ∈ term.holes)
    (filling : action.fill term hole = .ok result) :
    ∃ supplies, term.supplies = .ok supplies := by
  obtain ⟨supplies, -, -, -, supplied, -⟩ := exists_of_fill_eq_ok member filling
  exact ⟨supplies, supplied⟩

variable {supplies after : Supplies}

/-- An action leaves its fragment in the hole and a hole in each other hole. -/
theorem exists_plug_of_fill (distinct : term.holes.Nodup) (member : hole ∈ term.holes)
    (filling : action.fill term hole = .ok result)
    (supplied : term.supplies = .ok supplies) :
    ∃ parts, result = term.plug parts ∧
      (parts hole).outline = action.outline supplies.vars.next ∧
      ∀ other ∈ term.holes, other ≠ hole →
        parts other = .hole (action.movedHole term hole other) := by
  obtain ⟨others, fragment, rest, filled, sameSupplied, drawn, fills, -, rfl⟩ :=
    exists_of_fill_eq_ok member filling
  obtain rfl := Except.ok.inj (sameSupplied.symm.trans supplied)
  refine ⟨fun other =>
    (if other = hole then fragment else .hole other).mapHoles filled.holeNumbering.rename,
    ?_, ?_, ?_⟩
  · simp only [Term.mapHoles_eq_plug]
    rw [← Term.plug_plug, ← fills.eq_plug distinct]
  · simp only [if_true, Term.outline_mapHoles, outline_fragment drawn]
  · intro other otherMember differs
    simp only [if_neg differs, Term.mapHoles,
      rename_eq_movedHole distinct supplied drawn fills otherMember differs]

theorem binders_of_fill (distinct : term.holes.Nodup) (member : hole ∈ term.holes)
    (filling : action.fill term hole = .ok result)
    (supplied : term.supplies = .ok supplies) :
    result.binders.Perm
      (term.binders ++ (action.outline supplies.vars.next).binders) := by
  obtain ⟨parts, rfl, fragment, moved⟩ :=
    exists_plug_of_fill distinct member filling supplied
  refine (term.binders_plug_perm parts).trans (.append_left _ ?_)
  obtain ⟨before, after, holes⟩ := List.append_of_mem member
  rw [holes] at distinct moved
  have noBinders (names : List HoleName)
      (others : ∀ name ∈ names, name ∈ before ++ hole :: after ∧ name ≠ hole) :
      (names.flatMap fun name => (parts name).binders) = [] := by
    refine List.flatMap_eq_nil_iff.mpr fun name occurs => ?_
    rw [moved name (others name occurs).1 (others name occurs).2, Term.binders_hole]
  rw [holes, List.flatMap_append, List.flatMap_cons, noBinders before (by grind),
    noBinders after (by grind), List.append_nil, List.nil_append, ← fragment]
  exact (parts hole).binders_outline_perm.symm

theorem mem_vars_of_fill (distinct : term.holes.Nodup) (member : hole ∈ term.holes)
    (filling : action.fill term hole = .ok result)
    (supplied : term.supplies = .ok supplies) {name : VarName} :
    name ∈ result.vars ↔
      name ∈ term.vars ∨ name ∈ (action.outline supplies.vars.next).vars := by
  obtain ⟨parts, rfl, fragment, moved⟩ :=
    exists_plug_of_fill distinct member filling supplied
  rw [Term.mem_vars_plug]
  refine or_congr_right ⟨?_, ?_⟩
  · rintro ⟨other, otherMember, mentioned⟩
    by_cases isHole : other = hole
    · rwa [isHole, ← Term.vars_outline, fragment] at mentioned
    · simp [moved other otherMember isHole] at mentioned
  · intro mentioned
    refine ⟨hole, member, ?_⟩
    rwa [← Term.vars_outline, fragment]

/-- Only an abstraction moves the next variable of a closed program, by one. -/
theorem count_vars_of_fill (distinct : term.holes.Nodup) (member : hole ∈ term.holes)
    (filling : action.fill term hole = .ok result)
    (closed : result.freeOccurrences [] = []) (supplied : term.supplies = .ok supplies)
    (resupplied : result.supplies = .ok after) :
    after.vars.count =
      if action = .abstraction then supplies.vars.count + 1 else supplies.vars.count := by
  apply eq_of_forall_ge_iff
  intro bound
  have split : after.vars.count ≤ bound ↔ supplies.vars.count ≤ bound ∧
      ∀ name ∈ (action.outline supplies.vars.next).vars, name.index.toNat < bound := by
    rw [Term.count_vars_le_iff resupplied, Term.count_vars_le_iff supplied]
    simp only [mem_vars_of_fill distinct member filling supplied, or_imp, forall_and]
  rw [split]
  cases action with
  | unit | application | pair | proj1 | proj2 => simp [outline]
  | abstraction =>
      simp only [outline, Term.vars_abs, Term.vars_hole, List.mem_singleton, forall_eq,
        if_true]
      exact and_iff_right_of_imp Nat.le_of_succ_le
  | var name =>
      obtain ⟨parts, rfl, fragment, -⟩ :=
        exists_plug_of_fill distinct member filling supplied
      -- The variable is bound around the hole, so it is not new.
      have occurs : name ∈ term.vars := by
        simpa using Term.mem_vars_of_closed_plug closed member
          (Term.eq_var_of_outline fragment)
      simp only [outline, Term.vars_var, List.mem_singleton, forall_eq, reduceCtorEq,
        if_false]
      exact and_iff_left_of_imp fun small =>
        (Term.count_vars_le_iff supplied).mp small name occurs

end Fill

end Action

end TypedHoles
