import TypedHoles.Proofs.FilledPrograms
import TypedHoles.Proofs.Places

/-!
# What an action inserts

An action can be put into a hole exactly if the names for its fragment suffice.  Then
the fragment stands at the place of the hole, and the rest of the program is as it was,
except that the holes are numbered again in order of traversal.
-/

namespace TypedHoles

namespace Action

section Fill

variable {action : Action} {term : Term} {hole : HoleName}

/-- If the names suffice for the fragment, they suffice for numbering the holes, too. -/
theorem fits_filled {fragment filled : Term} {supplies rest : Supplies}
    (distinct : term.holes.Nodup) (supplied : term.supplies = .ok supplies)
    (drawn : action.fragment.run supplies = .ok fragment rest)
    (fills : Term.Fills hole fragment term filled) : filled.holeNumbering.Fits := by
  have few : term.holes.length ≤ supplies.holes.count :=
    @Numbering.length_seen_le _ ⟨term.holes⟩ _ distinct (Term.lt_count_of_supplies supplied)
  have some := List.length_pos_of_mem fills.mem_holes
  have arity := (fragment_builds drawn).length_holes
  have length := fills.length_holes
  obtain ⟨-, left⟩ :=
    (action.takes_fragment.exists_run_iff supplies).mp ⟨fragment, rest, drawn⟩
  rw [Numbering.Fits, Term.seen_holeNumbering
    (nodup_holes_filled distinct supplied drawn fills)]
  omega

theorem exists_fill_iff (distinct : term.holes.Nodup) (member : hole ∈ term.holes) :
    (∃ result, action.fill term hole = .ok result) ↔ action.NamesSuffice term := by
  rw [← exists_draws_iff]
  constructor
  · rintro ⟨result, filling⟩
    obtain ⟨supplies, fragment, rest, -, supplied, drawn, -⟩ :=
      exists_of_fill_eq_ok member filling
    exact ⟨fragment, supplies, rest, supplied, drawn⟩
  · rintro ⟨fragment, supplies, rest, supplied, drawn⟩
    obtain ⟨filled, found⟩ := Term.exists_fillHole? member fragment
    have fits := fits_filled distinct supplied drawn (Term.fills_of_fillHole? found)
    exact ⟨_, by rw [fill_eq supplied drawn found, if_pos fits]⟩

end Fill

end Action

/-! ## The place of the fragment -/

namespace Term

variable {term part : Term} {parts : HoleName → Term} {position : Nat} {path : Path}

theorem getElem?_parts_plug (isPart : term.parts[position]? = some part) :
    (term.plug parts).parts[position]? = some (part.plug parts) := by
  cases term with
  | unit | var | hole => simp [Term.parts] at isPart
  | abs | proj1 | proj2 =>
      cases position with
      | zero => simp_all [Term.parts, plug]
      | succ => simp [Term.parts] at isPart
  | app | pair =>
      rcases position with _ | _ | _
      · simp_all [Term.parts, plug]
      · simp_all [Term.parts, plug]
      · simp [Term.parts] at isPart

/-- At the place of a hole stands what is plugged into it. -/
theorem nodeAt?_plug {name : HoleName} (found : term.nodeAt? path = some (hole name))
    (parts : HoleName → Term) : (term.plug parts).nodeAt? path = some (parts name) := by
  induction path generalizing term with
  | nil =>
      obtain rfl : term = hole name := by simpa using found
      rw [nodeAt?_nil, plug]
  | cons position path ih =>
      rw [nodeAt?_cons, Option.bind_eq_some_iff] at found
      obtain ⟨part, isPart, found⟩ := found
      rw [nodeAt?_cons, getElem?_parts_plug isPart, Option.bind_some, ih found]

/-- If holes are plugged into all other holes, then one hole is filled, up to the names of
holes. -/
theorem exists_fills_outline_eq {name : HoleName} (distinct : term.holes.Nodup)
    (member : name ∈ term.holes)
    (others : ∀ other ∈ term.holes, other ≠ name → (parts other).outline = hole ⟨0⟩) :
    ∃ filled, Fills name (parts name) term filled ∧
      (term.plug parts).outline = filled.outline := by
  obtain ⟨filled, found⟩ := exists_fillHole? member (parts name)
  have fills := fills_of_fillHole? found
  refine ⟨filled, fills, ?_⟩
  rw [fills.eq_plug distinct, outline_plug, outline_plug]
  refine plug_congr fun other occurs => ?_
  by_cases same : other = name
  · rw [if_pos same, same]
  · rw [if_neg same, others other occurs same, outline_hole]

end Term

/-- A run of numbers inside a range is determined by where it begins and ends. -/
theorem eq_range'_of_range_eq_append {total : Nat} {front middle back : List Nat}
    (split : List.range total = front ++ middle ++ back) :
    middle = List.range' front.length middle.length := by
  rw [List.range_eq_range', List.append_assoc, List.range'_eq_append_iff] at split
  obtain ⟨frontCount, -, rfl, rest⟩ := split
  obtain ⟨middleCount, -, rfl, -⟩ := List.range'_eq_append_iff.mp rest.symm
  simp

/-! ## The program after an action -/

namespace Action

/-- What an action makes of a program when it is put into `hole`, the hole that the
traversal visits at `position`. -/
structure Inserts (action : Action) (term : Term) (hole : HoleName) (position : Nat)
    (binder : VarName) (fragment result : Term) : Prop where
  /-- The fragment is the constructor or variable of the action. -/
  outline : fragment.outline = action.outline binder
  /-- The variable of an abstraction is neither bound nor mentioned in the program. -/
  fresh : binder ∉ term.vars
  /-- The fragment stands where the hole was. -/
  placed : ∀ path, term.nodeAt? path = some (.hole hole) →
    result.nodeAt? path = some fragment
  /-- The holes of the fragment are numbered from the position of the hole on. -/
  newHoles : fragment.holes.map (fun name => name.index.toNat) =
    List.range' position action.arity
  /-- All holes are numbered in order of traversal. -/
  holes : result.holes.map (fun name => name.index.toNat) =
    List.range (term.holes.length - 1 + action.arity)
  /-- Nothing but the hole is replaced, apart from the names of holes. -/
  around : ∃ filled, Term.Fills hole fragment term filled ∧ result.outline = filled.outline

section Inserts

variable {action : Action} {term : Term} {hole : HoleName}

theorem length_holes_outline_eq_arity (action : Action) (binder : VarName) :
    (action.outline binder).holes.length = action.arity := by
  cases action <;> rfl

/-- The holes in front of the fragment and behind it are as many as before. -/
theorem exists_holes_plug_eq_append {parts : HoleName → Term} {before after : List HoleName}
    (distinct : term.holes.Nodup) (split : term.holes = before ++ hole :: after)
    (moved : ∀ other ∈ term.holes, other ≠ hole →
      parts other = .hole (action.movedHole term hole other)) :
    ∃ front back, (term.plug parts).holes = front ++ (parts hole).holes ++ back ∧
      front.length = before.length ∧ back.length = after.length := by
  rw [split] at distinct
  have oneEach (names : List HoleName)
      (others : ∀ name ∈ names, name ∈ before ++ hole :: after ∧ name ≠ hole) :
      (names.flatMap fun name => (parts name).holes) =
        names.map (action.movedHole term hole) := by
    rw [List.map_eq_flatMap]
    refine List.flatMap_congr fun name member => ?_
    obtain ⟨occurs, differs⟩ := others name member
    rw [moved name (split ▸ occurs) differs, Term.holes_hole]
  refine ⟨before.map (action.movedHole term hole), after.map (action.movedHole term hole),
    ?_, List.length_map _, List.length_map _⟩
  rw [Term.holes_plug, split, List.flatMap_append, List.flatMap_cons,
    oneEach before (by grind), oneEach after (by grind), List.append_assoc]

/-- An action can be put into a hole exactly if the names suffice, and then its fragment
is inserted there and nothing else changes but the names of the holes. -/
theorem fill_inserts_fragment {position : Nat} (distinct : term.holes.Nodup)
    (found : term.holes[position]? = some hole) :
    ((∃ result, action.fill term hole = .ok result) ↔ action.NamesSuffice term) ∧
      ∀ result, action.fill term hole = .ok result →
        ∃ binder fragment, action.Inserts term hole position binder fragment result := by
  have member := List.mem_of_getElem? found
  refine ⟨exists_fill_iff distinct member, fun result filling => ?_⟩
  obtain ⟨supplies, supplied⟩ := exists_supplies_of_fill member filling
  have inOrder := holesInOrder_of_fill distinct member filling
  obtain ⟨parts, rfl, outline, moved⟩ := exists_plug_of_fill distinct member filling supplied
  obtain ⟨inside, isHole⟩ := List.getElem?_eq_some_iff.mp found
  have split : term.holes =
      term.holes.take position ++ hole :: term.holes.drop (position + 1) := by
    rw [← isHole, ← List.drop_eq_getElem_cons inside, List.take_append_drop]
  obtain ⟨front, back, holes, frontLength, backLength⟩ :=
    exists_holes_plug_eq_append distinct split moved
  have arity : (parts hole).holes.length = action.arity := by
    rw [← Term.length_holes_outline, outline, length_holes_outline_eq_arity]
  rw [List.length_take, Nat.min_eq_left inside.le] at frontLength
  rw [List.length_drop] at backLength
  refine ⟨supplies.vars.next, parts hole, outline, Term.next_not_mem_vars supplied,
    fun path atHole => Term.nodeAt?_plug atHole parts, ?_, ?_, ?_⟩
  · -- All holes together are numbered by a range, and those of the fragment are a run of it.
    rw [Term.HolesInOrder, holes, List.map_append, List.map_append] at inOrder
    have run := eq_range'_of_range_eq_append inOrder.symm
    rwa [List.length_map, List.length_map, frontLength, arity] at run
  · rw [inOrder, holes]
    congr 1
    simp only [List.length_append]
    omega
  · refine Term.exists_fills_outline_eq distinct member fun other occurs differs => ?_
    rw [moved other occurs differs, Term.outline_hole]

/-- A program with a hole between two others, in which a variable is free. -/
def holeBetweenHoles : Term :=
  .pair (.abs ⟨⟨7⟩, some "n"⟩ (.hole ⟨9⟩)) (.app (.hole ⟨4⟩) (.pair (.var ⟨12⟩) (.hole ⟨0⟩)))

theorem fill_inserts_fragment_holeBetweenHoles :
    let result : Term := .pair (.abs ⟨⟨7⟩, some "n"⟩ (.hole ⟨0⟩))
      (.app (.abs ⟨⟨13⟩, none⟩ (.hole ⟨1⟩)) (.pair (.var ⟨12⟩) (.hole ⟨2⟩)))
    abstraction.fill holeBetweenHoles ⟨4⟩ = .ok result ∧
      abstraction.NamesSuffice holeBetweenHoles ∧
      ∃ binder fragment,
        abstraction.Inserts holeBetweenHoles ⟨4⟩ 1 binder fragment result := by
  intro result
  have filling : abstraction.fill holeBetweenHoles ⟨4⟩ = .ok result := by decide
  obtain ⟨affords, inserts⟩ :=
    @fill_inserts_fragment abstraction holeBetweenHoles ⟨4⟩ 1 (by decide) (by decide)
  exact ⟨filling, affords.mp ⟨result, filling⟩, inserts result filling⟩

end Inserts

end Action

end TypedHoles
