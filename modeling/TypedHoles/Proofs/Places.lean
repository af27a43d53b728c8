import Mathlib.Data.List.Lex
import TypedHoles.Proofs.HoleFilling

/-!
# Places in a program

A place of a program is the way to it from the root: at each node on the way, the part
to go on with.  The traversal visits a node before its parts and the parts from left to
right, so it visits the places in lexicographic order.  Annotating a program does not
move its nodes.
-/

namespace TypedHoles

/-- A way down from the root of a term: the positions of the parts to enter. -/
abbrev Path := List Nat

/-- Whether the traversal visits one place before another: on the way to it, or further
left where the ways part. -/
def Path.Before (first second : Path) : Prop :=
  List.Lex (fun left right => left < right) first second

instance (first second : Path) : Decidable (first.Before second) :=
  inferInstanceAs (Decidable (List.Lex (fun left right => left < right) first second))

namespace Path.Before

variable {first second : Path}

theorem asymm (before : first.Before second) : ¬ second.Before first := by
  intro after
  induction before with
  | nil => cases after
  | cons _ ih =>
      cases after with
      | cons after => exact ih after
      | rel smaller => omega
  | rel smaller =>
      cases after with
      | cons => omega
      | rel larger => omega

theorem irrefl (path : Path) : ¬ path.Before path := fun before =>
  before.asymm before

end Path.Before

/-- Counting down ends with zero. -/
theorem filterMap_reverse_range_succ {α : Type} (choose : Nat → Option α) (count : Nat) :
    (List.range (count + 1)).reverse.filterMap choose =
      (List.range count).reverse.filterMap (fun number => choose (number + 1)) ++
        (choose 0).toList := by
  rw [List.range_succ_eq_map, List.reverse_cons, List.filterMap_append, ← List.map_reverse,
    List.filterMap_map]
  cases chosen : choose 0 <;> simp [chosen]

/-- What is chosen first along a list is chosen at the least of its entries at which
anything is chosen. -/
theorem head?_filterMap_eq_some_iff {α β : Type} {before : α → α → Prop}
    (asymm : ∀ {first second}, before first second → ¬ before second first)
    {list : List α} (inOrder : list.Pairwise before) {choose : α → Option β} {chosen : β} :
    (list.filterMap choose).head? = some chosen ↔
      ∃ entry ∈ list, choose entry = some chosen ∧
        ∀ other ∈ list, (choose other).isSome = true → other = entry ∨ before entry other := by
  rw [List.head?_filterMap]
  constructor
  · intro found
    obtain ⟨earlier, entry, later, rfl, isChosen, skipped⟩ :=
      List.findSome?_eq_some_iff.mp found
    refine ⟨entry, by simp, isChosen, fun other member chooses => ?_⟩
    obtain ⟨-, ordered, -⟩ := List.pairwise_append.mp inOrder
    rcases List.mem_append.mp member with early | late
    · simp [skipped other early] at chooses
    · exact (List.mem_cons.mp late).imp_right (List.rel_of_pairwise_cons ordered)
  · rintro ⟨entry, member, isChosen, least⟩
    obtain ⟨earlier, later, rfl⟩ := List.append_of_mem member
    refine List.findSome?_eq_some_iff.mpr ⟨earlier, entry, later, rfl, isChosen, ?_⟩
    intro other early
    have precedes := (List.pairwise_append.mp inOrder).2.2 other early entry (by simp)
    rw [← Option.not_isSome_iff_eq_none]
    intro chooses
    rcases least other (by simp [early]) chooses with rfl | follows
    · exact asymm precedes precedes
    · exact asymm precedes follows

/-- What is chosen in a part is chosen in the whole, one step further down. -/
theorem filterMap_map_cons {α : Type} {position : Nat} {whole part : Path → Option α}
    (same : ∀ path, whole (position :: path) = part path) (paths : List Path) :
    (paths.map (position :: ·)).filterMap whole = paths.filterMap part := by
  rw [List.filterMap_map]
  congr 1
  funext path
  exact same path

/-! ## Places of terms -/

namespace Term

/-- The parts of a node, from left to right. -/
def parts : Term → List Term
  | unit => []
  | var _ => []
  | abs _ body => [body]
  | app applicant argument => [applicant, argument]
  | pair first second => [first, second]
  | proj1 argument => [argument]
  | proj2 argument => [argument]
  | hole _ => []

/-- The node at the end of a path, unless the path leaves the term. -/
def nodeAt? : Term → Path → Option Term
  | term, [] => some term
  | term, position :: path =>
      match term.parts[position]? with
      | some part => part.nodeAt? path
      | none => none

/-- All paths that stay in a term, in order of traversal. -/
def paths : Term → List Path
  | unit => [[]]
  | var _ => [[]]
  | abs _ body => [] :: body.paths.map (0 :: ·)
  | app applicant argument =>
      [] :: (applicant.paths.map (0 :: ·) ++ argument.paths.map (1 :: ·))
  | pair first second =>
      [] :: (first.paths.map (0 :: ·) ++ second.paths.map (1 :: ·))
  | proj1 argument => [] :: argument.paths.map (0 :: ·)
  | proj2 argument => [] :: argument.paths.map (0 :: ·)
  | hole _ => [[]]

@[simp]
theorem nodeAt?_nil (term : Term) : term.nodeAt? [] = some term := by
  rw [nodeAt?]

@[simp]
theorem nodeAt?_cons (term : Term) (position : Nat) (path : Path) :
    term.nodeAt? (position :: path) =
      (term.parts[position]?).bind fun part => part.nodeAt? path := by
  rw [nodeAt?]
  cases term.parts[position]? <;> rfl

/-- The traversal visits the nodes at all paths. -/
theorem filterMap_nodeAt?_paths (term : Term) :
    term.paths.filterMap term.nodeAt? = term.preorder := by
  induction term with
  | unit | var | hole => rfl
  | abs _ _ ih | proj1 _ ih | proj2 _ ih =>
      simp [paths, preorder, parts, ← ih, List.filterMap_map]
  | app _ _ leftIh rightIh | pair _ _ leftIh rightIh =>
      simp [paths, preorder, parts, ← leftIh, ← rightIh, List.filterMap_map]

/-- The traversal visits the places in their order. -/
theorem pairwise_paths (term : Term) : term.paths.Pairwise Path.Before := by
  have below (position : Nat) {paths : List Path} (inOrder : paths.Pairwise Path.Before) :
      (paths.map (position :: ·)).Pairwise Path.Before :=
    List.pairwise_map.mpr (inOrder.imp .cons)
  induction term with
  | unit | var | hole => simp [paths]
  | abs _ _ ih | proj1 _ ih | proj2 _ ih =>
      rw [paths, List.pairwise_cons]
      refine ⟨?_, below 0 ih⟩
      intro path member
      obtain ⟨rest, -, rfl⟩ := List.mem_map.mp member
      exact .nil
  | app _ _ leftIh rightIh | pair _ _ leftIh rightIh =>
      rw [paths, List.pairwise_cons, List.pairwise_append]
      refine ⟨?_, below 0 leftIh, below 1 rightIh, ?_⟩
      · intro path member
        rcases List.mem_append.mp member with member | member <;>
          obtain ⟨rest, -, rfl⟩ := List.mem_map.mp member <;> exact .nil
      · intro first inLeft second inRight
        obtain ⟨firstRest, -, rfl⟩ := List.mem_map.mp inLeft
        obtain ⟨secondRest, -, rfl⟩ := List.mem_map.mp inRight
        exact .rel Nat.zero_lt_one

theorem cons_mem_paths {term part : Term} {position : Nat} {path : Path}
    (isPart : term.parts[position]? = some part) (inPart : path ∈ part.paths) :
    position :: path ∈ term.paths := by
  cases term with
  | unit | var | hole => simp [parts] at isPart
  | abs | proj1 | proj2 =>
      cases position with
      | zero => simp_all [parts, paths]
      | succ => simp [parts] at isPart
  | app | pair =>
      rcases position with _ | _ | _
      · simp_all [parts, paths]
      · simp_all [parts, paths]
      · simp [parts] at isPart

theorem mem_paths_of_nodeAt? {term node : Term} {path : Path}
    (found : term.nodeAt? path = some node) : path ∈ term.paths := by
  induction path generalizing term with
  | nil => cases term <;> simp [paths]
  | cons position path ih =>
      rw [nodeAt?_cons, Option.bind_eq_some_iff] at found
      obtain ⟨part, isPart, found⟩ := found
      exact cons_mem_paths isPart (ih found)

/-- The holes are the nodes at the paths that end at a hole. -/
theorem holes_eq_filterMap_paths (term : Term) :
    term.holes = term.paths.filterMap fun path => (term.nodeAt? path).bind holeName? := by
  rw [holes, ← filterMap_nodeAt?_paths, List.filterMap_filterMap]

theorem holeName?_eq_some_iff {node : Term} {name : HoleName} :
    node.holeName? = some name ↔ node = hole name := by
  cases node <;> simp [holeName?]

theorem mem_holes_iff_exists_path {term : Term} {name : HoleName} :
    name ∈ term.holes ↔ ∃ path, term.nodeAt? path = some (hole name) := by
  simp only [holes_eq_filterMap_paths, List.mem_filterMap, Option.bind_eq_some_iff,
    holeName?_eq_some_iff, exists_eq_right]
  exact ⟨fun ⟨path, _, found⟩ => ⟨path, found⟩,
    fun ⟨path, found⟩ => ⟨path, mem_paths_of_nodeAt? found, found⟩⟩

/-- The binders of the abstractions around a place, the innermost first. -/
def bindersAround (term : Term) (path : Path) : List Binder :=
  (List.range path.length).reverse.filterMap fun depth =>
    (term.nodeAt? (path.take depth)).bind binder?

theorem bindersAround_cons {term part : Term} {position : Nat}
    (isPart : term.parts[position]? = some part) (path : Path) :
    term.bindersAround (position :: path) =
      part.bindersAround path ++ term.binder?.toList := by
  have inPart (depth : Nat) :
      term.nodeAt? ((position :: path).take (depth + 1)) = part.nodeAt? (path.take depth) := by
    rw [List.take_succ_cons, nodeAt?_cons, isPart, Option.bind_some]
  rw [bindersAround, List.length_cons, filterMap_reverse_range_succ]
  simp only [inPart, List.take_zero, nodeAt?_nil, Option.bind_some, bindersAround]

end Term

/-! ## Places of annotated terms -/

namespace AnnotatedTerm

/-- The parts of a node, from left to right. -/
def parts : AnnotatedTerm → List AnnotatedTerm
  | unit => []
  | var _ _ => []
  | abs _ _ body => [body]
  | app applicant argument _ => [applicant, argument]
  | pair first second _ => [first, second]
  | proj1 argument _ _ => [argument]
  | proj2 argument _ _ => [argument]
  | hole _ _ => []

/-- The node at the end of a path, unless the path leaves the term. -/
def nodeAt? : AnnotatedTerm → Path → Option AnnotatedTerm
  | term, [] => some term
  | term, position :: path =>
      match term.parts[position]? with
      | some part => part.nodeAt? path
      | none => none

/-- The variable that an abstraction binds, with the domain that is stored there. -/
def binding? : AnnotatedTerm → Option (VarName × Ty)
  | abs binder domain _ => some (binder.name, domain)
  | _ => none

/-- The bindings of the abstractions around a place, the innermost first. -/
def bindingsAround (term : AnnotatedTerm) (path : Path) : List (VarName × Ty) :=
  (List.range path.length).reverse.filterMap fun depth =>
    (term.nodeAt? (path.take depth)).bind binding?

@[simp]
theorem nodeAt?_nil (term : AnnotatedTerm) : term.nodeAt? [] = some term := by
  rw [nodeAt?]

@[simp]
theorem nodeAt?_cons (term : AnnotatedTerm) (position : Nat) (path : Path) :
    term.nodeAt? (position :: path) =
      (term.parts[position]?).bind fun part => part.nodeAt? path := by
  rw [nodeAt?]
  cases term.parts[position]? <;> rfl

theorem parts_erase (term : AnnotatedTerm) : term.erase.parts = term.parts.map erase := by
  cases term <;> rfl

/-- Erasing the types keeps every node at its place. -/
theorem nodeAt?_erase (term : AnnotatedTerm) (path : Path) :
    term.erase.nodeAt? path = (term.nodeAt? path).map erase := by
  induction path generalizing term with
  | nil => simp
  | cons position path ih =>
      rw [Term.nodeAt?_cons, nodeAt?_cons, parts_erase, List.getElem?_map]
      cases term.parts[position]? with
      | none => rfl
      | some part => exact ih part

/-- The types that are stored at a node are types of the whole term. -/
theorem types_subset_of_nodeAt? {term node : AnnotatedTerm} {path : Path}
    (found : term.nodeAt? path = some node) : ∀ ty ∈ node.types, ty ∈ term.types := by
  induction path generalizing term with
  | nil =>
      obtain rfl : term = node := by simpa using found
      exact fun ty stored => stored
  | cons position path ih =>
      rw [nodeAt?_cons, Option.bind_eq_some_iff] at found
      obtain ⟨part, isPart, found⟩ := found
      have inPart := ih found
      have isMember := List.mem_of_getElem? isPart
      intro ty stored
      cases term with
      | unit | var | hole => simp [parts] at isMember
      | abs | proj1 | proj2 => simp_all [parts, types]
      | app | pair => rcases isMember with _ | ⟨_, _ | ⟨_, ⟨⟩⟩⟩ <;> simp_all [parts, types]

theorem bindingsAround_cons {term part : AnnotatedTerm} {position : Nat}
    (isPart : term.parts[position]? = some part) (path : Path) :
    term.bindingsAround (position :: path) =
      part.bindingsAround path ++ term.binding?.toList := by
  -- One step further down, the nodes on the way are those on the way in the part.
  have inPart (depth : Nat) :
      term.nodeAt? ((position :: path).take (depth + 1)) = part.nodeAt? (path.take depth) := by
    rw [List.take_succ_cons, nodeAt?_cons, isPart, Option.bind_some]
  rw [bindingsAround, List.length_cons, filterMap_reverse_range_succ]
  simp only [inPart, List.take_zero, nodeAt?_nil, Option.bind_some, bindingsAround]

theorem binding?_erase (term : AnnotatedTerm) :
    term.erase.binder?.map Binder.name = term.binding?.map Prod.fst := by
  cases term <;> rfl

theorem exists_of_erase_eq_hole {node : AnnotatedTerm} {name : HoleName}
    (isHole : node.erase = .hole name) : ∃ ty, node = hole name ty := by
  cases node <;> simp_all [erase]

/-- The bindings around a place are those of the binders around it. -/
theorem map_fst_bindingsAround (term : AnnotatedTerm) (path : Path) :
    (term.bindingsAround path).map Prod.fst =
      (term.erase.bindersAround path).map Binder.name := by
  simp only [bindingsAround, Term.bindersAround, List.map_filterMap, nodeAt?_erase]
  congr 1
  funext depth
  cases term.nodeAt? (path.take depth) with
  | none => rfl
  | some node => exact (binding?_erase node).symm

/-- The name, the type and the context of the hole at a place, for a term that stands in
the given context. -/
def holeAt? (term : AnnotatedTerm) (context : Context) (path : Path) :
    Option (HoleName × Ty × Context) :=
  match term.nodeAt? path with
  | some (hole name ty) =>
      some (name, ty, ⟨term.bindingsAround path ++ context.entries⟩)
  | _ => none

theorem nodeAt?_of_holeAt? {term : AnnotatedTerm} {context : Context} {path : Path}
    {entry : HoleName × Ty × Context} (found : term.holeAt? context path = some entry) :
    term.nodeAt? path = some (hole entry.1 entry.2.1) := by
  unfold holeAt? at found
  split at found
  · next node => rw [node, ← Option.some.inj found]
  · simp at found

theorem holeAt?_cons {term part : AnnotatedTerm} {position : Nat}
    (isPart : term.parts[position]? = some part) (context : Context) (path : Path) :
    term.holeAt? context (position :: path) =
      part.holeAt? ⟨term.binding?.toList ++ context.entries⟩ path := by
  simp only [holeAt?, nodeAt?_cons, isPart, Option.bind_some, bindingsAround_cons isPart,
    List.append_assoc]

/-- The holes of a term, with what the abstractions on the way to them bind. -/
theorem holesIn_eq_filterMap_paths (term : AnnotatedTerm) (context : Context) :
    term.holesIn context = term.erase.paths.filterMap (term.holeAt? context) := by
  induction term generalizing context with
  | unit | var | hole => rfl
  | abs _ _ _ ih | proj1 _ _ _ ih | proj2 _ _ _ ih =>
      rw [holesIn, ih, erase, Term.paths, List.filterMap_cons_none rfl,
        filterMap_map_cons (holeAt?_cons rfl context)]
      rfl
  | app _ _ _ leftIh rightIh | pair _ _ _ leftIh rightIh =>
      rw [holesIn, leftIh, rightIh, erase, Term.paths, List.filterMap_cons_none rfl,
        List.filterMap_append, filterMap_map_cons (holeAt?_cons rfl context),
        filterMap_map_cons (holeAt?_cons rfl context)]
      rfl

end AnnotatedTerm

end TypedHoles
