import TypedHoles.Proofs.UnboundVariables

/-!
# Slots that are filled by drawing

Annotating a closed program fills every slot of its nodes with a type variable of its own,
so that the slots hold exactly the type variables that have been drawn.  Only a variable
takes its type from elsewhere: from the innermost abstraction around it that binds it.
The constraints of the annotated program are those of its nodes, in order of traversal.
-/

namespace TypedHoles

namespace AnnotatedTerm

/-! ## Slots -/

/-- The types that have to be found for a term, those of a node before those of its parts.
The type of a variable is not among them, as it is known from the context. -/
def slots : AnnotatedTerm → List Ty
  | unit => []
  | var _ _ => []
  | abs _ domain body => domain :: body.slots
  | app applicant argument ty => ty :: (applicant.slots ++ argument.slots)
  | pair first second ty => ty :: (first.slots ++ second.slots)
  | proj1 argument ty second => ty :: second :: argument.slots
  | proj2 argument ty first => ty :: first :: argument.slots
  | hole _ ty => [ty]

end AnnotatedTerm

/-- The types that are drawn after `count` others. -/
def drawnTypes (count drawn : Nat) : List Ty :=
  (List.range' count drawn).map fun index => .var (.drawn index)

theorem drawnTypes_add (count first second : Nat) :
    drawnTypes count (first + second) =
      drawnTypes count first ++ drawnTypes (count + first) second := by
  rw [drawnTypes, ← List.range'_append_1, List.map_append]
  rfl

theorem drawnTypes_succ (count drawn : Nat) :
    drawnTypes count (drawn + 1) = .var (.drawn count) :: drawnTypes (count + 1) drawn := by
  rw [drawnTypes, List.range'_succ, List.map_cons]
  rfl

theorem nodup_drawnTypes {count drawn : Nat} (few : count + drawn ≤ UInt32.size) :
    (drawnTypes count drawn).Nodup := by
  refine List.Nodup.map_on ?_ List.nodup_range'
  intro first firstMember second secondMember same
  rw [List.mem_range'_1] at firstMember secondMember
  have sameIndex := congrArg (fun name : TypeVar => name.index.toNat) (Ty.var.inj same)
  simp only [TypeVar.index_drawn (show first < UInt32.size by omega),
    TypeVar.index_drawn (show second < UInt32.size by omega)] at sameIndex
  exact sameIndex

/-- The slots of a draft hold the types that are drawn for it, each once. -/
theorem Term.slots_draft_perm (term : Term) (context : Context) (count : Nat) :
    (term.draft context count).slots.Perm (drawnTypes count term.typeVarCount) := by
  induction term generalizing context count with
  | unit | var => exact .nil
  | hole => exact .refl _
  | abs binder body ih =>
      rw [draft, AnnotatedTerm.slots, typeVarCount, drawnTypes_succ]
      exact (ih _ (count + 1)).cons _
  | app left right leftIh rightIh | pair left right leftIh rightIh =>
      -- The parts draw first, although their slots are listed last.
      have parts := (leftIh context count).append (rightIh context (count + left.typeVarCount))
      rw [draft, AnnotatedTerm.slots, typeVarCount, drawnTypes_add, drawnTypes_add,
        Nat.add_assoc count]
      exact (parts.cons _).trans (List.perm_append_singleton _ _).symm
  | proj1 argument ih | proj2 argument ih =>
      rw [draft, AnnotatedTerm.slots, typeVarCount, drawnTypes_add]
      exact ((ih context count).append_left [_, _]).trans List.perm_append_comm

/-! ## Variables -/

namespace AnnotatedTerm

variable {term : AnnotatedTerm} {path : Path} {name : VarName} {ty domain : Ty}

/-- Whether the abstraction at some depth on the way to a place is the innermost one around
the place that binds `name`, and stores `domain` for it. -/
structure BoundAt (term : AnnotatedTerm) (path : Path) (name : VarName) (domain : Ty)
    (depth : Nat) : Prop where
  around : depth < path.length
  binds : ∃ binder body,
    term.nodeAt? (path.take depth) = some (abs binder domain body) ∧ binder.name = name
  innermost : ∀ between, depth < between → between < path.length →
    ∀ binder other body, term.nodeAt? (path.take between) = some (abs binder other body) →
      binder.name ≠ name

theorem binding?_eq_some_iff {node : AnnotatedTerm} :
    node.binding? = some (name, domain) ↔
      ∃ binder body, node = abs binder domain body ∧ binder.name = name := by
  cases node with
  | abs binder stored body =>
      simp only [binding?, Option.some.injEq, Prod.mk.injEq, abs.injEq]
      constructor
      · rintro ⟨same, rfl⟩
        exact ⟨binder, body, ⟨rfl, rfl, rfl⟩, same⟩
      · rintro ⟨_, _, ⟨rfl, rfl, rfl⟩, same⟩
        exact ⟨same, rfl⟩
  | _ => simp [binding?]

/-- A look-up among the bindings around a place finds the innermost one. -/
theorem exists_boundAt
    (found : Context.lookup ⟨term.bindingsAround path⟩ name = some domain) :
    ∃ depth, term.BoundAt path name domain depth := by
  obtain ⟨⟨stored, _⟩, first, rfl⟩ := Option.map_eq_some_iff.mp found
  obtain rfl : stored = name := by simpa using List.find?_some first
  have inward : (List.range path.length).reverse.Pairwise fun inner outer => outer < inner :=
    List.pairwise_reverse.mpr List.pairwise_lt_range
  rw [bindingsAround, ← List.head?_filter, List.filter_filterMap,
    head?_filterMap_eq_some_iff Nat.lt_asymm inward] at first
  obtain ⟨depth, member, chosen, nearest⟩ := first
  obtain ⟨isBinding, -⟩ := Option.filter_eq_some_iff.mp chosen
  obtain ⟨node, isNode, isBinding⟩ := Option.bind_eq_some_iff.mp isBinding
  obtain ⟨binder, body, rfl, same⟩ := binding?_eq_some_iff.mp isBinding
  refine ⟨depth, by simpa using member, ⟨binder, body, isNode, same⟩, ?_⟩
  intro between inside around other otherDomain otherBody isOther sameName
  have notFurther := nearest between (by simpa using around)
    (by simp [isOther, binding?, Option.filter, sameName])
  omega

/-- The parts of a node stand in its context, with its binding in front. -/
theorem Scoped.part {context : Context} {part : AnnotatedTerm} {position : Nat}
    (inScope : term.Scoped context) (isPart : term.parts[position]? = some part) :
    part.Scoped ⟨term.binding?.toList ++ context.entries⟩ := by
  cases term with
  | unit | var | hole => simp [parts] at isPart
  | abs | proj1 | proj2 =>
      cases position with
      | zero =>
          obtain rfl := Option.some.inj isPart
          exact inScope
      | succ => simp [parts] at isPart
  | app | pair =>
      rcases position with _ | _ | _
      · obtain rfl := Option.some.inj isPart
        exact inScope.1
      · obtain rfl := Option.some.inj isPart
        exact inScope.2
      · simp [parts] at isPart

/-- A variable has the type that the bindings around it give it. -/
theorem Scoped.lookup_of_nodeAt? {context : Context} (inScope : term.Scoped context)
    (found : term.nodeAt? path = some (var name ty)) :
    Context.lookup ⟨term.bindingsAround path ++ context.entries⟩ name = some ty := by
  induction path generalizing term context with
  | nil =>
      obtain rfl : term = var name ty := by simpa using found
      exact inScope
  | cons position path ih =>
      rw [nodeAt?_cons, Option.bind_eq_some_iff] at found
      obtain ⟨part, isPart, found⟩ := found
      rw [bindingsAround_cons isPart, List.append_assoc]
      exact ih (inScope.part isPart) found

/-! ## Constraints -/

/-- The constraint of a node. -/
def constraint? : AnnotatedTerm → Option Constraint
  | app applicant argument ty => some ⟨applicant.ty, .arrow argument.ty ty⟩
  | pair first second ty => some ⟨.product first.ty second.ty, ty⟩
  | proj1 argument ty second => some ⟨argument.ty, .product ty second⟩
  | proj2 argument ty first => some ⟨argument.ty, .product first ty⟩
  | _ => none

/-- The constraint of the node at a place. -/
def constraintAt? (term : AnnotatedTerm) (path : Path) : Option Constraint :=
  (term.nodeAt? path).bind constraint?

theorem constraintAt?_cons {term part : AnnotatedTerm} {position : Nat}
    (isPart : term.parts[position]? = some part) (path : Path) :
    term.constraintAt? (position :: path) = part.constraintAt? path := by
  rw [constraintAt?, nodeAt?_cons, isPart, Option.bind_some, ← constraintAt?]

/-- The constraints are those of the nodes in order of traversal. -/
theorem constraints_eq_filterMap_paths (term : AnnotatedTerm) :
    term.constraints = term.erase.paths.filterMap term.constraintAt? := by
  induction term with
  | unit | var | hole => rfl
  | abs _ _ _ ih | proj1 _ _ _ ih | proj2 _ _ _ ih =>
      rw [constraints, ih, erase, Term.paths, List.filterMap_cons,
        filterMap_map_cons (constraintAt?_cons rfl)]
      rfl
  | app _ _ _ leftIh rightIh | pair _ _ _ leftIh rightIh =>
      rw [constraints, leftIh, rightIh, erase, Term.paths, List.filterMap_cons,
        List.filterMap_append, filterMap_map_cons (constraintAt?_cons rfl),
        filterMap_map_cons (constraintAt?_cons rfl)]
      rfl

end AnnotatedTerm

/-- Whether a node takes its parts to have types of a certain form. -/
def Term.isConstrained : Term → Bool
  | app _ _ => true
  | pair _ _ => true
  | proj1 _ => true
  | proj2 _ => true
  | _ => false

theorem AnnotatedTerm.isSome_constraint? (node : AnnotatedTerm) :
    node.constraint?.isSome = node.erase.isConstrained := by
  cases node <;> rfl

theorem AnnotatedTerm.length_constraints (term : AnnotatedTerm) :
    term.constraints.length = term.erase.preorder.countP Term.isConstrained := by
  rw [constraints_eq_filterMap_paths, List.length_filterMap_eq_countP,
    ← Term.filterMap_nodeAt?_paths, List.countP_filterMap]
  congr 1
  funext path
  rw [nodeAt?_erase, constraintAt?]
  cases term.nodeAt? path with
  | none => rfl
  | some node => simp [isSome_constraint?]

theorem Term.exists_annotated_eq {term : Term} (closed : ∀ path name, ¬ term.FreeAt path name)
    (suffice : ∀ supply, term.annotated ≠ .error .exhausted supply) :
    ∃ supply, term.annotated = .ok (term.draft .empty 0) supply ∧
      supply.count = term.typeVarCount := by
  have draws := Annotate.annotate_draws .empty term .full
  have bound : term.freeOccurrences [] = [] := freeOccurrences_eq_nil_iff.mpr closed
  unfold annotated at suffice ⊢
  cases ran : (Annotate.annotate .empty term).run .full with
  | error failure supply =>
      rw [ran] at draws
      cases failure with
      | exhausted => exact absurd ran (suffice supply)
      | illTyped error =>
          obtain ⟨name, -, free⟩ := draws
          change (term.freeOccurrences []).head? = some name at free
          rw [bound] at free
          simp at free
  | ok annotated supply =>
      rw [ran] at draws
      obtain ⟨rfl, count, -⟩ := draws
      exact ⟨supply, rfl, count.trans (Nat.zero_add _)⟩

/-- Annotating a closed program, if the type variables suffice, fills each slot with a type
variable of its own.  These are all that have been drawn.  A variable gets the domain of
the innermost abstraction around it that binds it.  The program itself stays the same, and
each application, pair and projection gives one constraint, in order of traversal. -/
theorem annotation_draws_each_slot (term : Term) (closed : ∀ path name, ¬ term.FreeAt path name)
    (suffice : ∀ supply, term.annotated ≠ .error .exhausted supply) :
    ∃ annotated supply, term.annotated = .ok annotated supply ∧
      annotated.slots.Nodup ∧
      annotated.slots.Perm ((List.range supply.count).map fun index => .var (.drawn index)) ∧
      (∀ path name ty, annotated.nodeAt? path = some (.var name ty) →
        ∃ depth, annotated.BoundAt path name ty depth) ∧
      annotated.erase = term ∧
      annotated.constraints = term.paths.filterMap annotated.constraintAt? ∧
      (∀ path node, annotated.nodeAt? path = some node →
        (node.constraint?.isSome = true ↔ node.erase.isConstrained = true)) ∧
      annotated.constraints.length = term.preorder.countP Term.isConstrained := by
  obtain ⟨supply, annotated, count⟩ := Term.exists_annotated_eq closed suffice
  have slots := term.slots_draft_perm .empty 0
  rw [← count] at slots
  have few : 0 + supply.count ≤ UInt32.size := by
    rw [Nat.zero_add]
    exact Nat.le_of_lt supply.next.index.toNat_lt
  have inScope : (term.draft .empty 0).Scoped .empty :=
    Term.scoped_draft 0 (Term.freeOccurrences_eq_nil_iff.mpr closed)
  have constraints := (term.draft .empty 0).constraints_eq_filterMap_paths
  have length := (term.draft .empty 0).length_constraints
  rw [Term.erase_draft] at constraints length
  refine ⟨_, supply, annotated, (slots.nodup_iff).mpr (nodup_drawnTypes few), ?_, ?_,
    Term.erase_draft term .empty 0, constraints, ?_, length⟩
  · rwa [drawnTypes, ← List.range_eq_range'] at slots
  · intro path name ty found
    have lookup := inScope.lookup_of_nodeAt? found
    rw [ShadowList.empty, List.append_nil] at lookup
    exact AnnotatedTerm.exists_boundAt lookup
  · intro path node _
    rw [AnnotatedTerm.isSome_constraint?]

/-- An application below an abstraction, whose applicant hides the bound variable. -/
def hiddenInApplicant : Term :=
  .abs ⟨⟨0⟩, none⟩ <|
    .app (.abs ⟨⟨0⟩, none⟩ (.proj2 (.var ⟨0⟩))) (.pair (.var ⟨0⟩) (.hole ⟨0⟩))

theorem annotation_draws_each_slot_hiddenInApplicant :
    (∀ path name, ¬ hiddenInApplicant.FreeAt path name) ∧
    (∀ supply, hiddenInApplicant.annotated ≠ .error .exhausted supply) ∧
    ∃ annotated supply, hiddenInApplicant.annotated = .ok annotated supply ∧
      supply.count = 7 ∧
      annotated.slots = [.var ⟨0⟩, .var ⟨6⟩, .var ⟨1⟩, .var ⟨2⟩, .var ⟨3⟩, .var ⟨5⟩, .var ⟨4⟩] ∧
      annotated.slots.Nodup ∧
      (∃ depth, annotated.BoundAt [0, 0, 0, 0] ⟨0⟩ (.var ⟨1⟩) depth) ∧
      (∃ depth, annotated.BoundAt [0, 1, 0] ⟨0⟩ (.var ⟨0⟩) depth) ∧
      annotated.constraints.length = 3 := by
  have closed : ∀ path name, ¬ hiddenInApplicant.FreeAt path name :=
    Term.freeOccurrences_eq_nil_iff.mp (by decide)
  have annotates : hiddenInApplicant.annotated =
      .ok (hiddenInApplicant.draft .empty 0) ⟨⟨7⟩⟩ := rfl
  have suffice : ∀ supply, hiddenInApplicant.annotated ≠ .error .exhausted supply := by
    intro supply exhausted
    rw [annotates] at exhausted
    cases exhausted
  obtain ⟨annotated, supply, ran, distinct, -, binders, -, -, -, length⟩ :=
    annotation_draws_each_slot hiddenInApplicant closed suffice
  rw [annotates] at ran
  cases ran
  exact ⟨closed, suffice, _, _, annotates, rfl, rfl, distinct, binders _ _ _ rfl,
    binders _ _ _ rfl, length⟩

end TypedHoles
