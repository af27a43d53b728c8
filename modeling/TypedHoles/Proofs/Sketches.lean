import TypedHoles.Proofs.HoleFilling

/-!
# Sketches of a program

A program is a sketch of another one if it can become that program, up to the names
of bound variables and of holes, by filling holes only.  Each hole of a sketch stands
for a part of the target.  What is asked of such a part is a parameter: if every part
is a hole again, nothing is left to fill, and the two programs differ by a renaming.

A sketch of a well-typed program is well typed, since a hole has every type.
-/

namespace TypedHoles

/-- The binders around two places of two programs in pairs, the innermost first. -/
abbrev Scope := List (VarName × VarName)

namespace Scope

/-- Whether two variables belong to the same pair of binders, or are both free and
equal. -/
def Relates : Scope → VarName → VarName → Prop
  | [], left, right => left = right
  | (outer, inner) :: scope, left, right =>
      left = outer ∧ right = inner ∨
        left ≠ outer ∧ right ≠ inner ∧ Relates scope left right

/-- The variables that are bound in the second program. -/
def bound (scope : Scope) : List VarName :=
  scope.map Prod.snd

/-- If no binder hides another one, every variable in scope has a counterpart. -/
theorem exists_relates {scope : Scope} (distinct : scope.bound.Nodup) {left : VarName}
    (member : left ∈ scope.map Prod.fst) :
    ∃ right ∈ scope.bound, scope.Relates left right := by
  induction scope with
  | nil => simp at member
  | cons pair scope ih =>
      obtain ⟨outer, inner⟩ := pair
      obtain ⟨fresh, restDistinct⟩ := List.nodup_cons.mp distinct
      by_cases same : left = outer
      · exact ⟨inner, List.mem_cons_self, .inl ⟨same, rfl⟩⟩
      · have inRest : left ∈ scope.map Prod.fst := by simpa [same] using member
        obtain ⟨right, bound, relates⟩ := ih restDistinct inRest
        have differs : right ≠ inner := by
          rintro rfl
          exact fresh bound
        exact ⟨right, List.mem_cons_of_mem _ bound, .inr ⟨same, differs, relates⟩⟩

/-- Whether related variables have the same types in two contexts. -/
def Agrees (scope : Scope) (first second : Context) : Prop :=
  ∀ left right, scope.Relates left right → first.lookup left = second.lookup right

theorem Agrees.extend {scope : Scope} {first second : Context}
    (agrees : scope.Agrees first second) (left right : VarName) (ty : Ty) :
    Agrees ((left, right) :: scope) (first.extend left ty) (second.extend right ty) := by
  intro other counterpart relates
  rw [Context.lookup, Context.lookup, Context.extend, Context.extend,
    ShadowList.get?_push, ShadowList.get?_push]
  rcases relates with ⟨rfl, rfl⟩ | ⟨differs, counterDiffers, relates⟩
  · rw [if_pos rfl, if_pos rfl]
  · rw [if_neg differs, if_neg counterDiffers]
    exact agrees other counterpart relates

end Scope

namespace Term

/-- The variables that are mentioned or bound, in order of traversal. -/
def vars (term : Term) : List VarName :=
  term.preorder.filterMap varName?

section Vars

@[simp]
theorem vars_unit : unit.vars = [] :=
  rfl

@[simp]
theorem vars_var (name : VarName) : (var name).vars = [name] :=
  rfl

@[simp]
theorem vars_hole (name : HoleName) : (hole name).vars = [] :=
  rfl

@[simp]
theorem vars_abs (binder : Binder) (body : Term) :
    (abs binder body).vars = binder.name :: body.vars :=
  rfl

@[simp]
theorem vars_app (applicant argument : Term) :
    (app applicant argument).vars = applicant.vars ++ argument.vars := by
  simp [vars, preorder, List.filterMap_cons, varName?]

@[simp]
theorem vars_pair (first second : Term) :
    (pair first second).vars = first.vars ++ second.vars := by
  simp [vars, preorder, List.filterMap_cons, varName?]

@[simp]
theorem vars_proj1 (argument : Term) : (proj1 argument).vars = argument.vars :=
  rfl

@[simp]
theorem vars_proj2 (argument : Term) : (proj2 argument).vars = argument.vars :=
  rfl

@[simp]
theorem vars_mapHoles (rename : HoleName → HoleName) (term : Term) :
    (term.mapHoles rename).vars = term.vars := by
  induction term with
  | unit | var | hole => rfl
  | abs binder body ih => simp [mapHoles, ih]
  | app applicant argument applicantIh argumentIh =>
      simp [mapHoles, applicantIh, argumentIh]
  | pair first second firstIh secondIh => simp [mapHoles, firstIh, secondIh]
  | proj1 argument ih => simp [mapHoles, ih]
  | proj2 argument ih => simp [mapHoles, ih]

end Vars

/-- The number of nodes. -/
def nodes (term : Term) : Nat :=
  term.preorder.length

section Nodes

@[simp]
theorem nodes_unit : unit.nodes = 1 :=
  rfl

@[simp]
theorem nodes_var (name : VarName) : (var name).nodes = 1 :=
  rfl

@[simp]
theorem nodes_hole (name : HoleName) : (hole name).nodes = 1 :=
  rfl

@[simp]
theorem nodes_abs (binder : Binder) (body : Term) :
    (abs binder body).nodes = body.nodes + 1 :=
  rfl

@[simp]
theorem nodes_app (applicant argument : Term) :
    (app applicant argument).nodes = applicant.nodes + argument.nodes + 1 := by
  simp [nodes, preorder]

@[simp]
theorem nodes_pair (first second : Term) :
    (pair first second).nodes = first.nodes + second.nodes + 1 := by
  simp [nodes, preorder]

@[simp]
theorem nodes_proj1 (argument : Term) : (proj1 argument).nodes = argument.nodes + 1 :=
  rfl

@[simp]
theorem nodes_proj2 (argument : Term) : (proj2 argument).nodes = argument.nodes + 1 :=
  rfl

@[simp]
theorem nodes_mapHoles (rename : HoleName → HoleName) (term : Term) :
    (term.mapHoles rename).nodes = term.nodes := by
  induction term with
  | unit | var | hole => rfl
  | abs binder body ih => simp [mapHoles, ih]
  | app applicant argument applicantIh argumentIh =>
      simp [mapHoles, applicantIh, argumentIh]
  | pair first second firstIh secondIh => simp [mapHoles, firstIh, secondIh]
  | proj1 argument ih => simp [mapHoles, ih]
  | proj2 argument ih => simp [mapHoles, ih]

theorem nodes_pos (term : Term) : 0 < term.nodes := by
  cases term <;> simp

theorem length_holes_le_nodes (term : Term) : term.holes.length ≤ term.nodes :=
  List.length_filterMap_le _ _

theorem typeVarCount_le_nodes (term : Term) : term.typeVarCount ≤ 2 * term.nodes := by
  induction term with
  | unit | var | hole => simp [typeVarCount]
  | abs binder body ih =>
      simp only [typeVarCount, nodes_abs]
      omega
  | app applicant argument applicantIh argumentIh =>
      simp only [typeVarCount, nodes_app]
      omega
  | pair first second firstIh secondIh =>
      simp only [typeVarCount, nodes_pair]
      omega
  | proj1 argument ih =>
      simp only [typeVarCount, nodes_proj1]
      omega
  | proj2 argument ih =>
      simp only [typeVarCount, nodes_proj2]
      omega

end Nodes

namespace Fills

variable {name : HoleName} {fragment term filled : Term}

theorem nodes (fills : Fills name fragment term filled) :
    filled.nodes + 1 = term.nodes + fragment.nodes := by
  induction fills with
  | here => simp [Nat.add_comm]
  | _ => simp; omega

theorem mem_holes (fills : Fills name fragment term filled) : name ∈ term.holes := by
  obtain ⟨before, after, old, -⟩ := fills.holes
  simp [old]

theorem length_holes (fills : Fills name fragment term filled) :
    filled.holes.length + 1 = term.holes.length + fragment.holes.length := by
  obtain ⟨before, after, old, new⟩ := fills.holes
  simp only [old, new, List.length_append, List.length_cons]
  omega

theorem mem_vars (fills : Fills name fragment term filled) :
    ∀ other ∈ filled.vars, other ∈ term.vars ∨ other ∈ fragment.vars := by
  induction fills with
  | here => exact fun other member => .inr member
  | _ => simp; grind

end Fills

/-! ## Matching programs -/

/-- A target, and a program of which each hole stands for a part of the target.
Labels are the same, and variables are bound by corresponding binders. -/
inductive Matches (stands : Scope → Term → HoleName → Prop) :
    Scope → Term → Term → Prop
  | hole {scope : Scope} {target : Term} {name : HoleName}
      (standsFor : stands scope target name) : Matches stands scope target (.hole name)
  | unit {scope : Scope} : Matches stands scope .unit .unit
  | var {scope : Scope} {left right : VarName} (relates : scope.Relates left right) :
      Matches stands scope (.var left) (.var right)
  | abs {scope : Scope} {left right : VarName} {label : Option String}
      {target body : Term} (inner : Matches stands ((left, right) :: scope) target body) :
      Matches stands scope (.abs ⟨left, label⟩ target) (.abs ⟨right, label⟩ body)
  | app {scope : Scope} {leftTarget rightTarget applicant argument : Term}
      (left : Matches stands scope leftTarget applicant)
      (right : Matches stands scope rightTarget argument) :
      Matches stands scope (.app leftTarget rightTarget) (.app applicant argument)
  | pair {scope : Scope} {leftTarget rightTarget first second : Term}
      (left : Matches stands scope leftTarget first)
      (right : Matches stands scope rightTarget second) :
      Matches stands scope (.pair leftTarget rightTarget) (.pair first second)
  | proj1 {scope : Scope} {target argument : Term}
      (inner : Matches stands scope target argument) :
      Matches stands scope (.proj1 target) (.proj1 argument)
  | proj2 {scope : Scope} {target argument : Term}
      (inner : Matches stands scope target argument) :
      Matches stands scope (.proj2 target) (.proj2 argument)

/-- Whether a program is `target` with other names for bound variables and with the
holes renamed. -/
def Renames (rename : HoleName → HoleName) (target program : Term) : Prop :=
  Matches (fun _ part name => ∃ old, part = .hole old ∧ name = rename old) [] target
    program

namespace Matches

variable {stands : Scope → Term → HoleName → Prop} {scope : Scope}
  {target program : Term}

theorem mapHoles {others : Scope → Term → HoleName → Prop}
    (sketch : Matches stands scope target program) (rename : HoleName → HoleName)
    (keeps : ∀ {scope part name}, stands scope part name →
      others scope part (rename name)) :
    Matches others scope target (program.mapHoles rename) := by
  induction sketch with
  | hole standsFor => exact .hole (keeps standsFor)
  | unit => exact .unit
  | var relates => exact .var relates
  | abs _ ih => exact .abs ih
  | app _ _ leftIh rightIh => exact .app leftIh rightIh
  | pair _ _ leftIh rightIh => exact .pair leftIh rightIh
  | proj1 _ ih => exact .proj1 ih
  | proj2 _ ih => exact .proj2 ih

theorem nodes_le (sketch : Matches stands scope target program) :
    program.nodes ≤ target.nodes := by
  induction sketch with
  | hole => exact nodes_pos _
  | unit | var => exact Nat.le_refl _
  | abs | app | pair | proj1 | proj2 =>
      simp only [nodes_abs, nodes_app, nodes_pair, nodes_proj1, nodes_proj2]
      omega

theorem hasType (sketch : Matches stands scope target program)
    {first second : Context} (agrees : scope.Agrees first second) {ty : Ty}
    (typed : target.HasType first ty) : program.HasType second ty := by
  induction sketch generalizing first second ty with
  | hole => exact .hole
  | unit =>
      cases typed
      exact .unit
  | var relates =>
      cases typed with
      | var found => exact .var ((agrees _ _ relates).symm.trans found)
  | abs _ ih =>
      cases typed with
      | abs inner => exact .abs (ih (agrees.extend _ _ _) inner)
  | app _ _ leftIh rightIh =>
      cases typed with
      | app function input => exact .app (leftIh agrees function) (rightIh agrees input)
  | pair _ _ leftIh rightIh =>
      cases typed with
      | pair left right => exact .pair (leftIh agrees left) (rightIh agrees right)
  | proj1 _ ih =>
      cases typed with
      | proj1 both => exact .proj1 (ih agrees both)
  | proj2 _ ih =>
      cases typed with
      | proj2 both => exact .proj2 (ih agrees both)

end Matches

/-! ## What is left to fill -/

/-- A hole of a sketch that stands for something else than a hole, and the part for
which it stands. -/
structure Unfinished (stands : Scope → Term → HoleName → Prop) (scope : Scope)
    (target program : Term) (name : HoleName) (inner : Scope) (part : Term) : Prop where
  member : name ∈ program.holes
  standsFor : stands inner part name
  notHole : ∀ old, part ≠ .hole old
  bound : ∀ other ∈ inner.bound, other ∈ scope.bound ∨ other ∈ program.vars
  /-- What matches the part can be put into the hole. -/
  refined : ∀ {fragment filled : Term}, Fills name fragment program filled →
    Matches stands inner part fragment → Matches stands scope target filled

/-- What is unfinished in a part of a program is unfinished in the program. -/
theorem Unfinished.around {stands : Scope → Term → HoleName → Prop}
    {scope outer inner : Scope} {target program outerTarget outerProgram part : Term}
    {name : HoleName} (unfinished : Unfinished stands scope target program name inner part)
    (holes : program.holes ⊆ outerProgram.holes)
    (bound : scope.bound ⊆ outer.bound ++ outerProgram.vars)
    (vars : program.vars ⊆ outerProgram.vars)
    (fills : ∀ {fragment filled : Term}, Fills name fragment outerProgram filled →
      ∃ innerFilled, Fills name fragment program innerFilled ∧
        (Matches stands scope target innerFilled →
          Matches stands outer outerTarget filled)) :
    Unfinished stands outer outerTarget outerProgram name inner part where
  member := holes unfinished.member
  standsFor := unfinished.standsFor
  notHole := unfinished.notHole
  bound other member := by
    rcases unfinished.bound other member with around | inside
    · exact List.mem_append.mp (bound around)
    · exact .inr (vars inside)
  refined outerFills fits := by
    obtain ⟨innerFilled, innerFills, enclose⟩ := fills outerFills
    exact enclose (unfinished.refined innerFills fits)

/-- Whether a program matches a target in such a way that its holes stand for holes. -/
abbrev Finished (scope : Scope) (target program : Term) : Prop :=
  Matches (fun _ part _ => ∃ old, part = .hole old) scope target program

namespace Matches

variable {stands : Scope → Term → HoleName → Prop} {scope : Scope}
  {target program : Term}

theorem finished_or_unfinished (sketch : Matches stands scope target program)
    (distinct : program.holes.Nodup) :
    Finished scope target program ∨
      ∃ name inner part, Unfinished stands scope target program name inner part := by
  induction sketch with
  | @hole scope target name standsFor =>
      by_cases isHole : ∃ old, target = .hole old
      · exact .inl (.hole isHole)
      · refine .inr ⟨name, scope, target, by simp, standsFor, not_exists.mp isHole,
          fun _ member => .inl member, ?_⟩
        intro fragment filled fills fits
        cases fills
        exact fits
  | unit => exact .inl .unit
  | var relates => exact .inl (.var relates)
  | abs _ ih =>
      rcases ih (by simpa using distinct) with finished | ⟨name, inner, part, rest⟩
      · exact .inl (.abs finished)
      · refine .inr ⟨name, inner, part, rest.around (by simp) ?_ (by simp) ?_⟩
        · simp [Scope.bound]
        · intro fragment filled fills
          cases fills with
          | abs _ fills => exact ⟨_, fills, .abs⟩
  | proj1 _ ih =>
      rcases ih (by simpa using distinct) with finished | ⟨name, inner, part, rest⟩
      · exact .inl (.proj1 finished)
      · refine .inr ⟨name, inner, part, rest.around (by simp) (by simp) (by simp) ?_⟩
        intro fragment filled fills
        cases fills with
        | proj1 fills => exact ⟨_, fills, .proj1⟩
  | proj2 _ ih =>
      rcases ih (by simpa using distinct) with finished | ⟨name, inner, part, rest⟩
      · exact .inl (.proj2 finished)
      · refine .inr ⟨name, inner, part, rest.around (by simp) (by simp) (by simp) ?_⟩
        intro fragment filled fills
        cases fills with
        | proj2 fills => exact ⟨_, fills, .proj2⟩
  | app left right leftIh rightIh =>
      rw [holes_app] at distinct
      have disjoint := List.disjoint_of_nodup_append distinct
      rcases leftIh distinct.of_append_left with leftFinished | ⟨name, inner, part, rest⟩
      · rcases rightIh distinct.of_append_right with
          rightFinished | ⟨name, inner, part, rest⟩
        · exact .inl (.app leftFinished rightFinished)
        · refine .inr ⟨name, inner, part, rest.around (by simp) (by simp) (by simp) ?_⟩
          intro fragment filled fills
          cases fills with
          | applicant fills => exact absurd rest.member (disjoint fills.mem_holes)
          | argument _ fills => exact ⟨_, fills, .app left⟩
      · refine .inr ⟨name, inner, part, rest.around (by simp) (by simp) (by simp) ?_⟩
        intro fragment filled fills
        cases fills with
        | applicant fills => exact ⟨_, fills, (.app · right)⟩
        | argument _ fills => exact absurd fills.mem_holes (disjoint rest.member)
  | pair left right leftIh rightIh =>
      rw [holes_pair] at distinct
      have disjoint := List.disjoint_of_nodup_append distinct
      rcases leftIh distinct.of_append_left with leftFinished | ⟨name, inner, part, rest⟩
      · rcases rightIh distinct.of_append_right with
          rightFinished | ⟨name, inner, part, rest⟩
        · exact .inl (.pair leftFinished rightFinished)
        · refine .inr ⟨name, inner, part, rest.around (by simp) (by simp) (by simp) ?_⟩
          intro fragment filled fills
          cases fills with
          | first fills => exact absurd rest.member (disjoint fills.mem_holes)
          | second _ fills => exact ⟨_, fills, .pair left⟩
      · refine .inr ⟨name, inner, part, rest.around (by simp) (by simp) (by simp) ?_⟩
        intro fragment filled fills
        cases fills with
        | first fills => exact ⟨_, fills, (.pair · right)⟩
        | second _ fills => exact absurd fills.mem_holes (disjoint rest.member)

/-! ## Renaming the holes of a finished sketch -/

theorem length_holes_eq (finished : Finished scope target program) :
    program.holes.length = target.holes.length := by
  induction finished with
  | hole isHole =>
      obtain ⟨old, rfl⟩ := isHole
      rfl
  | unit | var => rfl
  | abs _ ih => simpa using ih
  | app _ _ leftIh rightIh => simp [leftIh, rightIh]
  | pair _ _ leftIh rightIh => simp [leftIh, rightIh]
  | proj1 _ ih => simpa using ih
  | proj2 _ ih => simpa using ih

theorem renamed_of_holes {rename : HoleName → HoleName}
    (finished : Finished scope target program)
    (holes : program.holes = target.holes.map rename) :
    Matches (fun _ part name => ∃ old, part = .hole old ∧ name = rename old) scope target
      program := by
  induction finished with
  | hole isHole =>
      obtain ⟨old, rfl⟩ := isHole
      exact .hole ⟨old, rfl, by simpa using holes⟩
  | unit => exact .unit
  | var relates => exact .var relates
  | abs _ ih => exact .abs (ih (by simpa using holes))
  | app left right leftIh rightIh =>
      rw [holes_app, holes_app, List.map_append] at holes
      obtain ⟨leftHoles, rightHoles⟩ :=
        List.append_inj holes (by rw [List.length_map, length_holes_eq left])
      exact .app (leftIh leftHoles) (rightIh rightHoles)
  | pair left right leftIh rightIh =>
      rw [holes_pair, holes_pair, List.map_append] at holes
      obtain ⟨leftHoles, rightHoles⟩ :=
        List.append_inj holes (by rw [List.length_map, length_holes_eq left])
      exact .pair (leftIh leftHoles) (rightIh rightHoles)
  | proj1 _ ih => exact .proj1 (ih (by simpa using holes))
  | proj2 _ ih => exact .proj2 (ih (by simpa using holes))

/-- The holes of a finished sketch take the places of those of the target. -/
theorem exists_renames (finished : Finished [] target program)
    (targetDistinct : target.holes.Nodup) (distinct : program.holes.Nodup) :
    ∃ rename : HoleName → HoleName,
      Set.InjOn rename {name | name ∈ target.holes} ∧ Renames rename target program := by
  let rename (name : HoleName) : HoleName :=
    program.holes.getD (target.holes.idxOf name) name
  have length := length_holes_eq finished
  have renamed : program.holes = target.holes.map rename := by
    apply List.ext_getElem
    · rw [List.length_map, length]
    · intro position inProgram inTarget
      rw [List.getElem_map]
      simp only [rename]
      rw [targetDistinct.idxOf_getElem, List.getD_eq_getElem?_getD,
        List.getElem?_eq_getElem inProgram, Option.getD_some]
  refine ⟨rename, ?_, finished.renamed_of_holes renamed⟩
  rw [renamed] at distinct
  exact fun left leftMember right rightMember equal =>
    List.inj_on_of_nodup_map distinct leftMember rightMember equal

end Matches

end Term

end TypedHoles
