import Mathlib.Algebra.Group.Nat.Defs
import TypedHoles.Proofs.OfferedActions
import TypedHoles.Proofs.TakenNames

/-!
# The editor can build every program

Starting from one hole, the editor reaches every well-typed program that is not too
large, up to the names that it chooses itself.  On the way its program is a sketch of
the target.  As long as the sketch is not finished, one of its holes stands for a part
of the target that is not a hole, and the constructor or variable at the root of that
part is offered, because the sketch stays a sketch when it is put into the hole.
-/

namespace TypedHoles

/-! ## Enough names -/

namespace Draw

variable {supplies : Supplies}

theorem eq_next_of_freshVar {name : VarName} {after : Supplies}
    (run : freshVar.run supplies = .ok name after) : name = supplies.vars.next := by
  simp only [EStateM.run, freshVar] at run
  cases drawn : supplies.vars.fresh with
  | error reason => simp [drawn] at run
  | ok result =>
      simp only [drawn, EStateM.Result.ok.injEq] at run
      rw [← run.1]
      exact (NameSupply.fresh_eq_ok_iff.mp drawn).1

end Draw

namespace Action

open Draw

/-- The only variables of a fragment are the one that is put and the one that an
abstraction draws. -/
theorem mem_vars_fragment {action : Action} {supplies rest : Supplies} {fragment : Term}
    (drawn : action.fragment.run supplies = .ok fragment rest) :
    ∀ name ∈ fragment.vars,
      action = .var name ∨ action = .abstraction ∧ name = supplies.vars.next := by
  intro name member
  cases fragment_builds drawn with
  | unit | application | pair | proj1 | proj2 => simp at member
  | var other =>
      obtain rfl : name = other := by simpa using member
      exact .inl rfl
  | abstraction other =>
      obtain rfl : name = other := by simpa using member
      obtain ⟨first, middle, varDrawn, drawn⟩ := Draw.run_bind_eq_ok drawn
      obtain ⟨body, after, -, drawn⟩ := Draw.run_bind_eq_ok drawn
      obtain ⟨same, -⟩ := EStateM.Result.ok.inj drawn
      obtain ⟨binder, -⟩ := Term.abs.inj same
      obtain ⟨rfl, -⟩ := Binder.mk.inj binder
      exact .inr ⟨rfl, eq_next_of_freshVar varDrawn⟩

theorem Draws.exists_builds {action : Action} {term fragment : Term}
    (draws : action.Draws term fragment) : ∃ count, action.Builds count fragment := by
  obtain ⟨supplies, rest, -, drawn⟩ := draws
  exact ⟨_, fragment_builds drawn⟩

theorem Builds.nodes {count : Nat} {action : Action} {fragment : Term}
    (builds : Builds count action fragment) :
    fragment.nodes = fragment.holes.length + 1 := by
  cases builds <;> rfl

end Action

namespace Term

/-- The names suffice for putting any action into a program whose names are below a
bound and that does not draw too many type variables. -/
theorem affordable_of_lt {term : Term} {bound : Nat} (small : bound + 2 < UInt32.size)
    (vars : ∀ name ∈ term.vars, name.index.toNat < bound)
    (holes : ∀ name ∈ term.holes, name.index.toNat < bound)
    (few : term.typeVarCount + 3 ≤ UInt32.size) (action : Action) :
    action.Affordable term := by
  have fewVars := action.binderCount_le
  have fewHoles := action.arity_le
  refine (Action.affordable_iff few).mpr ⟨fun name member => ?_, fun name member => ?_⟩
  · have below := vars name member
    omega
  · have below := holes name member
    omega

/-- Whether the names in a term are smaller than the term. -/
structure Compact (term : Term) : Prop where
  vars : ∀ name ∈ term.vars, name.index.toNat < term.nodes
  holes : ∀ name ∈ term.holes, name.index.toNat < term.nodes

namespace Compact

variable {term : Term}

/-- The names suffice for putting any action into a program that is not too large. -/
theorem affordable (compact : term.Compact) (small : term.nodes < 2 ^ 30)
    (action : Action) : action.Affordable term := by
  have size : UInt32.size = 2 ^ 32 := rfl
  have count := term.typeVarCount_le_nodes
  exact affordable_of_lt (by omega) compact.vars compact.holes (by omega) action

theorem fresh_of_draws (compact : term.Compact) {action : Action} {fragment : Term}
    (draws : action.Draws term fragment) :
    ∀ name ∈ fragment.vars, action = .var name ∨
      action = .abstraction ∧ name ∉ term.vars ∧ name.index.toNat ≤ term.nodes := by
  obtain ⟨supplies, rest, supplied, drawn⟩ := draws
  obtain ⟨following, -⟩ := after_of_supplies supplied
  intro name member
  rcases Action.mem_vars_fragment drawn name member with isVar | ⟨isAbstraction, rfl⟩
  · exact .inl isVar
  · refine .inr ⟨isAbstraction, fun occurs => ?_, ?_⟩
    · exact Nat.lt_irrefl _ (NameSupply.lt_count_of_after following _ occurs)
    · exact (NameSupply.count_le_iff following).mpr compact.vars

/-- Renumbering the holes makes their names small. -/
theorem mapHoles_holeNumbering
    (vars : ∀ name ∈ term.vars, name.index.toNat < term.nodes) :
    Compact (term.mapHoles term.holeNumbering.rename) := by
  constructor
  · simpa using vars
  · intro name member
    rw [holes_mapHoles] at member
    obtain ⟨old, isHole, rfl⟩ := List.mem_map.mp member
    have seen : old ∈ term.holeNumbering.seen := Numbering.mem_see.mpr (.inr isHole)
    have position := List.idxOf_lt_length_of_mem seen
    have few := Numbering.empty.length_seen_see_le term.holes
    have nodes := term.length_holes_le_nodes
    have index : (term.holeNumbering.rename old).index.toNat ≤
        term.holeNumbering.seen.idxOf old := by
      rw [Numbering.rename, UInt32.toNat_ofNat']
      exact Nat.mod_le _ _
    have seenFew : term.holeNumbering.seen.length ≤ term.holes.length := by
      simpa [holeNumbering, Numbering.empty] using few
    rw [nodes_mapHoles]
    omega

end Compact

/-! ## Labels -/

/-- The label of the binder at the root, if there is one. -/
def rootLabel : Term → Option String
  | abs binder _ => binder.label
  | _ => none

/-- The term with another label for the binder at the root, if there is one. -/
def withLabel (label : Option String) : Term → Term
  | abs binder body => abs { binder with label } body
  | term => term

theorem HasType.of_withLabel {term : Term} {label : Option String} {context : Context}
    {ty : Ty} (typed : (term.withLabel label).HasType context ty) :
    term.HasType context ty := by
  cases term with
  | abs binder body =>
      cases typed with
      | abs inner => exact .abs inner
  | unit | var | app | pair | proj1 | proj2 | hole => exact typed

@[simp]
theorem vars_withLabel (label : Option String) (term : Term) :
    (term.withLabel label).vars = term.vars := by
  cases term <;> rfl

@[simp]
theorem nodes_withLabel (label : Option String) (term : Term) :
    (term.withLabel label).nodes = term.nodes := by
  cases term <;> rfl

@[simp]
theorem holes_withLabel (label : Option String) (term : Term) :
    (term.withLabel label).holes = term.holes := by
  cases term <;> rfl

variable {name : VarName} {label : Option String}

theorem relabel?_eq_none {term : Term} (absent : name ∉ term.vars) :
    term.relabel? name label = none := by
  induction term with
  | unit | var | hole => rfl
  | abs binder body ih =>
      simp only [vars_abs, List.mem_cons, not_or] at absent
      rw [relabel?, if_neg (Ne.symm absent.1), ih absent.2, Option.map_none]
  | app applicant argument applicantIh argumentIh =>
      simp only [vars_app, List.mem_append, not_or] at absent
      simp [relabel?, applicantIh absent.1, argumentIh absent.2]
  | pair first second firstIh secondIh =>
      simp only [vars_pair, List.mem_append, not_or] at absent
      simp [relabel?, firstIh absent.1, secondIh absent.2]
  | proj1 argument ih => rw [relabel?, ih absent, Option.map_none]
  | proj2 argument ih => rw [relabel?, ih absent, Option.map_none]

/-- Giving a label to a new variable comes to the same as putting its binder with that
label, whatever the holes are called. -/
theorem Fills.relabel? {hole : HoleName} {body term filled : Term}
    (fills : Fills hole (.abs ⟨name, none⟩ body) term filled) (absent : name ∉ term.vars)
    (label : Option String) (rename : HoleName → HoleName) :
    ∃ relabeled, Fills hole (.abs ⟨name, label⟩ body) term relabeled ∧
      relabeled.holes = filled.holes ∧
      (filled.mapHoles rename).relabel? name label =
        some (relabeled.mapHoles rename) := by
  induction fills with
  | here => exact ⟨_, .here, rfl, by simp [mapHoles, Term.relabel?]⟩
  | abs binder inner ih =>
      simp only [vars_abs, List.mem_cons, not_or] at absent
      obtain ⟨relabeled, refills, holes, found⟩ := ih absent.2
      refine ⟨_, .abs binder refills, by simp [holes], ?_⟩
      simp [mapHoles, Term.relabel?, Ne.symm absent.1, found]
  | applicant inner argument ih =>
      simp only [vars_app, List.mem_append, not_or] at absent
      obtain ⟨relabeled, refills, holes, found⟩ := ih absent.1
      refine ⟨_, .applicant refills argument, by simp [holes], ?_⟩
      simp [mapHoles, Term.relabel?, found]
  | argument applicant inner ih =>
      simp only [vars_app, List.mem_append, not_or] at absent
      obtain ⟨relabeled, refills, holes, found⟩ := ih absent.2
      have skipped : (applicant.mapHoles rename).relabel? name label = none :=
        relabel?_eq_none (by simpa using absent.1)
      refine ⟨_, .argument applicant refills, by simp [holes], ?_⟩
      simp [mapHoles, Term.relabel?, skipped, found]
  | first inner second ih =>
      simp only [vars_pair, List.mem_append, not_or] at absent
      obtain ⟨relabeled, refills, holes, found⟩ := ih absent.1
      refine ⟨_, .first refills second, by simp [holes], ?_⟩
      simp [mapHoles, Term.relabel?, found]
  | second first inner ih =>
      simp only [vars_pair, List.mem_append, not_or] at absent
      obtain ⟨relabeled, refills, holes, found⟩ := ih absent.2
      have skipped : (first.mapHoles rename).relabel? name label = none :=
        relabel?_eq_none (by simpa using absent.1)
      refine ⟨_, .second first refills, by simp [holes], ?_⟩
      simp [mapHoles, Term.relabel?, skipped, found]
  | proj1 inner ih =>
      obtain ⟨relabeled, refills, holes, found⟩ := ih absent
      refine ⟨_, .proj1 refills, by simp [holes], ?_⟩
      simp [mapHoles, Term.relabel?, found]
  | proj2 inner ih =>
      obtain ⟨relabeled, refills, holes, found⟩ := ih absent
      refine ⟨_, .proj2 refills, by simp [holes], ?_⟩
      simp [mapHoles, Term.relabel?, found]

/-- The names stay small when an action is put into a hole. -/
theorem Compact.filled {term fragment filled : Term} {hole : HoleName} {action : Action}
    (compact : term.Compact) (draws : action.Draws term fragment)
    (fills : Fills hole (fragment.withLabel label) term filled)
    (mentioned : ∀ name, action = .var name → name ∈ term.vars) :
    Compact (filled.mapHoles filled.holeNumbering.rename) := by
  have nodes := fills.nodes
  obtain ⟨count, built⟩ := draws.exists_builds
  rw [nodes_withLabel, built.nodes] at nodes
  apply mapHoles_holeNumbering
  intro name member
  rcases fills.mem_vars name member with old | new
  · have below := compact.vars name old
    omega
  · rw [vars_withLabel] at new
    rcases compact.fresh_of_draws draws name new with isVar | ⟨rfl, -, few⟩
    · have below := compact.vars name (mentioned name isVar)
      omega
    · -- The hole below the new binder makes room for its name.
      have body : fragment.holes.length = 1 := by
        cases built
        rfl
      omega

end Term

/-! ## Putting the root of a part -/

theorem Action.exists_infer_of_hasType {action : Action} {term fragment filled : Term}
    {hole : HoleName} {supplies rest : Supplies} (supplied : term.supplies = .ok supplies)
    (drawn : action.fragment.run supplies = .ok fragment rest)
    (enough : term.typeVarCount + fragment.typeVarCount ≤ UInt32.size)
    (found : term.fillHole? hole fragment = some filled)
    (typed : ∃ ty, filled.HasType .empty ty) :
    ∃ inference,
      action.fill term hole = .ok (filled.mapHoles filled.holeNumbering.rename) ∧
      infer (filled.mapHoles filled.holeNumbering.rename) = .ok inference := by
  have count := (Term.fills_of_fillHole? found).typeVarCount
  have few : filled.typeVarCount < UInt32.size := by omega
  obtain ⟨inference, inferred⟩ :=
    Term.exists_infer_mapHoles_iff.mpr (exists_infer_iff.mpr ⟨few, typed⟩)
  refine ⟨inference, ?_, inferred⟩
  rw [fill_eq supplied drawn found, if_pos (Term.fits_holeNumbering few)]

/-- The label of a fragment does not matter for the type of the filled program. -/
theorem InferredHole.hasType_of_withLabel {term fragment filled : Term} {hole : HoleName}
    {ty : Ty} {context : Context} {label : Option String}
    (known : InferredHole term hole ty context)
    (fills : Term.Fills hole fragment term filled)
    (typable : ∀ {labeled : Term}, Term.Fills hole (fragment.withLabel label) term labeled →
      ∃ ty, labeled.HasType .empty ty) :
    ∃ ty, filled.HasType .empty ty := by
  obtain ⟨labeled, found⟩ :=
    Term.exists_fillHole? known.member (fragment.withLabel label)
  have labeledFills := Term.fills_of_fillHole? found
  obtain ⟨assignment, typed⟩ :=
    (known.exists_hasType_filled_iff labeledFills).mp (typable labeledFills)
  exact (known.exists_hasType_filled_iff fills).mpr ⟨assignment, typed.of_withLabel⟩

namespace EditorState

/-- Take steps one after the other, all of which have to succeed. -/
def run (state : EditorState) (transitions : List Transition) :
    Except EditFailure EditorState :=
  transitions.foldlM update state

theorem run_append {state middle final : EditorState} {first second : List Transition}
    (firstRun : state.run first = .ok middle) (secondRun : middle.run second = .ok final) :
    state.run (first ++ second) = .ok final := by
  rw [run] at firstRun
  rw [run, List.foldlM_append, firstRun]
  exact secondRun

variable {state : EditorState} {inference : Inference}

/-- An action after which the program is well typed can be put into a hole by
selecting it first. -/
theorem Consistent.exists_select_put (consistent : state.Consistent inference)
    {hole : HoleName} (member : hole ∈ state.term.holes)
    (affordable : ∀ action : Action, action.Affordable state.term) {action : Action}
    {filled : Term} {filledInference : Inference}
    (filling : action.fill state.term hole = .ok filled)
    (typed : infer filled = .ok filledInference) :
    ∃ next nextInference, state.run [.select hole, .put action] = .ok next ∧
      next.term = filled ∧ next.Consistent nextInference := by
  obtain ⟨ty, context, known, focusOn⟩ := consistent.exists_focusOn_eq member
  obtain ⟨actions, listed⟩ := known.exists_candidates (fun action _ => affordable action)
    state.options.variableCheck
  cases selected : state.select hole with
  | error failure =>
      rw [consistent.select_eq, if_pos member, focusOn, listed] at selected
      simp [Except.map] at selected
  | ok middle =>
      have safe := consistent.select_safe hole
      rw [selected] at safe
      obtain ⟨middleInference, middleConsistent⟩ := safe
      obtain ⟨sameTerm, focus, focused, rfl⟩ :=
        consistent.exists_focus_of_select selected
      obtain ⟨focusKnown, focusListed⟩ := middleConsistent.candidates_eq focused
      have fits : action.fits middle.term focus.hole = .ok true := by
        rw [sameTerm, Action.fits_eq_of_fill filling, typed]
      have offered : focus.offers action = true :=
        Focus.mem_actions_iff.mp ((focusKnown.mem_candidates_iff focusListed).mpr fits)
      have distinct : filled.holes.Nodup :=
        Action.nodup_holes_of_fill consistent.distinct member filling
      rw [← sameTerm] at filling
      refine ⟨{ middle with term := filled, ty := filledInference.ty, focus := none },
        filledInference, ?_, rfl, distinct, typed, rfl, fun _ absent => nomatch absent⟩
      have taken : middle.put action =
          .ok { middle with term := filled, ty := filledInference.ty, focus := none } := by
        simp only [put, focused, offered, filling, typed, if_true]
      simp only [run, List.foldlM_cons, List.foldlM_nil, update, selected, taken, bind,
        Except.bind, pure, Except.pure]

/-- An action is put into a hole together with the label of its variable, if it binds
one. -/
theorem Consistent.exists_put_labeled (consistent : state.Consistent inference)
    {hole : HoleName} (member : hole ∈ state.term.holes)
    (compact : state.term.Compact) (small : state.term.nodes < 2 ^ 30) (action : Action)
    (label : Option String)
    (typable : ∀ {fragment filled : Term}, action.Draws state.term fragment →
      Term.Fills hole (fragment.withLabel label) state.term filled →
      ∃ ty, filled.HasType .empty ty) :
    ∃ fragment filled transitions next nextInference,
      action.Draws state.term fragment ∧
      Term.Fills hole (fragment.withLabel label) state.term filled ∧
      state.run transitions = .ok next ∧
      next.term = filled.mapHoles filled.holeNumbering.rename ∧
      next.Consistent nextInference := by
  have affordable := compact.affordable small
  obtain ⟨supplies, fragment, rest, supplied, drawn, enough⟩ := affordable action
  have draws : action.Draws state.term fragment := ⟨supplies, rest, supplied, drawn⟩
  obtain ⟨filled, found⟩ := Term.exists_fillHole? member fragment
  have fills := Term.fills_of_fillHole? found
  have typed : ∃ ty, filled.HasType .empty ty := by
    obtain ⟨ty, context, -, -, known⟩ :=
      exists_inferredHole consistent.distinct consistent.inferred member
    exact known.hasType_of_withLabel fills (typable draws)
  obtain ⟨filledInference, filling, inferred⟩ :=
    Action.exists_infer_of_hasType supplied drawn enough found typed
  obtain ⟨next, nextInference, taken, term, nextConsistent⟩ :=
    consistent.exists_select_put member affordable filling inferred
  by_cases isAbstraction : action = .abstraction
  · subst isAbstraction
    cases Action.fragment_builds drawn with
    | abstraction name =>
        have fresh := compact.fresh_of_draws draws name (by simp)
        obtain ⟨-, absent, -⟩ := fresh.resolve_left (by simp)
        obtain ⟨relabeled, refills, holes, relabels⟩ :=
          fills.relabel? absent label filled.holeNumbering.rename
        have sameNumbering : relabeled.holeNumbering = filled.holeNumbering := by
          rw [Term.holeNumbering, holes, Term.holeNumbering]
        rw [← term, ← sameNumbering] at relabels
        obtain ⟨lastInference, -, lastConsistent⟩ :=
          nextConsistent.relabeled (Term.unlabeled_relabel? relabels)
        have labeling : next.run [.relabel name label] = .ok { next with
            term := relabeled.mapHoles relabeled.holeNumbering.rename } := by
          simp only [run, List.foldlM_cons, List.foldlM_nil, update, relabel, relabels, bind,
            Except.bind, pure, Except.pure]
        exact ⟨_, relabeled, _, _, lastInference, draws, refills,
          run_append taken labeling, rfl, lastConsistent⟩
  · have unlabeled : fragment.withLabel label = fragment := by
      cases Action.fragment_builds drawn with
      | abstraction => exact absurd rfl isAbstraction
      | unit | var | application | pair | proj1 | proj2 => rfl
    exact ⟨fragment, filled, _, next, nextInference, draws, unlabeled.symm ▸ fills, taken,
      term, nextConsistent⟩

end EditorState

/-! ## Sketches that grow -/

/-- What a hole may stand for while a program is being built: a part of the target
whose variables are in scope, where the binders of the program do not hide each
other. -/
def Pending (scope : Scope) (part : Term) (_ : HoleName) : Prop :=
  scope.bound.Nodup ∧ part.freeOccurrences (scope.map Prod.fst) = []

/-- The constructor or variable at the root of a part matches the part. -/
theorem Pending.exists_action {scope : Scope} {part : Term} {hole : HoleName}
    (pending : Pending scope part hole) (notHole : ∀ old, part ≠ .hole old) :
    ∃ action : Action, (∀ name, action = .var name → name ∈ scope.bound) ∧
      ∀ {count fragment}, action.Builds count fragment →
        (action = .abstraction → ∀ name ∈ fragment.vars, name ∉ scope.bound) →
        Term.Matches Pending scope part (fragment.withLabel part.rootLabel) := by
  obtain ⟨distinct, closed⟩ := pending
  cases part with
  | hole old => exact absurd rfl (notHole old)
  | unit =>
      refine ⟨.unit, by simp, fun builds _ => ?_⟩
      cases builds
      exact .unit
  | var left =>
      have inScope : left ∈ scope.map Prod.fst := by
        by_contra free
        simp [Term.freeOccurrences, free] at closed
      obtain ⟨right, bound, relates⟩ := scope.exists_relates distinct inScope
      refine ⟨.var right, ?_, fun builds _ => ?_⟩
      · rintro name ⟨⟩
        exact bound
      · cases builds
        exact .var relates
  | abs binder body =>
      refine ⟨.abstraction, by simp, fun builds fresh => ?_⟩
      cases builds with
      | abstraction name =>
          have unused := fresh rfl name (by simp)
          exact .abs (.hole ⟨List.nodup_cons.mpr ⟨unused, distinct⟩, closed⟩)
  | app applicant argument =>
      obtain ⟨left, right⟩ := List.append_eq_nil_iff.mp closed
      refine ⟨.application, by simp, fun builds _ => ?_⟩
      cases builds
      exact .app (.hole ⟨distinct, left⟩) (.hole ⟨distinct, right⟩)
  | pair first second =>
      obtain ⟨left, right⟩ := List.append_eq_nil_iff.mp closed
      refine ⟨.pair, by simp, fun builds _ => ?_⟩
      cases builds
      exact .pair (.hole ⟨distinct, left⟩) (.hole ⟨distinct, right⟩)
  | proj1 argument =>
      refine ⟨.proj1, by simp, fun builds _ => ?_⟩
      cases builds
      exact .proj1 (.hole ⟨distinct, closed⟩)
  | proj2 argument =>
      refine ⟨.proj2, by simp, fun builds _ => ?_⟩
      cases builds
      exact .proj2 (.hole ⟨distinct, closed⟩)

/-- A state on the way to a target. -/
structure EditorState.Draft (target : Term) (state : EditorState) : Prop where
  consistent : ∃ inference, state.Consistent inference
  sketch : Term.Matches Pending [] target state.term
  compact : state.term.Compact

namespace EditorState.Draft

variable {target : Term} {state : EditorState}

theorem hasType_of_matches {stands : Scope → Term → HoleName → Prop} {program : Term}
    {ty : Ty} (typed : target.HasType .empty ty)
    (sketch : Term.Matches stands [] target program) : ∃ ty, program.HasType .empty ty := by
  refine ⟨ty, sketch.hasType ?_ typed⟩
  rintro left right -
  rfl

/-- One more constructor or variable of the target can be put, and the program is
still a sketch of the target. -/
theorem step (draft : Draft target state) {ty : Ty} (typed : target.HasType .empty ty)
    (small : target.nodes < 2 ^ 30) {hole : HoleName} {scope : Scope} {part : Term}
    (unfinished : Term.Unfinished Pending [] target state.term hole scope part) :
    ∃ transitions next, state.run transitions = .ok next ∧ Draft target next ∧
      next.term.nodes + state.term.holes.length =
        state.term.nodes + next.term.holes.length + 1 := by
  obtain ⟨inference, consistent⟩ := draft.consistent
  have programSmall : state.term.nodes < 2 ^ 30 :=
    Nat.lt_of_le_of_lt draft.sketch.nodes_le small
  have inProgram : ∀ name ∈ scope.bound, name ∈ state.term.vars := by
    intro name bound
    exact (unfinished.bound name bound).resolve_left List.not_mem_nil
  obtain ⟨action, inScope, matching⟩ :=
    unfinished.standsFor.exists_action unfinished.notHole
  have refined {fragment filled : Term} (draws : action.Draws state.term fragment)
      (fills : Term.Fills hole (fragment.withLabel part.rootLabel) state.term filled) :
      Term.Matches Pending [] target filled := by
    obtain ⟨count, built⟩ := draws.exists_builds
    refine unfinished.refined fills (matching built ?_)
    rintro rfl name member bound
    have fresh := draft.compact.fresh_of_draws draws name member
    exact (fresh.resolve_left (by simp)).2.1 (inProgram name bound)
  obtain ⟨fragment, filled, transitions, next, nextInference, draws, fills, taken, term,
    nextConsistent⟩ := consistent.exists_put_labeled unfinished.member draft.compact
      programSmall action part.rootLabel
      fun draws fills => hasType_of_matches typed (refined draws fills)
  refine ⟨transitions, next, taken, ⟨⟨nextInference, nextConsistent⟩, ?_, ?_⟩, ?_⟩
  · rw [term]
    exact (refined draws fills).mapHoles _ id
  · rw [term]
    exact draft.compact.filled draws fills
      fun name isVar => inProgram name (inScope name isVar)
  · obtain ⟨count, built⟩ := draws.exists_builds
    have nodes := fills.nodes
    have holes := fills.length_holes
    rw [Term.nodes_withLabel, built.nodes] at nodes
    rw [Term.holes_withLabel] at holes
    rw [term, Term.nodes_mapHoles, Term.holes_mapHoles, List.length_map]
    omega

theorem exists_finished (draft : Draft target state) {ty : Ty}
    (typed : target.HasType .empty ty) (small : target.nodes < 2 ^ 30) :
    ∃ transitions final, state.run transitions = .ok final ∧
      Term.Finished [] target final.term ∧ final.term.holes.Nodup := by
  -- Each step adds a node that is not a hole, and the target has no more of them.
  induction work : target.nodes + state.term.holes.length - state.term.nodes using
      Nat.strong_induction_on generalizing state with
  | _ work ih =>
      obtain ⟨inference, consistent⟩ := draft.consistent
      rcases draft.sketch.finished_or_unfinished consistent.distinct with
        finished | ⟨hole, scope, part, unfinished⟩
      · exact ⟨[], state, rfl, finished, consistent.distinct⟩
      · obtain ⟨transitions, next, taken, nextDraft, progress⟩ :=
          draft.step typed small unfinished
        have some := List.length_pos_of_mem unfinished.member
        have few := draft.sketch.nodes_le
        obtain ⟨rest, final, restTaken, finished, distinct⟩ :=
          ih _ (by omega) nextDraft rfl
        exact ⟨transitions ++ rest, final, run_append taken restTaken, finished, distinct⟩

end EditorState.Draft

namespace EditorState

theorem start_blank (options : EditorOptions) :
    start .blank options = .ok { blank with options } :=
  rfl

theorem blank_draft {target : Term} (closed : target.freeOccurrences [] = [])
    (options : EditorOptions) : Draft target { blank with options } where
  consistent := by
    have safe := start_safe .blank options
    rw [start_blank] at safe
    exact safe
  sketch := .hole ⟨List.nodup_nil, closed⟩
  compact := by
    change Term.blank.Compact
    constructor <;> decide

/-- Every well-typed program with distinct holes and fewer than `2 ^ 30` nodes can be
built from one hole by steps that all succeed, up to the names of its bound variables
and holes. -/
theorem every_program_buildable {target : Term} {inference : Inference}
    (small : target.nodes < 2 ^ 30) (distinct : target.holes.Nodup)
    (inferred : infer target = .ok inference) (options : EditorOptions) :
    ∃ initial transitions final, ∃ rename : HoleName → HoleName,
      start .blank options = .ok initial ∧ initial.run transitions = .ok final ∧
      Set.InjOn rename {name | name ∈ target.holes} ∧
      Term.Renames rename target final.term := by
  obtain ⟨-, ty, typed⟩ := exists_infer_iff.mp ⟨inference, inferred⟩
  obtain ⟨transitions, final, taken, finished, finalDistinct⟩ :=
    (blank_draft typed.freeOccurrences_eq_nil options).exists_finished typed small
  obtain ⟨rename, injective, renames⟩ := finished.exists_renames distinct finalDistinct
  exact ⟨_, transitions, final, rename, start_blank options, taken, injective, renames⟩

/-- A derivation for a program in which a binder hides the one around it. -/
def hidingBinder : AnnotatedTerm :=
  .abs ⟨⟨7⟩, some "n"⟩ (.var ⟨0⟩) <| .abs ⟨⟨7⟩, none⟩ (.var ⟨1⟩) <|
    .pair (.pair (.hole ⟨5⟩ (.var ⟨2⟩)) (.var ⟨7⟩ (.var ⟨1⟩))
      (.product (.var ⟨2⟩) (.var ⟨1⟩))) (.hole ⟨3⟩ (.var ⟨3⟩))
      (.product (.product (.var ⟨2⟩) (.var ⟨1⟩)) (.var ⟨3⟩))

theorem every_program_buildable_hidingBinder :
    let options : EditorOptions := ⟨.byType, true⟩
    infer hidingBinder.erase = .ok (.ofAnnotated hidingBinder) ∧
    ∃ initial transitions final, ∃ rename : HoleName → HoleName,
      start .blank options = .ok initial ∧ initial.run transitions = .ok final ∧
      rename ⟨5⟩ ≠ rename ⟨3⟩ ∧ Term.Renames rename hidingBinder.erase final.term := by
  have inferred : infer hidingBinder.erase = .ok (.ofAnnotated hidingBinder) := by decide
  obtain ⟨initial, transitions, final, rename, started, taken, injective, renames⟩ :=
    every_program_buildable (show hidingBinder.erase.nodes < 2 ^ 30 by decide) (by decide)
      inferred ⟨.byType, true⟩
  refine ⟨inferred, initial, transitions, final, rename, started, taken, ?_, renames⟩
  intro same
  exact absurd (injective (by decide) (by decide) same) (by decide)

end EditorState

end TypedHoles
