import TypedHoles.EditorReport
import TypedHoles.Proofs.NameDiscipline

/-!
# How reports call variables

The text of a program shows a variable by the innermost binder around it.  A report on a
state shows a variable by its first binder in the program.  In a program that binds a
variable more than once these may be different binders, also if only one of them is in
scope.  So a report shows the visible variables as the program would in the selected
hole exactly if the two binders of each of them have the same text.
-/

namespace TypedHoles

namespace Term

/-! ## The text that takes the place of a hole -/

/-- The text of a term whose holes are shown by the given texts. -/
def textWith (holeText : HoleName → String) (scope : List Binder) (position : Position) :
    Term → String
  | unit => "unit"
  | var name => varText scope name
  | hole name => holeText name
  | pair first second =>
      "(" ++ first.textWith holeText scope .top ++ ", " ++
        second.textWith holeText scope .top ++ ")"
  | abs binder body =>
      parenthesizeIf (position ≠ .top)
        ("λ" ++ binder.text ++ ". " ++ body.textWith holeText (binder :: scope) .top)
  | app applicant argument =>
      parenthesizeIf (position = .atom)
        (applicant.textWith holeText scope .applicant ++ " " ++
          argument.textWith holeText scope .atom)
  | proj1 argument =>
      parenthesizeIf (position = .atom) ("π₁ " ++ argument.textWith holeText scope .atom)
  | proj2 argument =>
      parenthesizeIf (position = .atom) ("π₂ " ++ argument.textWith holeText scope .atom)

/-- The texts of holes if the hole `place` is shown by `shown`. -/
def holeTextShowing (place : HoleName) (shown : String) (other : HoleName) : String :=
  if other = place then shown else other.text

/-- Whether `shown` is how the text of a program shows a variable that has been put into
the hole `place`. -/
def ShowsAt (term : Term) (place : HoleName) (name : VarName) (shown : String) : Prop :=
  ∃ filled, term.fillHole? place (var name) = some filled ∧
    filled.text = term.textWith (holeTextShowing place shown) [] .top

end Term

theorem parenthesizeIf_inj {condition : Bool} {left right : String} :
    parenthesizeIf condition left = parenthesizeIf condition right ↔ left = right := by
  cases condition <;> simp [parenthesizeIf]

namespace Term

section Showing

variable {place : HoleName} {shown other : String}

theorem textWith_of_not_mem {term : Term} (absent : place ∉ term.holes)
    (scope : List Binder) (position : Position) :
    term.textWith (holeTextShowing place shown) scope position =
      term.textAt scope position := by
  induction term generalizing scope position with
  | unit | var => rfl
  | hole other =>
      have differ : other ≠ place := by simpa [eq_comm] using absent
      exact if_neg differ
  | abs binder body ih =>
      rw [holes_abs] at absent
      rw [textWith, textAt, ih absent]
  | app applicant argument applicantIh argumentIh =>
      rw [holes_app, List.mem_append, not_or] at absent
      rw [textWith, textAt, applicantIh absent.1, argumentIh absent.2]
  | pair first second firstIh secondIh =>
      rw [holes_pair, List.mem_append, not_or] at absent
      rw [textWith, textAt, firstIh absent.1, secondIh absent.2]
  | proj1 argument ih =>
      rw [holes_proj1] at absent
      rw [textWith, textAt, ih absent]
  | proj2 argument ih =>
      rw [holes_proj2] at absent
      rw [textWith, textAt, ih absent]

/-- The text of a program tells by which text a hole that occurs once is shown. -/
theorem textWith_inj {term : Term} (distinct : term.holes.Nodup)
    (member : place ∈ term.holes) {scope : List Binder} {position : Position} :
    term.textWith (holeTextShowing place shown) scope position =
      term.textWith (holeTextShowing place other) scope position ↔ shown = other := by
  induction term generalizing scope position with
  | unit | var => simp at member
  | hole same =>
      obtain rfl : place = same := by simpa using member
      simp [textWith, holeTextShowing]
  | abs binder body ih =>
      rw [holes_abs] at distinct member
      rw [textWith, textWith, parenthesizeIf_inj, String.append_right_inj,
        ih distinct member]
  | app applicant argument applicantIh argumentIh =>
      rw [holes_app] at distinct member
      have disjoint := List.disjoint_of_nodup_append distinct
      rw [textWith, textWith, parenthesizeIf_inj]
      -- Only one side has the hole, and the text of the other one is the same.
      rcases List.mem_append.mp member with inside | inside
      · rw [textWith_of_not_mem (disjoint inside), textWith_of_not_mem (disjoint inside),
          String.append_left_inj, String.append_left_inj,
          applicantIh distinct.of_append_left inside]
      · rw [textWith_of_not_mem fun member => disjoint member inside,
          textWith_of_not_mem fun member => disjoint member inside,
          String.append_right_inj, argumentIh distinct.of_append_right inside]
  | pair first second firstIh secondIh =>
      rw [holes_pair] at distinct member
      have disjoint := List.disjoint_of_nodup_append distinct
      rw [textWith, textWith, String.append_left_inj]
      rcases List.mem_append.mp member with inside | inside
      · rw [textWith_of_not_mem (disjoint inside), textWith_of_not_mem (disjoint inside),
          String.append_left_inj, String.append_left_inj, String.append_right_inj,
          firstIh distinct.of_append_left inside]
      · rw [textWith_of_not_mem fun member => disjoint member inside,
          textWith_of_not_mem fun member => disjoint member inside,
          String.append_right_inj, secondIh distinct.of_append_right inside]
  | proj1 argument ih =>
      rw [holes_proj1] at distinct member
      rw [textWith, textWith, parenthesizeIf_inj, String.append_right_inj,
        ih distinct member]
  | proj2 argument ih =>
      rw [holes_proj2] at distinct member
      rw [textWith, textWith, parenthesizeIf_inj, String.append_right_inj,
        ih distinct member]

/-- A variable in place of a hole is shown by the binders around the hole. -/
theorem textAt_plug_var {term : Term} {name : VarName} {scope : List Binder}
    (shows : ∀ around, (place, around) ∈ term.holesBelow scope →
      varText around name = shown) (position : Position) :
    (term.plug fun other => if other = place then var name else hole other).textAt
        scope position =
      term.textWith (holeTextShowing place shown) scope position := by
  induction term generalizing scope position with
  | unit | var => rfl
  | hole other =>
      by_cases same : other = place
      · have inScope : varText scope name = shown :=
          shows scope (by simp [holesBelow, same])
        simp [plug, textWith, textAt, holeTextShowing, same, inScope]
      · simp [plug, textWith, textAt, holeTextShowing, same]
  | abs binder body ih => rw [plug, textAt, textWith, ih shows]
  | app applicant argument applicantIh argumentIh =>
      simp only [holesBelow, List.mem_append] at shows
      rw [plug, textAt, textWith, applicantIh fun around member => shows around (.inl member),
        argumentIh fun around member => shows around (.inr member)]
  | pair first second firstIh secondIh =>
      simp only [holesBelow, List.mem_append] at shows
      rw [plug, textAt, textWith, firstIh fun around member => shows around (.inl member),
        secondIh fun around member => shows around (.inr member)]
  | proj1 argument ih => rw [plug, textAt, textWith, ih shows]
  | proj2 argument ih => rw [plug, textAt, textWith, ih shows]

@[simp]
theorem map_fst_holesBelow (term : Term) (around : List Binder) :
    (term.holesBelow around).map Prod.fst = term.holes := by
  induction term generalizing around with
  | unit | var | hole => rfl
  | abs binder body ih => rw [holesBelow, ih, holes_abs]
  | app applicant argument applicantIh argumentIh =>
      rw [holesBelow, List.map_append, applicantIh, argumentIh, holes_app]
  | pair first second firstIh secondIh =>
      rw [holesBelow, List.map_append, firstIh, secondIh, holes_pair]
  | proj1 argument ih => rw [holesBelow, ih, holes_proj1]
  | proj2 argument ih => rw [holesBelow, ih, holes_proj2]

/-- The text of a program shows a variable in a hole by the innermost binder around the
hole that binds it. -/
theorem showsAt_iff {term : Term} (distinct : term.holes.Nodup) {around : List Binder}
    (below : (place, around) ∈ term.holesBelow []) {name : VarName} :
    term.ShowsAt place name shown ↔ shown = varText around name := by
  have member : place ∈ term.holes := by
    rw [← term.map_fst_holesBelow []]
    exact List.mem_map_of_mem below
  have onlyAround (others : List Binder) (otherBelow : (place, others) ∈ term.holesBelow []) :
      varText others name = varText around name := by
    have keys : ((term.holesBelow []).map Prod.fst).Nodup := by rwa [map_fst_holesBelow]
    have same := List.inj_on_of_nodup_map keys otherBelow below rfl
    rw [(Prod.mk.inj same).2]
  obtain ⟨filled, found⟩ := exists_fillHole? member (var name)
  have filledText : filled.text =
      term.textWith (holeTextShowing place (varText around name)) [] .top := by
    rw [(fills_of_fillHole? found).eq_plug distinct]
    exact textAt_plug_var onlyAround .top
  rw [ShowsAt, found, eq_comm, ← textWith_inj distinct member, ← filledText]
  simp

end Showing

end Term

/-! ## The binders of a visible variable -/

/-- The innermost binder of a variable among binders of which the innermost is first. -/
def innermost? (around : List Binder) (name : VarName) : Option Binder :=
  around.find? fun binder => binder.name = name

theorem Term.text_innermost? {around : List Binder} {name : VarName}
    (bound : name ∈ around.map Binder.name) :
    (innermost? around name).map Binder.text = some (varText around name) := by
  obtain ⟨binder, found⟩ : ∃ binder, innermost? around name = some binder := by
    rw [← Option.isSome_iff_exists, innermost?, List.find?_isSome]
    obtain ⟨binder, member, rfl⟩ := List.mem_map.mp bound
    exact ⟨binder, member, by simp⟩
  have same : around.find? (fun binder => binder.name = name) = some binder := found
  rw [found, varText, same, Option.map_some]

theorem EditorState.text_findBinder? {state : EditorState} {name : VarName}
    (bound : name ∈ state.term.binders.map Binder.name) :
    (state.term.findBinder? name).map Binder.text = some (state.varText name) :=
  Term.text_innermost? bound

theorem Term.mem_binders_of_mem_holesBelow {term : Term} {around : List Binder}
    {place : HoleName} (below : (place, around) ∈ term.holesBelow []) {name : VarName}
    (bound : name ∈ around.map Binder.name) : name ∈ term.binders.map Binder.name := by
  have inside := (sublist_of_mem_holesBelow below).map Binder.name
  rw [List.reverse_nil, List.nil_append, List.map_reverse] at inside
  exact inside.subset (List.mem_reverse.mpr bound)

/-- A variable that is bound once is bound by the same binder wherever it is visible. -/
theorem Term.findBinder?_eq_innermost? {term : Term} {around : List Binder}
    {place : HoleName} (below : (place, around) ∈ term.holesBelow []) {name : VarName}
    (bound : name ∈ around.map Binder.name)
    (once : term.binders.countP (fun binder => binder.name = name) = 1) :
    term.findBinder? name = innermost? around name := by
  obtain ⟨binder, only⟩ := List.length_eq_one_iff.mp
    (List.countP_eq_length_filter.symm.trans once)
  have inside := (sublist_of_mem_holesBelow below).filter fun binder => binder.name = name
  rw [List.reverse_nil, List.nil_append, only, List.filter_reverse] at inside
  rw [findBinder?, innermost?, ← List.head?_filter, ← List.head?_filter, only]
  rcases List.sublist_singleton.mp inside with none | same
  · -- The variable is visible, so a binder around the hole binds it.
    rw [List.reverse_eq_nil_iff, List.filter_eq_nil_iff] at none
    obtain ⟨other, member, isBound⟩ := List.mem_map.mp bound
    exact absurd (by simpa using isBound) (none other member)
  · rw [List.reverse_eq_iff.mp same, List.reverse_singleton]

theorem Context.mem_scope_iff {context : Context} {name : VarName} :
    name ∈ context.scope ↔ ∃ ty, (name, ty) ∈ context.bindings := by
  simp only [← isSome_lookup_iff, mem_bindings_iff, Option.isSome_iff_exists]

/-! ## Lines about the selected hole -/

namespace Focus

/-- The text of a transition if variables are called by `naming`. -/
def transitionTextBy (naming : VarName → String) : Transition → String
  | .select hole => "select " ++ hole.text
  | .put (.var name) => "put " ++ naming name
  | .put action => "put " ++ action.text
  | .relabel name _ => "relabel " ++ naming name

/-- The line about a variable in scope if variables are called by `naming`. -/
def contextLineBy (naming : VarName → String) (entry : VarName × Ty) : String :=
  "  " ++ Emphasis.red.apply (naming entry.1) ++ " : " ++
    Emphasis.green.apply entry.2.text

/-- The line about a step if variables are called by `naming`. -/
def transitionLineBy (naming : VarName → String) (transition : Transition) : String :=
  "  " ++ Emphasis.blue.apply (transitionTextBy naming transition)

/-- The lines that a report would have about a focus if it called variables by
`naming`. -/
def linesBy (naming : VarName → String) (focus : Focus) : List String :=
  [Emphasis.heading.apply "focus:" ++ " " ++
      Emphasis.yellow.apply focus.hole.text ++ " : " ++
      Emphasis.green.apply focus.ty.text,
    Emphasis.heading.apply "context:"] ++
  focus.context.entries.map (contextLineBy naming) ++
  [Emphasis.heading.apply "transitions:"] ++
  focus.transitions.map (transitionLineBy naming)

variable {naming other : VarName → String}

theorem contextLineBy_inj {entry : VarName × Ty} :
    contextLineBy naming entry = contextLineBy other entry ↔
      naming entry.1 = other entry.1 := by
  simp [contextLineBy, Emphasis.apply]

/-- The lines about a focus tell how variables are called. -/
theorem linesBy_inj {focus : Focus} :
    focus.linesBy naming = focus.linesBy other ↔
      (∀ entry ∈ focus.context.entries, naming entry.1 = other entry.1) ∧
        ∀ transition ∈ focus.transitions,
          transitionLineBy naming transition = transitionLineBy other transition := by
  rw [linesBy, linesBy, List.append_eq_append_iff_of_size_eq_left (by simp),
    List.append_left_inj, List.append_right_inj, List.map_inj_left, List.map_inj_left]
  simp only [contextLineBy_inj]

end Focus

namespace EditorState

variable {state : EditorState} {inference : Inference} {focus : Focus}

theorem focusLines_eq_linesBy (focused : state.focus = some focus) :
    state.focusLines = focus.linesBy state.varText := by
  have sameText (transition : Transition) :
      state.transitionText transition =
        Focus.transitionTextBy state.varText transition := by
    cases transition with
    | select | relabel => rfl
    | put action => cases action <;> rfl
  simp only [focusLines, focused, sameText]
  rfl

/-- A report calls the visible variables by their first binders. -/
theorem Consistent.focusLines_eq_iff (consistent : state.Consistent inference)
    (focused : state.focus = some focus) {naming : VarName → String} :
    state.focusLines = focus.linesBy naming ↔
      ∀ binding ∈ focus.context.bindings, state.varText binding.1 = naming binding.1 := by
  rw [focusLines_eq_linesBy focused, Focus.linesBy_inj]
  constructor
  · rintro ⟨entries, -⟩ ⟨name, ty⟩ visible
    have inScope : name ∈ focus.context.scope := Context.mem_scope_iff.mpr ⟨ty, visible⟩
    obtain ⟨entry, member, rfl⟩ := List.mem_map.mp inScope
    exact entries entry member
  · intro agree
    have inScope (name : VarName) (member : name ∈ focus.context.scope) :
        state.varText name = naming name := by
      obtain ⟨ty, visible⟩ := Context.mem_scope_iff.mp member
      exact agree (name, ty) visible
    refine ⟨fun entry member => inScope entry.1 (List.mem_map_of_mem member), ?_⟩
    intro transition listed
    cases transition with
    | select hole => rfl
    | relabel name label =>
        obtain ⟨actions, -, -, transitions⟩ := consistent.focused_eq focused
        simp [transitions] at listed
    | put action =>
        cases action with
        | unit | application | abstraction | pair | proj1 | proj2 => rfl
        | var name =>
            obtain ⟨known, candidates⟩ := consistent.candidates_eq focused
            have offered : .var name ∈ focus.actions :=
              Focus.mem_actions_iff.mpr (by simpa [Focus.offers] using listed)
            rw [Focus.transitionLineBy, Focus.transitionLineBy, Focus.transitionTextBy,
              Focus.transitionTextBy,
              inScope name (known.mem_scope_of_mem_candidates candidates offered)]

/-- Whether a report calls each visible variable as the text of the program shows it in
the selected hole. -/
def ReportsAsShown (state : EditorState) (focus : Focus) : Prop :=
  ∃ naming, state.focusLines = focus.linesBy naming ∧
    ∀ binding ∈ focus.context.bindings,
      state.term.ShowsAt focus.hole binding.1 (naming binding.1)

/-- A report calls each visible variable by its first binder in the program, and the text
of the program shows it in the selected hole by the innermost binder around the hole.  So
the report is as the program shows it exactly if these binders have the same texts.  They
are the same binder if the program binds the variable once. -/
theorem report_names_first_binders (reachable : state.Reachable)
    (focused : state.focus = some focus) :
    ∃ around, (focus.hole, around) ∈ state.term.holesBelow [] ∧
      (∀ naming, state.focusLines = focus.linesBy naming ↔
        ∀ binding ∈ focus.context.bindings,
          (state.term.findBinder? binding.1).map Binder.text = some (naming binding.1)) ∧
      (∀ binding ∈ focus.context.bindings, ∀ shown,
        state.term.ShowsAt focus.hole binding.1 shown ↔
          (innermost? around binding.1).map Binder.text = some shown) ∧
      (state.ReportsAsShown focus ↔ ∀ binding ∈ focus.context.bindings,
        (state.term.findBinder? binding.1).map Binder.text =
          (innermost? around binding.1).map Binder.text) ∧
      ∀ binding ∈ focus.context.bindings,
        state.term.binders.countP (fun binder => binder.name = binding.1) = 1 →
          state.term.findBinder? binding.1 = innermost? around binding.1 := by
  obtain ⟨inference, consistent⟩ := reachable.consistent
  obtain ⟨known, -⟩ := consistent.candidates_eq focused
  obtain ⟨around, below, scope⟩ := known.exists_mem_holesBelow
  have bound (binding : VarName × Ty) (visible : binding ∈ focus.context.bindings) :
      binding.1 ∈ around.map Binder.name := by
    rw [← scope]
    exact Context.mem_scope_iff.mpr ⟨binding.2, visible⟩
  have firstText (binding : VarName × Ty) (visible : binding ∈ focus.context.bindings) :=
    text_findBinder? (Term.mem_binders_of_mem_holesBelow below (bound binding visible))
  have reported (naming : VarName → String) : state.focusLines = focus.linesBy naming ↔
      ∀ binding ∈ focus.context.bindings,
        (state.term.findBinder? binding.1).map Binder.text = some (naming binding.1) := by
    rw [consistent.focusLines_eq_iff focused]
    refine forall₂_congr fun binding visible => ?_
    rw [firstText binding visible, Option.some.injEq]
  have shows (binding : VarName × Ty) (visible : binding ∈ focus.context.bindings)
      (shown : String) : state.term.ShowsAt focus.hole binding.1 shown ↔
        (innermost? around binding.1).map Binder.text = some shown := by
    rw [Term.showsAt_iff consistent.distinct below,
      Term.text_innermost? (bound binding visible), Option.some.injEq, eq_comm]
  refine ⟨around, below, reported, shows, ?_, fun binding visible =>
    Term.findBinder?_eq_innermost? below (bound binding visible)⟩
  constructor
  · rintro ⟨naming, lines, shown⟩ binding visible
    have first := (reported naming).mp lines binding visible
    have inner := (shows binding visible _).mp (shown binding visible)
    rw [first, inner]
  · intro same
    refine ⟨state.varText, focusLines_eq_linesBy focused, fun binding visible => ?_⟩
    rw [shows binding visible, ← same binding visible, firstText binding visible]

/-- A program that binds one variable twice, with different labels, of which the second
hole is selected. -/
def selectedSibling : EditorState where
  term := .pair (.abs ⟨⟨0⟩, some "f"⟩ (.hole ⟨0⟩)) (.abs ⟨⟨0⟩, some "g"⟩ (.hole ⟨1⟩))
  ty := .product (.arrow (.var ⟨0⟩) (.var ⟨1⟩)) (.arrow (.var ⟨2⟩) (.var ⟨3⟩))
  focus := some {
    hole := ⟨1⟩
    ty := .var ⟨3⟩
    context := ⟨[(⟨0⟩, .var ⟨2⟩)]⟩
    transitions := Action.constructors.map .put ++ [.put (.var ⟨0⟩)] }
  options := .standard

theorem reachable_selectedSibling : selectedSibling.Reachable := by
  have accepted : start selectedSibling.term .standard =
      .ok { selectedSibling with focus := none } := by decide
  have selected : attempt { selectedSibling with focus := none } (.select ⟨1⟩) =
      selectedSibling := by decide
  rw [← selected]
  exact (Reachable.start accepted).attempt _

/-- After the first binder has got the label of the second one, the report calls the
variable as the program shows it. -/
theorem report_names_first_binders_selectedSibling :
    let state := selectedSibling.attempt (.relabel ⟨0⟩ (some "g"))
    state.Reachable ∧ ∃ focus, state.focus = some focus ∧
      state.focusLines = focus.linesBy (fun _ => "g") ∧
      state.term.ShowsAt focus.hole ⟨0⟩ "g" ∧ state.ReportsAsShown focus := by
  intro state
  have reachable := reachable_selectedSibling.attempt (.relabel ⟨0⟩ (some "g"))
  obtain ⟨focus, focused⟩ : ∃ focus, state.focus = some focus := ⟨_, rfl⟩
  obtain ⟨around, below, reported, shows, agrees, -⟩ :=
    report_names_first_binders reachable focused
  obtain rfl := Option.some.inj focused
  have places : state.term.holesBelow [] =
      [(⟨0⟩, [⟨⟨0⟩, some "g"⟩]), (⟨1⟩, [⟨⟨0⟩, some "g"⟩])] := by decide
  obtain rfl : around = [⟨⟨0⟩, some "g"⟩] := by
    change (_, around) ∈ state.term.holesBelow [] at below
    simpa [places] using below
  exact ⟨reachable, _, focused, (reported _).mpr (by decide),
    (shows (⟨0⟩, .var ⟨2⟩) (by decide) "g").mpr (by decide), agrees.mpr (by decide)⟩

/-- The report calls the visible variable by a binder that is not in scope. -/
theorem report_misnames_selectedSibling :
    selectedSibling.Reachable ∧ ∃ focus, selectedSibling.focus = some focus ∧
      selectedSibling.focusLines = focus.linesBy (fun _ => "f") ∧
      selectedSibling.term.ShowsAt focus.hole ⟨0⟩ "g" ∧
      ¬ selectedSibling.ReportsAsShown focus := by
  obtain ⟨inference, consistent⟩ := reachable_selectedSibling.consistent
  have below : (⟨1⟩, [⟨⟨0⟩, some "g"⟩]) ∈ selectedSibling.term.holesBelow [] := by decide
  refine ⟨reachable_selectedSibling, _, rfl, ?_, ?_, ?_⟩
  · exact (consistent.focusLines_eq_iff rfl).mpr (by decide)
  · exact (Term.showsAt_iff consistent.distinct below).mpr (by decide)
  · rintro ⟨naming, lines, shown⟩
    have visible : (⟨0⟩, .var ⟨2⟩) ∈ Context.bindings ⟨[(⟨0⟩, .var ⟨2⟩)]⟩ := by decide
    have reported := (consistent.focusLines_eq_iff rfl).mp lines _ visible
    have inScope := (Term.showsAt_iff consistent.distinct below).mp (shown _ visible)
    rw [← reported] at inScope
    exact absurd inScope (by decide)

end EditorState

end TypedHoles
