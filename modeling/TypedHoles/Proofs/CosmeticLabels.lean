import TypedHoles.Proofs.NameDiscipline

/-!
# Labelling variables is cosmetic

A label belongs to the first binder of a variable, and giving a label changes nothing
else.  As no step looks at labels, and as an abstraction that is put binds a new
variable, it makes no difference whether a variable gets its label before or after
another step.
-/

namespace TypedHoles

/-! ## Lists of binders -/

/-- Give the first binder of the variable `name` another label. -/
def relabelFirst (name : VarName) (label : Option String) : List Binder → List Binder
  | [] => []
  | binder :: binders =>
      if binder.name = name then
        { binder with label } :: binders
      else
        binder :: relabelFirst name label binders

section RelabelFirst

variable {name other : VarName} {label otherLabel : Option String}

@[simp]
theorem map_name_relabelFirst (binders : List Binder) :
    (relabelFirst name label binders).map Binder.name = binders.map Binder.name := by
  induction binders with
  | nil => rfl
  | cons binder binders ih =>
      rw [relabelFirst]
      split
      · rfl
      · rw [List.map_cons, List.map_cons, ih]

theorem relabelFirst_append_of_mem {first : List Binder}
    (bound : name ∈ first.map Binder.name) (second : List Binder) :
    relabelFirst name label (first ++ second) =
      relabelFirst name label first ++ second := by
  induction first with
  | nil => simp at bound
  | cons binder first ih =>
      rw [List.cons_append, relabelFirst, relabelFirst]
      split
      · rfl
      · next differs =>
        rw [ih (by simpa [Ne.symm differs] using bound), List.cons_append]

theorem relabelFirst_append_of_not_mem {first : List Binder}
    (unbound : name ∉ first.map Binder.name) (second : List Binder) :
    relabelFirst name label (first ++ second) =
      first ++ relabelFirst name label second := by
  induction first with
  | nil => rfl
  | cons binder first ih =>
      rw [List.map_cons, List.mem_cons, not_or] at unbound
      rw [List.cons_append, relabelFirst, if_neg (Ne.symm unbound.1), ih unbound.2,
        List.cons_append]

theorem relabelFirst_relabelFirst (binders : List Binder) :
    relabelFirst name otherLabel (relabelFirst name label binders) =
      relabelFirst name otherLabel binders := by
  induction binders with
  | nil => rfl
  | cons binder binders ih =>
      by_cases same : binder.name = name
      · simp [relabelFirst, same]
      · simp [relabelFirst, same, ih]

theorem relabelFirst_comm (differ : other ≠ name) (binders : List Binder) :
    relabelFirst other otherLabel (relabelFirst name label binders) =
      relabelFirst name label (relabelFirst other otherLabel binders) := by
  induction binders with
  | nil => rfl
  | cons binder binders ih =>
      by_cases same : binder.name = name
      · simp [relabelFirst, same, Ne.symm differ]
      · by_cases isOther : binder.name = other
        · simp [relabelFirst, isOther, differ]
        · simp [relabelFirst, same, isOther, ih]

/-- Only one binder gets another label. -/
theorem exists_relabelFirst_eq {binders : List Binder}
    (bound : name ∈ binders.map Binder.name) (label : Option String) :
    ∃ before binder after, binders = before ++ binder :: after ∧ binder.name = name ∧
      name ∉ before.map Binder.name ∧
      relabelFirst name label binders = before ++ { binder with label } :: after := by
  induction binders with
  | nil => simp at bound
  | cons binder binders ih =>
      by_cases same : binder.name = name
      · exact ⟨[], binder, binders, rfl, same, by simp, by simp [relabelFirst, same]⟩
      · obtain ⟨before, found, after, rfl, isBinder, earlier, relabels⟩ :=
          ih (by simpa [Ne.symm same] using bound)
        refine ⟨binder :: before, found, after, rfl, isBinder, ?_, ?_⟩
        · simpa [Ne.symm same] using earlier
        · simp [relabelFirst, same, relabels]

end RelabelFirst

/-! ## Terms -/

namespace Term

variable {name : VarName} {label : Option String}

theorem relabel?_eq_none_iff {term : Term} :
    term.relabel? name label = none ↔ name ∉ term.binders.map Binder.name := by
  induction term with
  | unit | var | hole => simp [relabel?]
  | abs binder body ih =>
      by_cases same : binder.name = name
      · simp [relabel?, same]
      · simpa [relabel?, same, Ne.symm same] using ih
  | app applicant argument applicantIh argumentIh =>
      rw [relabel?, binders_app, List.map_append, List.mem_append, not_or,
        ← applicantIh, ← argumentIh]
      cases applicant.relabel? name label <;> simp
  | pair first second firstIh secondIh =>
      rw [relabel?, binders_pair, List.map_append, List.mem_append, not_or, ← firstIh,
        ← secondIh]
      cases first.relabel? name label <;> simp
  | proj1 argument ih => simpa [relabel?] using ih
  | proj2 argument ih => simpa [relabel?] using ih

theorem exists_relabel? {term : Term} (bound : name ∈ term.binders.map Binder.name)
    (label : Option String) : ∃ relabeled, term.relabel? name label = some relabeled := by
  rw [← Option.ne_none_iff_exists']
  exact fun unchanged => relabel?_eq_none_iff.mp unchanged bound

theorem mem_binders_of_relabel? {term relabeled : Term}
    (found : term.relabel? name label = some relabeled) :
    name ∈ term.binders.map Binder.name := by
  by_contra unbound
  rw [relabel?_eq_none_iff.mpr unbound] at found
  simp at found

theorem binders_relabel? {term relabeled : Term}
    (found : term.relabel? name label = some relabeled) :
    relabeled.binders = relabelFirst name label term.binders := by
  induction term generalizing relabeled with
  | unit | var | hole => simp [relabel?] at found
  | abs binder body ih =>
      rw [relabel?] at found
      split at found
      · next same =>
        obtain rfl := Option.some.inj found
        simp [relabelFirst, same]
      · next differs =>
        obtain ⟨inner, innerFound, rfl⟩ := Option.map_eq_some_iff.mp found
        simp [relabelFirst, differs, ih innerFound]
  | app applicant argument applicantIh argumentIh =>
      rw [relabel?] at found
      split at found
      · next inner innerFound =>
        obtain rfl := Option.some.inj found
        rw [binders_app, binders_app, applicantIh innerFound,
          relabelFirst_append_of_mem (mem_binders_of_relabel? innerFound)]
      · next unbound =>
        obtain ⟨inner, innerFound, rfl⟩ := Option.map_eq_some_iff.mp found
        rw [binders_app, binders_app, argumentIh innerFound,
          relabelFirst_append_of_not_mem (relabel?_eq_none_iff.mp unbound)]
  | pair first second firstIh secondIh =>
      rw [relabel?] at found
      split at found
      · next inner innerFound =>
        obtain rfl := Option.some.inj found
        rw [binders_pair, binders_pair, firstIh innerFound,
          relabelFirst_append_of_mem (mem_binders_of_relabel? innerFound)]
      · next unbound =>
        obtain ⟨inner, innerFound, rfl⟩ := Option.map_eq_some_iff.mp found
        rw [binders_pair, binders_pair, secondIh innerFound,
          relabelFirst_append_of_not_mem (relabel?_eq_none_iff.mp unbound)]
  | proj1 argument ih =>
      obtain ⟨inner, innerFound, rfl⟩ := Option.map_eq_some_iff.mp found
      rw [binders_proj1, binders_proj1, ih innerFound]
  | proj2 argument ih =>
      obtain ⟨inner, innerFound, rfl⟩ := Option.map_eq_some_iff.mp found
      rw [binders_proj2, binders_proj2, ih innerFound]

theorem length_binders_of_unlabeled_eq {left right : Term}
    (same : left.unlabeled = right.unlabeled) :
    left.binders.length = right.binders.length := by
  rw [← List.length_map Binder.name, ← map_name_binders_unlabeled, same,
    map_name_binders_unlabeled, List.length_map]

/-- A term is determined by its binders and by what is left without labels. -/
theorem eq_of_unlabeled_eq {left right : Term} (same : left.unlabeled = right.unlabeled)
    (binders : left.binders = right.binders) : left = right := by
  induction left generalizing right with
  | unit | var | hole => cases right <;> simp_all [unlabeled]
  | abs binder body ih =>
      cases right <;> simp only [unlabeled, reduceCtorEq, Term.abs.injEq] at same
      simp only [binders_abs, List.cons.injEq] at binders
      rw [binders.1, ih same.2 binders.2]
  | app applicant argument applicantIh argumentIh =>
      cases right <;> simp only [unlabeled, reduceCtorEq, Term.app.injEq] at same
      rw [binders_app, binders_app] at binders
      obtain ⟨sameLeft, sameRight⟩ :=
        List.append_inj binders (length_binders_of_unlabeled_eq same.1)
      rw [applicantIh same.1 sameLeft, argumentIh same.2 sameRight]
  | pair first second firstIh secondIh =>
      cases right <;> simp only [unlabeled, reduceCtorEq, Term.pair.injEq] at same
      rw [binders_pair, binders_pair] at binders
      obtain ⟨sameLeft, sameRight⟩ :=
        List.append_inj binders (length_binders_of_unlabeled_eq same.1)
      rw [firstIh same.1 sameLeft, secondIh same.2 sameRight]
  | proj1 argument ih =>
      cases right <;> simp only [unlabeled, reduceCtorEq, Term.proj1.injEq] at same
      rw [ih same (by simpa using binders)]
  | proj2 argument ih =>
      cases right <;> simp only [unlabeled, reduceCtorEq, Term.proj2.injEq] at same
      rw [ih same (by simpa using binders)]

/-- What giving a label makes of a term. -/
theorem relabel?_eq_some_iff {term relabeled : Term} :
    term.relabel? name label = some relabeled ↔
      name ∈ term.binders.map Binder.name ∧ relabeled.unlabeled = term.unlabeled ∧
        relabeled.binders = relabelFirst name label term.binders := by
  constructor
  · intro found
    exact ⟨mem_binders_of_relabel? found, unlabeled_relabel? found, binders_relabel? found⟩
  · rintro ⟨bound, same, binders⟩
    obtain ⟨other, found⟩ := exists_relabel? bound label
    rw [found, Option.some.injEq]
    exact eq_of_unlabeled_eq ((unlabeled_relabel? found).trans same.symm)
      ((binders_relabel? found).trans binders.symm)

/-- Parts that do not bind the variable can be plugged in before or after it gets its
label. -/
theorem relabel?_plug {parts : HoleName → Term} {term : Term}
    (unbound : ∀ hole ∈ term.holes, (parts hole).relabel? name label = none) :
    (term.plug parts).relabel? name label =
      (term.relabel? name label).map (plug parts) := by
  induction term with
  | unit | var => rfl
  | hole hole => exact unbound hole (by simp)
  | abs binder body ih =>
      by_cases same : binder.name = name
      · simp [plug, relabel?, same]
      · simp [plug, relabel?, same, ih (by simpa using unbound), Function.comp_def]
  | app applicant argument applicantIh argumentIh =>
      rw [holes_app, List.forall_mem_append] at unbound
      rw [plug, relabel?, relabel?, applicantIh unbound.1, argumentIh unbound.2]
      cases applicant.relabel? name label with
      | some relabeled => rfl
      | none => cases argument.relabel? name label <;> rfl
  | pair first second firstIh secondIh =>
      rw [holes_pair, List.forall_mem_append] at unbound
      rw [plug, relabel?, relabel?, firstIh unbound.1, secondIh unbound.2]
      cases first.relabel? name label with
      | some relabeled => rfl
      | none => cases second.relabel? name label <;> rfl
  | proj1 argument ih =>
      simp [plug, relabel?, ih (by simpa using unbound), Function.comp_def]
  | proj2 argument ih =>
      simp [plug, relabel?, ih (by simpa using unbound), Function.comp_def]

end Term

/-! ## Actions -/

namespace Action

variable {name : VarName} {label : Option String} {action : Action}
  {term relabeled : Term} {hole : HoleName}

/-- A variable that is bound already is not bound by the fragment of an action. -/
theorem relabel?_fragment {supplies rest : Supplies} {fragment : Term}
    (supplied : term.supplies = .ok supplies)
    (drawn : action.fragment.run supplies = .ok fragment rest)
    (bound : name ∈ term.binders.map Binder.name) (label : Option String) :
    fragment.relabel? name label = none := by
  have vars := mem_vars_fragment drawn
  cases fragment_builds drawn with
  | unit | var | application | pair | proj1 | proj2 => rfl
  | abstraction new =>
      have differs : new ≠ name := by
        rintro rfl
        rcases vars new (by simp) with isVar | ⟨-, rfl⟩
        · simp at isVar
        · exact Term.next_not_mem_vars supplied (term.sublist_binders_vars.subset bound)
      simp [Term.relabel?, differs]

theorem fill_relabeled {result : Term} (distinct : term.holes.Nodup)
    (member : hole ∈ term.holes) (found : term.relabel? name label = some relabeled)
    (filling : action.fill term hole = .ok result) :
    ∃ relabeledResult, result.relabel? name label = some relabeledResult ∧
      action.fill relabeled hole = .ok relabeledResult := by
  obtain ⟨supplies, fragment, rest, filled, supplied, drawn, fills, fits, rfl⟩ :=
    exists_of_fill_eq_ok member filling
  have same := Term.unlabeled_relabel? found
  have resupplied : relabeled.supplies = .ok supplies := by
    rw [← Term.supplies_unlabeled, same, Term.supplies_unlabeled, supplied]
  have sameHoles : relabeled.holes = term.holes := by
    rw [← Term.holes_unlabeled, same, Term.holes_unlabeled]
  obtain ⟨refilled, refound⟩ := Term.exists_fillHole? (sameHoles ▸ member) fragment
  have plugged := fills.eq_plug distinct
  have replugged :=
    (Term.fills_of_fillHole? refound).eq_plug (by rw [sameHoles]; exact distinct)
  have sameNumbering : refilled.holeNumbering = filled.holeNumbering := by
    rw [Term.holeNumbering, Term.holeNumbering, plugged, replugged, Term.holes_plug,
      Term.holes_plug, sameHoles]
  have unbound :=
    relabel?_fragment supplied drawn (Term.mem_binders_of_relabel? found) label
  have relabels : filled.relabel? name label = some refilled := by
    rw [plugged, Term.relabel?_plug, found, Option.map_some, replugged]
    intro other occurs
    split
    · exact unbound
    · rfl
  refine ⟨refilled.mapHoles refilled.holeNumbering.rename, ?_, ?_⟩
  · rw [Term.mapHoles_eq_plug, Term.relabel?_plug (fun _ _ => rfl), relabels,
      sameNumbering, Option.map_some, Term.mapHoles_eq_plug]
  · rw [fill_eq resupplied drawn refound, sameNumbering, if_pos fits]

end Action

/-! ## Steps -/

namespace EditorState

variable {state : EditorState} {inference : Inference} {name : VarName}
  {label : Option String} {relabeled : Term}

theorem relabel_eq_ok (found : state.term.relabel? name label = some relabeled) :
    state.relabel name label = .ok { state with term := relabeled } := by
  rw [relabel, found]

theorem Consistent.select_relabeled (consistent : state.Consistent inference)
    (found : state.term.relabel? name label = some relabeled) (hole : HoleName) :
    select { state with term := relabeled } hole =
      state.select hole >>= fun next => next.relabel name label := by
  have same := Term.unlabeled_relabel? found
  have sameHoles : relabeled.holes = state.term.holes := by
    rw [← Term.holes_unlabeled, same, Term.holes_unlabeled]
  obtain ⟨next, unlabeled, relabeledConsistent⟩ := consistent.relabeled same
  rw [relabeledConsistent.select_eq, consistent.select_eq]
  by_cases member : hole ∈ state.term.holes
  · rw [if_pos (sameHoles ▸ member), if_pos member,
      Consistent.focusOn_of_unlabeled_eq same unlabeled]
    cases state.focusOn inference hole with
    | error failure => rfl
    | ok focus =>
        have relabels : relabel { state with focus := some focus } name label =
            .ok { state with term := relabeled, focus := some focus } := relabel_eq_ok found
        exact relabels.symm
  · rw [if_neg (sameHoles ▸ member), if_neg member]
    rfl

theorem Consistent.put_relabeled (consistent : state.Consistent inference)
    (found : state.term.relabel? name label = some relabeled) (action : Action) :
    put { state with term := relabeled } action =
      state.put action >>= fun next => next.relabel name label := by
  cases focused : state.focus with
  | none => simp [put, focused, bind, Except.bind]
  | some focus =>
      by_cases offered : .put action ∈ focus.transitions
      · obtain ⟨next, -, taken, -⟩ := consistent.exists_put focused offered
        obtain ⟨_, filled, filledInference, sameFocus, isOffered, filling, inferred, rfl⟩ :=
          exists_of_put_eq_ok taken
        obtain rfl := Option.some.inj (focused.symm.trans sameFocus)
        obtain ⟨refilled, relabels, refilling⟩ := Action.fill_relabeled
          consistent.distinct (consistent.focused focus focused).1 found filling
        obtain ⟨refilledInference, reinferred, unlabeled⟩ :=
          exists_infer_of_unlabeled_eq (Term.unlabeled_relabel? relabels) inferred
        obtain ⟨-, sameTy, -, -⟩ := Inference.mk.inj unlabeled
        have labeled : relabel { state with
            term := filled, ty := filledInference.ty, focus := none } name label =
              .ok { state with
                term := refilled, ty := filledInference.ty, focus := none } :=
          relabel_eq_ok relabels
        rw [taken]
        simp only [put, isOffered, refilling, reinferred, sameTy, if_true]
        exact labeled.symm
      · have isNotOffered : focus.offers action = false := by
          simpa [Focus.offers] using offered
        simp [put, focused, isNotOffered, bind, Except.bind]

theorem relabel_eq_error (unbound : name ∉ state.term.binders.map Binder.name) :
    state.relabel name label = .error (.refused (.unknownVariable name)) := by
  rw [relabel, Term.relabel?_eq_none_iff.mpr unbound]

/-- Of two labels for the same variable only the last one counts. -/
theorem relabel_relabel (state : EditorState) (name : VarName)
    (label last : Option String) :
    (state.relabel name label >>= fun next => next.relabel name last) =
      state.relabel name last := by
  by_cases bound : name ∈ state.term.binders.map Binder.name
  · obtain ⟨relabeled, found⟩ := Term.exists_relabel? bound label
    obtain ⟨final, finalFound⟩ := Term.exists_relabel? bound last
    have again : relabeled.relabel? name last = some final := by
      obtain ⟨-, same, binders⟩ := Term.relabel?_eq_some_iff.mp found
      obtain ⟨-, finalSame, finalBinders⟩ := Term.relabel?_eq_some_iff.mp finalFound
      refine Term.relabel?_eq_some_iff.mpr ⟨?_, finalSame.trans same.symm, ?_⟩
      · rwa [binders, map_name_relabelFirst]
      · rw [finalBinders, binders, relabelFirst_relabelFirst]
    rw [relabel_eq_ok found, relabel_eq_ok finalFound]
    exact relabel_eq_ok again
  · rw [relabel_eq_error bound, relabel_eq_error bound]
    rfl

/-- Two variables get their labels in any order. -/
theorem relabel_comm {other : VarName} (differ : other ≠ name)
    (bound : name ∈ state.term.binders.map Binder.name) (label otherLabel : Option String) :
    (state.relabel name label >>= fun next => next.relabel other otherLabel) =
      state.relabel other otherLabel >>= fun next => next.relabel name label := by
  obtain ⟨relabeled, found⟩ := Term.exists_relabel? bound label
  obtain ⟨-, same, binders⟩ := Term.relabel?_eq_some_iff.mp found
  rw [relabel_eq_ok found]
  by_cases otherBound : other ∈ state.term.binders.map Binder.name
  · obtain ⟨otherRelabeled, otherFound⟩ := Term.exists_relabel? otherBound otherLabel
    obtain ⟨-, otherSame, otherBinders⟩ := Term.relabel?_eq_some_iff.mp otherFound
    obtain ⟨final, finalFound⟩ := Term.exists_relabel?
      (show other ∈ relabeled.binders.map Binder.name by
        rwa [binders, map_name_relabelFirst]) otherLabel
    obtain ⟨-, finalSame, finalBinders⟩ := Term.relabel?_eq_some_iff.mp finalFound
    have swapped : otherRelabeled.relabel? name label = some final := by
      refine Term.relabel?_eq_some_iff.mpr ⟨?_, ?_, ?_⟩
      · rwa [otherBinders, map_name_relabelFirst]
      · rw [finalSame, same, otherSame]
      · rw [finalBinders, binders, otherBinders, relabelFirst_comm differ]
    have inOrder : relabel { state with term := relabeled } other otherLabel =
        .ok { state with term := final } := relabel_eq_ok finalFound
    have reversed : relabel { state with term := otherRelabeled } name label =
        .ok { state with term := final } := relabel_eq_ok swapped
    rw [relabel_eq_ok otherFound]
    exact inOrder.trans reversed.symm
  · rw [relabel_eq_error otherBound]
    refine relabel_eq_error ?_
    rwa [binders, map_name_relabelFirst]

/-- Giving a label to a variable of a state that the editor reaches commutes with
selecting a hole and with putting an action, whether these succeed or fail, and with
giving another variable a label.  A later label for the same variable replaces an earlier
one, and nothing changes but the label of the first binder of the variable. -/
theorem relabel_cosmetic {state : EditorState} (reachable : state.Reachable)
    {name : VarName} (bound : name ∈ state.term.binders.map Binder.name)
    (label : Option String) :
    (∀ hole, (state.relabel name label >>= fun next => next.update (.select hole)) =
      state.update (.select hole) >>= fun next => next.relabel name label) ∧
    (∀ action, (state.relabel name label >>= fun next => next.update (.put action)) =
      state.update (.put action) >>= fun next => next.relabel name label) ∧
    (∀ other otherLabel, other ≠ name →
      (state.relabel name label >>= fun next => next.relabel other otherLabel) =
        state.relabel other otherLabel >>= fun next => next.relabel name label) ∧
    (∀ last, (state.relabel name label >>= fun next => next.relabel name last) =
      state.relabel name last) ∧
    ∃ relabeled before binder after,
      state.relabel name label = .ok { state with term := relabeled } ∧
      relabeled.unlabeled = state.term.unlabeled ∧
      state.term.binders = before ++ binder :: after ∧ binder.name = name ∧
      name ∉ before.map Binder.name ∧
      relabeled.binders = before ++ { binder with label } :: after := by
  obtain ⟨inference, consistent⟩ := reachable.consistent
  obtain ⟨relabeled, found⟩ := Term.exists_relabel? bound label
  have relabels := relabel_eq_ok found
  refine ⟨fun hole => ?_, fun action => ?_,
    fun other otherLabel differ => relabel_comm differ bound label otherLabel,
    fun last => relabel_relabel state name label last, ?_⟩
  · rw [relabels]
    exact consistent.select_relabeled found hole
  · rw [relabels]
    exact consistent.put_relabeled found action
  · obtain ⟨before, binder, after, binders, isBinder, earlier, changed⟩ :=
      exists_relabelFirst_eq bound label
    exact ⟨relabeled, before, binder, after, relabels, Term.unlabeled_relabel? found,
      binders, isBinder, earlier, (Term.binders_relabel? found).trans changed⟩

theorem relabel_cosmetic_selectedPair :
    let labeled := selectedPair.relabel ⟨0⟩ (some "n")
    (labeled >>= fun next => next.update (.put .abstraction)) =
        (selectedPair.update (.put .abstraction) >>= fun next =>
          next.relabel ⟨0⟩ (some "n")) ∧
      ((labeled >>= fun next => next.update (.put .abstraction)).map term) =
        .ok (.abs ⟨⟨0⟩, some "n"⟩
          (.pair (.abs ⟨⟨1⟩, none⟩ (.hole ⟨0⟩)) (.hole ⟨1⟩))) ∧
      (labeled >>= fun next => next.update (.select ⟨1⟩)) =
        (selectedPair.update (.select ⟨1⟩) >>= fun next =>
          next.relabel ⟨0⟩ (some "n")) ∧
      (labeled >>= fun next => next.relabel ⟨7⟩ none) =
        (selectedPair.relabel ⟨7⟩ none >>= fun next => next.relabel ⟨0⟩ (some "n")) := by
  intro labeled
  have accepted : ofSnapshot selectedPair.snapshot = .ok selectedPair := by decide
  obtain ⟨selects, puts, relabels, -⟩ := relabel_cosmetic (.ofSnapshot accepted)
    (show (⟨0⟩ : VarName) ∈ selectedPair.term.binders.map Binder.name by decide)
    (some "n")
  exact ⟨puts _, by decide, selects _, relabels _ _ (by decide)⟩

end EditorState

end TypedHoles
