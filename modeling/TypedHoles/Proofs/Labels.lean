import TypedHoles.EditorState
import TypedHoles.Proofs.ActionFilling

/-!
# Labels have no meaning

Inference, filling and the candidates for a hole do the same to a program and to
the program without its labels.  So what is known about the holes of a program
stays true when a variable gets another label.
-/

namespace TypedHoles

/-- The term without its labels. -/
def Term.unlabeled : Term → Term
  | unit => unit
  | var name => var name
  | abs binder body => abs ⟨binder.name, none⟩ body.unlabeled
  | app applicant argument => app applicant.unlabeled argument.unlabeled
  | pair first second => pair first.unlabeled second.unlabeled
  | proj1 argument => proj1 argument.unlabeled
  | proj2 argument => proj2 argument.unlabeled
  | hole name => hole name

/-- The annotated term without its labels. -/
def AnnotatedTerm.unlabeled : AnnotatedTerm → AnnotatedTerm
  | unit => unit
  | var name ty => var name ty
  | abs binder domain body => abs ⟨binder.name, none⟩ domain body.unlabeled
  | app applicant argument ty => app applicant.unlabeled argument.unlabeled ty
  | pair first second ty => pair first.unlabeled second.unlabeled ty
  | proj1 argument ty second => proj1 argument.unlabeled ty second
  | proj2 argument ty first => proj2 argument.unlabeled ty first
  | hole name ty => hole name ty

/-- Giving a label changes nothing but labels. -/
theorem Term.unlabeled_relabel? {term relabeled : Term} {name : VarName}
    {label : Option String} (found : term.relabel? name label = some relabeled) :
    relabeled.unlabeled = term.unlabeled := by
  induction term generalizing relabeled with
  | unit | var | hole => simp [relabel?] at found
  | abs binder body ih =>
      rw [relabel?] at found
      split at found
      · obtain rfl := Option.some.inj found
        rfl
      · obtain ⟨inner, innerFound, rfl⟩ := Option.map_eq_some_iff.mp found
        rw [unlabeled, unlabeled, ih innerFound]
  | proj1 argument ih =>
      obtain ⟨inner, innerFound, rfl⟩ := Option.map_eq_some_iff.mp found
      rw [unlabeled, unlabeled, ih innerFound]
  | proj2 argument ih =>
      obtain ⟨inner, innerFound, rfl⟩ := Option.map_eq_some_iff.mp found
      rw [unlabeled, unlabeled, ih innerFound]
  | app applicant argument applicantIh argumentIh =>
      rw [relabel?] at found
      split at found
      · next inner innerFound =>
        obtain rfl := Option.some.inj found
        rw [unlabeled, unlabeled, applicantIh innerFound]
      · obtain ⟨inner, innerFound, rfl⟩ := Option.map_eq_some_iff.mp found
        rw [unlabeled, unlabeled, argumentIh innerFound]
  | pair first second firstIh secondIh =>
      rw [relabel?] at found
      split at found
      · next inner innerFound =>
        obtain rfl := Option.some.inj found
        rw [unlabeled, unlabeled, firstIh innerFound]
      · obtain ⟨inner, innerFound, rfl⟩ := Option.map_eq_some_iff.mp found
        rw [unlabeled, unlabeled, secondIh innerFound]

/-! ## Names in annotated terms -/

namespace AnnotatedTerm

/-- Replace the names at the nodes of an annotated term. -/
def mapNames (onVar : VarName → VarName) (onBinder : Binder → Binder)
    (onHole : HoleName → HoleName) : AnnotatedTerm → AnnotatedTerm
  | unit => unit
  | var name ty => var (onVar name) ty
  | abs binder domain body =>
      abs (onBinder binder) domain (body.mapNames onVar onBinder onHole)
  | app applicant argument ty =>
      app (applicant.mapNames onVar onBinder onHole)
        (argument.mapNames onVar onBinder onHole) ty
  | pair first second ty =>
      pair (first.mapNames onVar onBinder onHole)
        (second.mapNames onVar onBinder onHole) ty
  | proj1 argument ty second =>
      proj1 (argument.mapNames onVar onBinder onHole) ty second
  | proj2 argument ty first =>
      proj2 (argument.mapNames onVar onBinder onHole) ty first
  | hole name ty => hole (onHole name) ty

section MapNames

variable (onVar : VarName → VarName) (onBinder : Binder → Binder)
  (onHole : HoleName → HoleName)

@[simp]
theorem ty_mapNames (term : AnnotatedTerm) :
    (term.mapNames onVar onBinder onHole).ty = term.ty := by
  induction term with
  | abs binder domain body ih => rw [mapNames, ty, ty, ih]
  | unit | var | app | pair | proj1 | proj2 | hole => rfl

@[simp]
theorem constraints_mapNames (term : AnnotatedTerm) :
    (term.mapNames onVar onBinder onHole).constraints = term.constraints := by
  induction term with
  | unit | var | hole => rfl
  | abs binder domain body ih => simpa only [mapNames, constraints] using ih
  | app applicant argument ty applicantIh argumentIh =>
      simp only [mapNames, constraints, ty_mapNames, applicantIh, argumentIh]
  | pair first second ty firstIh secondIh =>
      simp only [mapNames, constraints, ty_mapNames, firstIh, secondIh]
  | proj1 argument ty second ih =>
      simp only [mapNames, constraints, ty_mapNames, ih]
  | proj2 argument ty first ih =>
      simp only [mapNames, constraints, ty_mapNames, ih]

theorem traverseTypes_mapNames {m : Type → Type} [Monad m] [LawfulMonad m]
    (action : Ty → m Ty) (term : AnnotatedTerm) :
    (term.mapNames onVar onBinder onHole).traverseTypes action =
      mapNames onVar onBinder onHole <$> term.traverseTypes action := by
  induction term with
  | unit | var | hole => simp [mapNames, traverseTypes]
  | abs binder domain body ih => simp [mapNames, traverseTypes, ih]
  | app applicant argument ty applicantIh argumentIh =>
      simp [mapNames, traverseTypes, applicantIh, argumentIh]
  | pair first second ty firstIh secondIh =>
      simp [mapNames, traverseTypes, firstIh, secondIh]
  | proj1 argument ty second ih => simp [mapNames, traverseTypes, ih]
  | proj2 argument ty first ih => simp [mapNames, traverseTypes, ih]

theorem applySubstitution_mapNames (term : AnnotatedTerm) (substitution : Substitution) :
    (term.mapNames onVar onBinder onHole).applySubstitution substitution =
      (term.applySubstitution substitution).mapNames onVar onBinder onHole := by
  rw [applySubstitution, traverseTypes_mapNames, StateT.run_map]
  rfl

theorem canonical_mapNames (term : AnnotatedTerm) :
    (term.mapNames onVar onBinder onHole).canonical =
      term.canonical.map fun (normal, numbering) =>
        (normal.mapNames onVar onBinder onHole, numbering) := by
  rw [canonical, traverseTypes_mapNames, StateT.run_map]
  rfl

end MapNames

theorem unlabeled_eq_mapNames :
    unlabeled = mapNames id (fun binder => ⟨binder.name, none⟩) id := by
  funext term
  induction term with
  | unit | var | hole => rfl
  | abs binder domain body ih => rw [unlabeled, mapNames, ih]
  | app applicant argument ty applicantIh argumentIh =>
      rw [unlabeled, mapNames, applicantIh, argumentIh]
  | pair first second ty firstIh secondIh =>
      rw [unlabeled, mapNames, firstIh, secondIh]
  | proj1 argument ty second ih => rw [unlabeled, mapNames, ih]
  | proj2 argument ty first ih => rw [unlabeled, mapNames, ih]

/-! ## Inference -/

@[simp]
theorem holesIn_unlabeled (term : AnnotatedTerm) (context : Context) :
    term.unlabeled.holesIn context = term.holesIn context := by
  induction term generalizing context with
  | unit | var | hole => rfl
  | abs binder domain body ih => exact ih _
  | app applicant argument ty applicantIh argumentIh =>
      simp only [unlabeled, holesIn, applicantIh, argumentIh]
  | pair first second ty firstIh secondIh =>
      simp only [unlabeled, holesIn, firstIh, secondIh]
  | proj1 argument ty second ih => exact ih context
  | proj2 argument ty first ih => exact ih context

end AnnotatedTerm

theorem Annotate.annotate_unlabeled (context : Context) (term : Term) :
    annotate context term.unlabeled =
      AnnotatedTerm.unlabeled <$> annotate context term := by
  induction term generalizing context with
  | unit | var | hole => simp [Term.unlabeled, annotate, AnnotatedTerm.unlabeled]
  | abs binder body ih => simp [Term.unlabeled, annotate, AnnotatedTerm.unlabeled, ih]
  | app applicant argument applicantIh argumentIh =>
      simp [Term.unlabeled, annotate, AnnotatedTerm.unlabeled, applicantIh, argumentIh]
  | pair first second firstIh secondIh =>
      simp [Term.unlabeled, annotate, AnnotatedTerm.unlabeled, firstIh, secondIh]
  | proj1 argument ih => simp [Term.unlabeled, annotate, AnnotatedTerm.unlabeled, ih]
  | proj2 argument ih => simp [Term.unlabeled, annotate, AnnotatedTerm.unlabeled, ih]

/-- The inference without the labels of its term. -/
def Inference.unlabeled (inference : Inference) : Inference :=
  { inference with term := inference.term.unlabeled }

theorem Inference.ofAnnotated_unlabeled (term : AnnotatedTerm) :
    ofAnnotated term.unlabeled = (ofAnnotated term).unlabeled := by
  have sameTy : term.unlabeled.ty = term.ty := by
    rw [AnnotatedTerm.unlabeled_eq_mapNames, AnnotatedTerm.ty_mapNames]
  simp [ofAnnotated, unlabeled, sameTy]

theorem Term.annotated_unlabeled (term : Term) :
    term.unlabeled.annotated =
      match term.annotated with
      | .ok annotated rest => .ok annotated.unlabeled rest
      | .error failure rest => .error failure rest := by
  rw [annotated, annotated, Annotate.annotate_unlabeled, map_eq_pure_bind,
    EStateM.run_bind]
  cases (Annotate.annotate .empty term).run .full <;> rfl

theorem infer_unlabeled (term : Term) :
    infer term.unlabeled = (infer term).map Inference.unlabeled := by
  rw [infer, infer, Term.annotated_unlabeled]
  cases term.annotated with
  | error failure rest => rfl
  | ok annotated rest =>
      simp only [AnnotatedTerm.unlabeled_eq_mapNames, AnnotatedTerm.constraints_mapNames]
      cases (Unify.solve annotated.constraints).run .empty with
      | error clash after => rfl
      | ok _ substitution =>
          simp only [AnnotatedTerm.applySubstitution_mapNames,
            AnnotatedTerm.canonical_mapNames]
          cases (annotated.applySubstitution substitution).canonical with
          | error reason => rfl
          | ok result =>
              have same := Inference.ofAnnotated_unlabeled result.1
              rw [AnnotatedTerm.unlabeled_eq_mapNames] at same
              exact congrArg Except.ok same

theorem exists_infer_of_unlabeled_eq {term relabeled : Term} {inference : Inference}
    (same : relabeled.unlabeled = term.unlabeled) (inferred : infer term = .ok inference) :
    ∃ next, infer relabeled = .ok next ∧ next.unlabeled = inference.unlabeled := by
  have sameInference : (infer relabeled).map Inference.unlabeled =
      .ok inference.unlabeled := by
    rw [← infer_unlabeled, same, infer_unlabeled, inferred]
    rfl
  cases reinferred : infer relabeled with
  | error failure => simp [reinferred, Except.map] at sameInference
  | ok next => exact ⟨next, rfl, by simpa [reinferred, Except.map] using sameInference⟩

/-! ## Filling -/

namespace Term

@[simp]
theorem holes_unlabeled (term : Term) : term.unlabeled.holes = term.holes := by
  induction term with
  | unit | var | hole => rfl
  | abs binder body ih => simp [unlabeled, ih]
  | app applicant argument applicantIh argumentIh =>
      simp [unlabeled, applicantIh, argumentIh]
  | pair first second firstIh secondIh => simp [unlabeled, firstIh, secondIh]
  | proj1 argument ih => simp [unlabeled, ih]
  | proj2 argument ih => simp [unlabeled, ih]

theorem filterMap_varName?_preorder_unlabeled (term : Term) :
    term.unlabeled.preorder.filterMap varName? = term.preorder.filterMap varName? := by
  induction term with
  | unit | var | hole => rfl
  | abs binder body ih =>
      simp [unlabeled, preorder, varName?, ih]
  | app applicant argument applicantIh argumentIh =>
      simp [unlabeled, preorder, List.filterMap_cons, varName?, applicantIh, argumentIh]
  | pair first second firstIh secondIh =>
      simp [unlabeled, preorder, List.filterMap_cons, varName?, firstIh, secondIh]
  | proj1 argument ih =>
      simp [unlabeled, preorder, List.filterMap_cons, varName?, ih]
  | proj2 argument ih =>
      simp [unlabeled, preorder, List.filterMap_cons, varName?, ih]

@[simp]
theorem supplies_unlabeled (term : Term) : term.unlabeled.supplies = term.supplies := by
  rw [supplies, supplies, maxVar?, maxVar?, filterMap_varName?_preorder_unlabeled,
    maxHole?, maxHole?, holes_unlabeled]

theorem fillHole?_unlabeled (term : Term) (hole : HoleName) {fragment : Term}
    (plain : fragment.unlabeled = fragment) :
    term.unlabeled.fillHole? hole fragment =
      (term.fillHole? hole fragment).map unlabeled := by
  induction term with
  | unit | var => rfl
  | hole other => by_cases same : other = hole <;> simp [unlabeled, fillHole?, same, plain]
  | abs binder body ih =>
      rw [unlabeled, fillHole?, fillHole?, ih]
      cases body.fillHole? hole fragment <;> rfl
  | proj1 argument ih =>
      rw [unlabeled, fillHole?, fillHole?, ih]
      cases argument.fillHole? hole fragment <;> rfl
  | proj2 argument ih =>
      rw [unlabeled, fillHole?, fillHole?, ih]
      cases argument.fillHole? hole fragment <;> rfl
  | app applicant argument applicantIh argumentIh =>
      rw [unlabeled, fillHole?, fillHole?, applicantIh, argumentIh]
      cases applicant.fillHole? hole fragment with
      | some filled => rfl
      | none => cases argument.fillHole? hole fragment <;> rfl
  | pair first second firstIh secondIh =>
      rw [unlabeled, fillHole?, fillHole?, firstIh, secondIh]
      cases first.fillHole? hole fragment with
      | some filled => rfl
      | none => cases second.fillHole? hole fragment <;> rfl

theorem mapHoles_unlabeled (rename : HoleName → HoleName) (term : Term) :
    term.unlabeled.mapHoles rename = (term.mapHoles rename).unlabeled := by
  induction term with
  | unit | var | hole => rfl
  | abs binder body ih => simp only [unlabeled, mapHoles, ih]
  | app applicant argument applicantIh argumentIh =>
      simp only [unlabeled, mapHoles, applicantIh, argumentIh]
  | pair first second firstIh secondIh =>
      simp only [unlabeled, mapHoles, firstIh, secondIh]
  | proj1 argument ih => simp only [unlabeled, mapHoles, ih]
  | proj2 argument ih => simp only [unlabeled, mapHoles, ih]

theorem canonicalHoles_unlabeled (term : Term) :
    term.unlabeled.canonicalHoles =
      term.canonicalHoles.map fun (normal, numbering) => (normal.unlabeled, numbering) := by
  have numbering : term.unlabeled.holeNumbering = term.holeNumbering := by
    rw [holeNumbering, holeNumbering, holes_unlabeled]
  rw [canonicalHoles_eq, canonicalHoles_eq, numbering, mapHoles_unlabeled]
  by_cases fits : term.holeNumbering.Fits
  · rw [if_pos fits, if_pos fits]
    rfl
  · rw [if_neg fits, if_neg fits]
    rfl

end Term

namespace Action

theorem Builds.unlabeled {count : Nat} {action : Action} {fragment : Term}
    (builds : Builds count action fragment) : fragment.unlabeled = fragment := by
  cases builds <;> rfl

theorem fill_unlabeled (action : Action) (term : Term) (hole : HoleName) :
    action.fill term.unlabeled hole = (action.fill term hole).map Term.unlabeled := by
  simp only [fill, Term.supplies_unlabeled, bind, Except.bind]
  cases term.supplies with
  | error reason => rfl
  | ok supplies =>
      cases drawn : action.fragment.run supplies with
      | error reason rest =>
          simp only [drawn]
          rfl
      | ok fragment rest =>
          have plain := (fragment_builds drawn).unlabeled
          have filled : (term.unlabeled.fillHole? hole fragment).getD term.unlabeled =
              ((term.fillHole? hole fragment).getD term).unlabeled := by
            rw [Term.fillHole?_unlabeled term hole plain]
            cases term.fillHole? hole fragment <;> rfl
          simp only [drawn, filled, Term.canonicalHoles_unlabeled]
          cases ((term.fillHole? hole fragment).getD term).canonicalHoles <;> rfl

theorem fits_unlabeled (action : Action) (term : Term) (hole : HoleName) :
    action.fits term.unlabeled hole = action.fits term hole := by
  simp only [fits, fill_unlabeled, bind, Except.bind]
  cases action.fill term hole with
  | error reason => rfl
  | ok filled =>
      simp only [Except.map, infer_unlabeled]
      cases infer filled <;> rfl

end Action

theorem candidates_unlabeled (term : Term) (hole : HoleName) (ty : Ty)
    (context : Context) (check : VariableCheck) :
    candidates term.unlabeled hole ty context check =
      candidates term hole ty context check := by
  unfold candidates Action.accepts
  simp only [Action.fits_unlabeled]

end TypedHoles
