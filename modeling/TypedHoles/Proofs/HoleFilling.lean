import TypedHoles.Proofs.PrincipalTyping

/-!
# Filling a hole

The type and the context that inference finds for a hole say which fragments can
be put into it: those that have an instance of the type in the same instance of
the context.
-/

namespace TypedHoles

namespace Term

/-- A term and what becomes of it with `fragment` in place of one hole called
`name`. -/
inductive Fills (name : HoleName) (fragment : Term) : Term → Term → Prop
  | here : Fills name fragment (hole name) fragment
  | abs (binder : Binder) {body filled : Term} (inner : Fills name fragment body filled) :
      Fills name fragment (abs binder body) (abs binder filled)
  | applicant {applicant filled : Term} (inner : Fills name fragment applicant filled)
      (argument : Term) :
      Fills name fragment (app applicant argument) (app filled argument)
  | argument (applicant : Term) {argument filled : Term}
      (inner : Fills name fragment argument filled) :
      Fills name fragment (app applicant argument) (app applicant filled)
  | first {first filled : Term} (inner : Fills name fragment first filled)
      (second : Term) :
      Fills name fragment (pair first second) (pair filled second)
  | second (first : Term) {second filled : Term}
      (inner : Fills name fragment second filled) :
      Fills name fragment (pair first second) (pair first filled)
  | proj1 {argument filled : Term} (inner : Fills name fragment argument filled) :
      Fills name fragment (proj1 argument) (proj1 filled)
  | proj2 {argument filled : Term} (inner : Fills name fragment argument filled) :
      Fills name fragment (proj2 argument) (proj2 filled)

variable {name : HoleName} {fragment term filled : Term}

theorem fills_of_fillHole? (found : term.fillHole? name fragment = some filled) :
    Fills name fragment term filled := by
  induction term generalizing filled with
  | unit | var => simp [fillHole?] at found
  | hole other =>
      by_cases same : other = name
      · obtain rfl : fragment = filled := by simpa [fillHole?, same] using found
        exact same ▸ .here
      · simp [fillHole?, same] at found
  | abs binder body ih =>
      obtain ⟨body', inner, rfl⟩ := Option.map_eq_some_iff.mp found
      exact .abs binder (ih inner)
  | proj1 argument ih =>
      obtain ⟨argument', inner, rfl⟩ := Option.map_eq_some_iff.mp found
      exact .proj1 (ih inner)
  | proj2 argument ih =>
      obtain ⟨argument', inner, rfl⟩ := Option.map_eq_some_iff.mp found
      exact .proj2 (ih inner)
  | app applicant argument applicantIh argumentIh =>
      rw [fillHole?] at found
      split at found
      · next applicant' inner =>
        obtain rfl := Option.some.inj found
        exact .applicant (applicantIh inner) argument
      · obtain ⟨argument', inner, rfl⟩ := Option.map_eq_some_iff.mp found
        exact .argument applicant (argumentIh inner)
  | pair first second firstIh secondIh =>
      rw [fillHole?] at found
      split at found
      · next first' inner =>
        obtain rfl := Option.some.inj found
        exact .first (firstIh inner) second
      · obtain ⟨second', inner, rfl⟩ := Option.map_eq_some_iff.mp found
        exact .second first (secondIh inner)

theorem isSome_fillHole?_iff :
    (term.fillHole? name fragment).isSome = true ↔ name ∈ term.holes := by
  induction term with
  | unit | var => simp [fillHole?]
  | hole other =>
      by_cases same : other = name
      · simp [fillHole?, same]
      · simp [fillHole?, same, Ne.symm same]
  | abs binder body ih => simpa [fillHole?] using ih
  | proj1 argument ih => simpa [fillHole?] using ih
  | proj2 argument ih => simpa [fillHole?] using ih
  | app applicant argument applicantIh argumentIh =>
      rw [fillHole?, holes_app, List.mem_append, ← applicantIh, ← argumentIh]
      cases applicant.fillHole? name fragment <;> simp
  | pair first second firstIh secondIh =>
      rw [fillHole?, holes_pair, List.mem_append, ← firstIh, ← secondIh]
      cases first.fillHole? name fragment <;> simp

theorem exists_fillHole? (member : name ∈ term.holes) (fragment : Term) :
    ∃ filled, term.fillHole? name fragment = some filled :=
  Option.isSome_iff_exists.mp (isSome_fillHole?_iff.mpr member)

namespace Fills

theorem holes (fills : Fills name fragment term filled) :
    ∃ before after, term.holes = before ++ name :: after ∧
      filled.holes = before ++ (fragment.holes ++ after) := by
  induction fills with
  | here => exact ⟨[], [], rfl, by simp⟩
  | abs binder inner ih =>
      obtain ⟨before, after, old, new⟩ := ih
      exact ⟨before, after, by simp [old], by simp [new]⟩
  | applicant inner argument ih =>
      obtain ⟨before, after, old, new⟩ := ih
      exact ⟨before, after ++ argument.holes, by simp [old], by simp [new]⟩
  | argument applicant inner ih =>
      obtain ⟨before, after, old, new⟩ := ih
      exact ⟨applicant.holes ++ before, after, by simp [old], by simp [new]⟩
  | first inner second ih =>
      obtain ⟨before, after, old, new⟩ := ih
      exact ⟨before, after ++ second.holes, by simp [old], by simp [new]⟩
  | second first inner ih =>
      obtain ⟨before, after, old, new⟩ := ih
      exact ⟨first.holes ++ before, after, by simp [old], by simp [new]⟩
  | proj1 inner ih =>
      obtain ⟨before, after, old, new⟩ := ih
      exact ⟨before, after, by simp [old], by simp [new]⟩
  | proj2 inner ih =>
      obtain ⟨before, after, old, new⟩ := ih
      exact ⟨before, after, by simp [old], by simp [new]⟩

theorem typeVarCount (fills : Fills name fragment term filled) :
    filled.typeVarCount + 1 = term.typeVarCount + fragment.typeVarCount := by
  induction fills <;> simp only [Term.typeVarCount] <;> omega

/-- A closed fragment has no variables of its own to report. -/
theorem freeOccurrences (fills : Fills name fragment term filled)
    (closed : ∀ scope, fragment.freeOccurrences scope = []) (scope : List VarName) :
    filled.freeOccurrences scope = term.freeOccurrences scope := by
  induction fills generalizing scope with
  | here => exact closed scope
  | abs binder inner ih => exact ih _
  | applicant inner argument ih => simp only [Term.freeOccurrences, ih]
  | argument applicant inner ih => simp only [Term.freeOccurrences, ih]
  | first inner second ih => simp only [Term.freeOccurrences, ih]
  | second first inner ih => simp only [Term.freeOccurrences, ih]
  | proj1 inner ih => exact ih scope
  | proj2 inner ih => exact ih scope

end Fills

end Term

/-! ## Typing a filled term -/

namespace AnnotatedTerm

theorem holesIn_instantiate (term : AnnotatedTerm) (context : Context)
    (assignment : Assignment) :
    (term.instantiate assignment).holesIn (context.instantiate assignment) =
      (term.holesIn context).map fun (name, ty, inner) =>
        (name, ty.instantiate assignment, inner.instantiate assignment) := by
  induction term generalizing context with
  | unit | var | hole => rfl
  | abs binder domain body ih =>
      simp only [instantiate, holesIn, ← Context.instantiate_extend, ih]
  | app applicant argument ty applicantIh argumentIh =>
      simp only [instantiate, holesIn, applicantIh, argumentIh, List.map_append]
  | pair first second ty firstIh secondIh =>
      simp only [instantiate, holesIn, firstIh, secondIh, List.map_append]
  | proj1 argument ty second ih => exact ih context
  | proj2 argument ty first ih => exact ih context

theorem map_fst_holesIn (term : AnnotatedTerm) (context : Context) :
    (term.holesIn context).map Prod.fst = term.erase.holes := by
  induction term generalizing context with
  | unit | var | hole => rfl
  | abs binder domain body ih => simp [holesIn, erase, ih]
  | app applicant argument ty applicantIh argumentIh =>
      simp [holesIn, erase, applicantIh, argumentIh]
  | pair first second ty firstIh secondIh =>
      simp [holesIn, erase, firstIh, secondIh]
  | proj1 argument ty second ih => simp [holesIn, erase, ih]
  | proj2 argument ty first ih => simp [holesIn, erase, ih]

/-- Whether a fragment has the type and the context of each hole called `name`. -/
def Accepts (context : Context) (term : AnnotatedTerm) (name : HoleName)
    (fragment : Term) : Prop :=
  ∀ ty inner, (name, ty, inner) ∈ term.holesIn context → fragment.HasType inner ty

theorem WellTyped.hasType_filled {derivation : AnnotatedTerm} {context : Context}
    {name : HoleName} {fragment filled : Term}
    (wellTyped : derivation.WellTyped context)
    (accepts : derivation.Accepts context name fragment)
    (fills : Term.Fills name fragment derivation.erase filled) :
    filled.HasType context derivation.ty := by
  induction derivation generalizing context filled with
  | unit | var => cases fills
  | hole other ty =>
      cases fills with
      | here => exact accepts ty context (by simp [holesIn])
  | abs binder domain body ih =>
      cases fills with
      | abs _ inner => exact .abs (ih wellTyped accepts inner)
  | app applicant argument ty applicantIh argumentIh =>
      obtain ⟨applicantTyped, argumentTyped, equal⟩ := wellTyped
      cases fills with
      | applicant inner =>
          have filledTyped := applicantIh applicantTyped
            (fun ty inner member => accepts ty inner (by simp [holesIn, member])) inner
          exact .app (equal ▸ filledTyped) argumentTyped.hasType
      | argument _ inner =>
          have filledTyped := argumentIh argumentTyped
            (fun ty inner member => accepts ty inner (by simp [holesIn, member])) inner
          exact .app (equal ▸ applicantTyped.hasType) filledTyped
  | pair first second ty firstIh secondIh =>
      obtain ⟨firstTyped, secondTyped, rfl⟩ := wellTyped
      cases fills with
      | first inner =>
          have filledTyped := firstIh firstTyped
            (fun ty inner member => accepts ty inner (by simp [holesIn, member])) inner
          exact .pair filledTyped secondTyped.hasType
      | second _ inner =>
          have filledTyped := secondIh secondTyped
            (fun ty inner member => accepts ty inner (by simp [holesIn, member])) inner
          exact .pair firstTyped.hasType filledTyped
  | proj1 argument ty second ih =>
      obtain ⟨argumentTyped, equal⟩ := wellTyped
      cases fills with
      | proj1 inner => exact .proj1 (equal ▸ ih argumentTyped accepts inner)
  | proj2 argument ty first ih =>
      obtain ⟨argumentTyped, equal⟩ := wellTyped
      cases fills with
      | proj2 inner => exact .proj2 (equal ▸ ih argumentTyped accepts inner)

end AnnotatedTerm

/-- Forgetting what was put into a hole keeps the types of the term and of the other
holes, and the fragment has the type of the hole. -/
theorem Term.Fills.exists_opened {name : HoleName} {fragment term filled : Term}
    (fills : Fills name fragment term filled) {derivation : AnnotatedTerm}
    {context : Context} (erases : derivation.erase = filled)
    (wellTyped : derivation.WellTyped context) :
    ∃ opened : AnnotatedTerm, opened.erase = term ∧ opened.WellTyped context ∧
      opened.ty = derivation.ty ∧
      (∃ holeTy inner, (name, holeTy, inner) ∈ opened.holesIn context ∧
        fragment.HasType inner holeTy) ∧
      ∀ entry ∈ opened.holesIn context, entry.1 ≠ name →
        entry ∈ derivation.holesIn context := by
  induction fills generalizing derivation context with
  | here =>
      refine ⟨.hole name derivation.ty, rfl, trivial, rfl,
        ⟨derivation.ty, context, by simp [AnnotatedTerm.holesIn],
          erases ▸ wellTyped.hasType⟩, ?_⟩
      simp [AnnotatedTerm.holesIn]
  | abs binder _ ih =>
      cases derivation with
      | abs other domain body =>
          obtain ⟨rfl, bodyErases⟩ := Term.abs.inj erases
          obtain ⟨opened, rfl, typed, ty, fits, keeps⟩ := ih bodyErases wellTyped
          exact ⟨.abs other domain opened, rfl, typed,
            congrArg (Ty.arrow domain) ty, fits, keeps⟩
      | _ => simp [AnnotatedTerm.erase] at erases
  | applicant _ argument ih =>
      cases derivation with
      | app function input result =>
          obtain ⟨functionErases, rfl⟩ := Term.app.inj erases
          obtain ⟨functionTyped, inputTyped, equal⟩ := wellTyped
          obtain ⟨opened, rfl, typed, ty, ⟨holeTy, inner, member, fits⟩, keeps⟩ :=
            ih functionErases functionTyped
          refine ⟨.app opened input result, rfl, ⟨typed, inputTyped, ty.trans equal⟩,
            rfl, ⟨holeTy, inner, by simp [AnnotatedTerm.holesIn, member], fits⟩, ?_⟩
          simp only [AnnotatedTerm.holesIn, List.mem_append]
          exact fun entry member other => member.imp_left (keeps entry · other)
      | _ => simp [AnnotatedTerm.erase] at erases
  | argument applicant _ ih =>
      cases derivation with
      | app function input result =>
          obtain ⟨rfl, inputErases⟩ := Term.app.inj erases
          obtain ⟨functionTyped, inputTyped, equal⟩ := wellTyped
          obtain ⟨opened, rfl, typed, ty, ⟨holeTy, inner, member, fits⟩, keeps⟩ :=
            ih inputErases inputTyped
          refine ⟨.app function opened result, rfl,
            ⟨functionTyped, typed, ty ▸ equal⟩, rfl,
            ⟨holeTy, inner, by simp [AnnotatedTerm.holesIn, member], fits⟩, ?_⟩
          simp only [AnnotatedTerm.holesIn, List.mem_append]
          exact fun entry member other => member.imp_right (keeps entry · other)
      | _ => simp [AnnotatedTerm.erase] at erases
  | first _ second ih =>
      cases derivation with
      | pair left right result =>
          obtain ⟨leftErases, rfl⟩ := Term.pair.inj erases
          obtain ⟨leftTyped, rightTyped, equal⟩ := wellTyped
          obtain ⟨opened, rfl, typed, ty, ⟨holeTy, inner, member, fits⟩, keeps⟩ :=
            ih leftErases leftTyped
          refine ⟨.pair opened right result, rfl, ⟨typed, rightTyped, ty ▸ equal⟩,
            rfl, ⟨holeTy, inner, by simp [AnnotatedTerm.holesIn, member], fits⟩, ?_⟩
          simp only [AnnotatedTerm.holesIn, List.mem_append]
          exact fun entry member other => member.imp_left (keeps entry · other)
      | _ => simp [AnnotatedTerm.erase] at erases
  | second first _ ih =>
      cases derivation with
      | pair left right result =>
          obtain ⟨rfl, rightErases⟩ := Term.pair.inj erases
          obtain ⟨leftTyped, rightTyped, equal⟩ := wellTyped
          obtain ⟨opened, rfl, typed, ty, ⟨holeTy, inner, member, fits⟩, keeps⟩ :=
            ih rightErases rightTyped
          refine ⟨.pair left opened result, rfl, ⟨leftTyped, typed, ty ▸ equal⟩,
            rfl, ⟨holeTy, inner, by simp [AnnotatedTerm.holesIn, member], fits⟩, ?_⟩
          simp only [AnnotatedTerm.holesIn, List.mem_append]
          exact fun entry member other => member.imp_right (keeps entry · other)
      | _ => simp [AnnotatedTerm.erase] at erases
  | proj1 _ ih =>
      cases derivation with
      | proj1 both result second =>
          obtain ⟨bothTyped, equal⟩ := wellTyped
          obtain ⟨opened, rfl, typed, ty, fits, keeps⟩ :=
            ih (Term.proj1.inj erases) bothTyped
          exact ⟨.proj1 opened result second, rfl, ⟨typed, ty.trans equal⟩, rfl, fits,
            keeps⟩
      | _ => simp [AnnotatedTerm.erase] at erases
  | proj2 _ ih =>
      cases derivation with
      | proj2 both result first =>
          obtain ⟨bothTyped, equal⟩ := wellTyped
          obtain ⟨opened, rfl, typed, ty, fits, keeps⟩ :=
            ih (Term.proj2.inj erases) bothTyped
          exact ⟨.proj2 opened result first, rfl, ⟨typed, ty.trans equal⟩, rfl, fits,
            keeps⟩
      | _ => simp [AnnotatedTerm.erase] at erases

/-- A derivation for a filled term comes from one for the open term, at whose hole
the fragment has the type of the hole. -/
theorem Term.Fills.exists_derivation {name : HoleName} {fragment term filled : Term}
    (fills : Fills name fragment term filled) {context : Context} {ty : Ty}
    (typed : filled.HasType context ty) :
    ∃ derivation : AnnotatedTerm, derivation.erase = term ∧
      derivation.WellTyped context ∧ derivation.ty = ty ∧
      ∃ holeTy inner, (name, holeTy, inner) ∈ derivation.holesIn context ∧
        fragment.HasType inner holeTy := by
  obtain ⟨derivation, erases, wellTyped, rfl⟩ :=
    hasType_iff_exists_derivation.mp typed
  obtain ⟨opened, openedErases, openedTyped, sameTy, fits, -⟩ :=
    fills.exists_opened erases wellTyped
  exact ⟨opened, openedErases, openedTyped, sameTy, fits⟩

/-! ## What inference says about holes -/

namespace OrderedMap

variable {κ α : Type} [DecidableEq κ]

theorem get?_foldl_insert (map : OrderedMap κ α) (entries : List (κ × α)) (key : κ) :
    (entries.foldl (fun map entry => map.insert entry.1 entry.2) map).get? key =
      (find? key entries.reverse).or (map.get? key) := by
  induction entries generalizing map with
  | nil => rfl
  | cons entry entries ih =>
      rw [List.foldl_cons, ih, get?_insert]
      simp only [find?, List.reverse_cons, List.find?_append]
      by_cases same : entry.1 = key
      · cases entries.reverse.find? fun entry => entry.1 = key <;> simp [same]
      · have other : ¬ key = entry.1 := Ne.symm same
        simp [same, other]

theorem get?_ofList (entries : List (κ × α)) (key : κ) :
    (ofList entries).get? key = find? key entries.reverse := by
  rw [ofList, get?_foldl_insert, get?_empty, Option.or_none]

theorem mem_of_get?_ofList {entries : List (κ × α)} {key : κ} {value : α}
    (found : (ofList entries).get? key = some value) : (key, value) ∈ entries := by
  rw [get?_ofList, find?, Option.map_eq_some_iff] at found
  obtain ⟨entry, found, rfl⟩ := found
  have same : entry.1 = key := by simpa using List.find?_some found
  exact same ▸ List.mem_reverse.mp (List.mem_of_find?_eq_some found)

theorem isSome_get?_ofList_iff {entries : List (κ × α)} {key : κ} :
    ((ofList entries).get? key).isSome = true ↔ key ∈ entries.map Prod.fst := by
  rw [get?_ofList, find?]
  simp

end OrderedMap

namespace Inference

variable {term : Term} {inference : Inference} {name : HoleName}

theorem map_fst_holesIn (inferred : infer term = .ok inference) :
    (inference.term.holesIn .empty).map Prod.fst = term.holes := by
  rw [AnnotatedTerm.map_fst_holesIn, (isPrincipal inferred).erases]

theorem isSome_holeType?_iff (inferred : infer term = .ok inference) :
    (inference.holeType? name).isSome = true ↔ name ∈ term.holes := by
  rw [eq_ofAnnotated inferred, holeType?, ofAnnotated,
    OrderedMap.isSome_get?_ofList_iff, ← map_fst_holesIn inferred]
  simp

theorem isSome_holeContext?_iff (inferred : infer term = .ok inference) :
    (inference.holeContext? name).isSome = true ↔ name ∈ term.holes := by
  rw [eq_ofAnnotated inferred, holeContext?, ofAnnotated,
    OrderedMap.isSome_get?_ofList_iff, ← map_fst_holesIn inferred]
  simp

theorem exists_holeType_holeContext (inferred : infer term = .ok inference)
    (member : name ∈ term.holes) :
    ∃ ty context, inference.holeType? name = some ty ∧
      inference.holeContext? name = some context := by
  obtain ⟨ty, holeType⟩ := Option.isSome_iff_exists.mp
    ((isSome_holeType?_iff inferred).mpr member)
  obtain ⟨context, holeContext⟩ := Option.isSome_iff_exists.mp
    ((isSome_holeContext?_iff inferred).mpr member)
  exact ⟨ty, context, holeType, holeContext⟩

theorem mem_holes_iff (inferred : infer term = .ok inference) :
    name ∈ inference.holes ↔ name ∈ term.holes := by
  rw [← isSome_holeType?_iff inferred, holeType?, OrderedMap.isSome_get?_iff, holes]

/-- A hole that occurs once has one type and one context in each derivation. -/
theorem eq_of_mem_holesIn {derivation : AnnotatedTerm} {context : Context}
    (once : derivation.erase.holes.count name = 1) {left right : Ty × Context}
    (leftMember : (name, left) ∈ derivation.holesIn context)
    (rightMember : (name, right) ∈ derivation.holesIn context) : left = right := by
  rw [← derivation.map_fst_holesIn context] at once
  generalize derivation.holesIn context = entries at once leftMember rightMember
  induction entries with
  | nil => simp at leftMember
  | cons entry entries ih =>
      rw [List.map_cons, List.count_cons] at once
      by_cases same : entry.1 = name
      · -- The rest does not mention the hole, so both members are the first entry.
        have absent (other : Ty × Context) : (name, other) ∉ entries := by
          intro member
          have mentioned : name ∈ entries.map Prod.fst :=
            List.mem_map.mpr ⟨_, member, rfl⟩
          have positive := List.count_pos_iff.mpr mentioned
          simp only [same, beq_self_eq_true, if_true] at once
          omega
        have leftFirst := (List.mem_cons.mp leftMember).resolve_right (absent left)
        have rightFirst := (List.mem_cons.mp rightMember).resolve_right (absent right)
        exact congrArg Prod.snd (leftFirst.trans rightFirst.symm)
      · have other : ∀ data : Ty × Context, (name, data) ≠ entry := by
          rintro data rfl
          exact same rfl
        rw [if_neg (by simpa using same), Nat.add_zero] at once
        exact ih once ((List.mem_cons.mp leftMember).resolve_left (other left))
          ((List.mem_cons.mp rightMember).resolve_left (other right))

theorem mem_holesIn (inferred : infer term = .ok inference)
    (once : term.holes.count name = 1) {ty : Ty} {context : Context}
    (holeType : inference.holeType? name = some ty)
    (holeContext : inference.holeContext? name = some context) :
    (name, ty, context) ∈ inference.term.holesIn .empty := by
  rw [eq_ofAnnotated inferred] at holeType holeContext
  have typeEntry := OrderedMap.mem_of_get?_ofList holeType
  have contextEntry := OrderedMap.mem_of_get?_ofList holeContext
  simp only [List.mem_map, Prod.mk.injEq] at typeEntry contextEntry
  obtain ⟨⟨_, _, inner⟩, typeEntry, rfl, rfl⟩ := typeEntry
  obtain ⟨⟨_, outer, _⟩, contextEntry, rfl, rfl⟩ := contextEntry
  rw [← (isPrincipal inferred).erases] at once
  have same := eq_of_mem_holesIn once typeEntry contextEntry
  exact same ▸ contextEntry

/-- The type and the context of a hole say which fragments fit. -/
theorem exists_hasType_filled_iff (inferred : infer term = .ok inference)
    (once : term.holes.count name = 1) {ty : Ty} {context : Context}
    (member : (name, ty, context) ∈ inference.term.holesIn .empty)
    {fragment filled : Term} (fills : Term.Fills name fragment term filled) :
    (∃ result, filled.HasType .empty result) ↔
      ∃ assignment, fragment.HasType (context.instantiate assignment)
        (ty.instantiate assignment) := by
  obtain ⟨erases, wellTyped, general⟩ := isPrincipal inferred
  -- In each instance of the derivation the hole has the instances of its data.
  have instanceMember (assignment : Assignment) :
      (name, ty.instantiate assignment, context.instantiate assignment) ∈
        (inference.term.instantiate assignment).holesIn .empty := by
    rw [← Context.instantiate_empty assignment, AnnotatedTerm.holesIn_instantiate]
    exact List.mem_map.mpr ⟨_, member, rfl⟩
  have instanceOnce (assignment : Assignment) :
      (inference.term.instantiate assignment).erase.holes.count name = 1 := by
    rw [AnnotatedTerm.erase_instantiate, erases, once]
  constructor
  · rintro ⟨result, typed⟩
    obtain ⟨other, otherErases, otherTyped, -, holeTy, inner, otherMember, fits⟩ :=
      fills.exists_derivation typed
    obtain ⟨assignment, rfl⟩ := general other otherErases otherTyped
    have same := eq_of_mem_holesIn (instanceOnce assignment)
      (instanceMember assignment) otherMember
    obtain ⟨rfl, rfl⟩ := Prod.mk.inj same
    exact ⟨assignment, fits⟩
  · rintro ⟨assignment, fits⟩
    have instanceTyped : (inference.term.instantiate assignment).WellTyped .empty :=
      wellTyped.instantiate assignment
    have accepts : (inference.term.instantiate assignment).Accepts .empty name fragment := by
      intro holeTy inner otherMember
      have same := eq_of_mem_holesIn (instanceOnce assignment)
        (instanceMember assignment) otherMember
      obtain ⟨rfl, rfl⟩ := Prod.mk.inj same
      exact fits
    refine ⟨_, instanceTyped.hasType_filled accepts ?_⟩
    rw [AnnotatedTerm.erase_instantiate, erases]
    exact fills

end Inference

end TypedHoles
