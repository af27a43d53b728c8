import TypedHoles.EditorJson
import TypedHoles.Proofs.ReachableStates

/-!
# Saving and loading

A saved state is read back as what is kept of it, and what is kept determines the
rest: type and focus are computed again, and they are what they were, however long
ago the state computed them.
-/

namespace TypedHoles

/-! ## Reading what was written -/

@[simp]
theorem Name.ofJson?_toJson {kind : NameKind} (name : Name kind) :
    Name.ofJson? name.toJson = some name := by
  have small : (0 : Int) ≤ name.index.toNat ∧ (name.index.toNat : Int) < UInt32.size :=
    ⟨Int.natCast_nonneg _, Int.ofNat_lt.mpr name.index.toNat_lt⟩
  rw [Name.toJson, Name.ofJson?, if_pos small, Int.toNat_natCast, UInt32.ofNat_toNat]

@[simp]
theorem Json.label?_ofLabel (label : Option String) :
    Json.label? (Json.ofLabel label) = some label := by
  cases label <;> rfl

theorem Binder.ofJson?_object (name label : Json) :
    Binder.ofJson? (.object [("name", name), ("label", label)]) =
      (Name.ofJson? name).bind fun name =>
        (Json.label? label).map fun label => { name, label } := by
  simp only [Option.map_eq_bind]
  rfl

@[simp]
theorem Binder.ofJson?_toJson (binder : Binder) :
    Binder.ofJson? binder.toJson = some binder := by
  rw [Binder.toJson, Binder.ofJson?_object, Name.ofJson?_toJson, Json.label?_ofLabel]
  rfl

namespace Term

/-- A term that holds one thing is read from what is written for that thing. -/
theorem ofJson?_variant (json : Json) :
    ofJson? (.variant "Var" json) = (Name.ofJson? json).map var ∧
    ofJson? (.variant "Hole" json) = (Name.ofJson? json).map hole ∧
    ofJson? (.variant "Proj1" json) = (ofJson? json).map proj1 ∧
    ofJson? (.variant "Proj2" json) = (ofJson? json).map proj2 := by
  refine ⟨?_, ?_, ?_, ?_⟩ <;> rw [ofJson?, Option.map_eq_bind] <;> rfl

theorem ofJson?_array (first second : Json) :
    ofJson? (.variant "Abs" (.array [first, second])) =
      (Binder.ofJson? first).bind (fun binder => (ofJson? second).map (abs binder)) ∧
    ofJson? (.variant "App" (.array [first, second])) =
      (ofJson? first).bind (fun applicant => (ofJson? second).map (app applicant)) ∧
    ofJson? (.variant "Pair" (.array [first, second])) =
      (ofJson? first).bind (fun left => (ofJson? second).map (pair left)) := by
  refine ⟨?_, ?_, ?_⟩ <;> rw [ofJson?] <;> simp only [Option.map_eq_bind] <;> rfl

theorem ofJson?_toJson (term : Term) : ofJson? term.toJson = some term := by
  induction term with
  | unit =>
      rw [toJson, ofJson?]
      rfl
  | var name => simp [toJson, ofJson?_variant]
  | abs binder body ih => simp [toJson, ofJson?_array, ih]
  | app applicant argument applicantIh argumentIh =>
      simp [toJson, ofJson?_array, applicantIh, argumentIh]
  | pair first second firstIh secondIh =>
      simp [toJson, ofJson?_array, firstIh, secondIh]
  | proj1 argument ih => simp [toJson, ofJson?_variant, ih]
  | proj2 argument ih => simp [toJson, ofJson?_variant, ih]
  | hole name => simp [toJson, ofJson?_variant]

end Term

theorem EditorOptions.ofJson?_toJson (options : EditorOptions) :
    EditorOptions.ofJson? options.toJson = some options := by
  obtain ⟨check, selections⟩ := options
  cases check <;> cases selections <;> rfl

theorem Focus.hole?_object (hole : Json) (members : List (String × Json)) :
    Focus.hole? (.object (("hole", hole) :: members)) =
      (Name.ofJson? hole).map some := by
  simp [Focus.hole?, Json.isNull, Json.complete?, Json.record?, Json.fields?,
    Json.member?, Option.map_eq_bind]

theorem Snapshot.ofJson?_object (term ty focus options : Json) :
    Snapshot.ofJson?
        (.object [("term", term), ("ty", ty), ("focus", focus), ("options", options)]) =
      (Term.ofJson? term).bind fun term =>
        (Focus.hole? focus).bind fun hole =>
          (EditorOptions.ofJson? options).map fun options => { term, hole, options } := by
  simp [Snapshot.ofJson?, Json.fields?, Json.member?, Json.fieldOr, Option.map_eq_bind]

/-- What is kept of a state is read back from its saved form. -/
theorem EditorState.ofJson?_toJson (state : EditorState) :
    Snapshot.ofJson? state.toJson = some state.snapshot := by
  obtain ⟨term, ty, focus, options⟩ := state
  rw [EditorState.toJson, Snapshot.ofJson?_object, Term.ofJson?_toJson,
    EditorOptions.ofJson?_toJson]
  cases focus with
  | none => rfl
  | some focus =>
      simp only [Focus.toJson, Focus.hole?_object, Name.ofJson?_toJson]
      rfl

/-! ## Computing the rest again -/

theorem firstRepeated_eq_none {kind : NameKind} {seen names : List (Name kind)}
    (nodup : names.Nodup) (unseen : ∀ name ∈ names, name ∉ seen) :
    firstRepeated seen names = none := by
  induction names generalizing seen with
  | nil => rfl
  | cons name names ih =>
      obtain ⟨fresh, restNodup⟩ := List.nodup_cons.mp nodup
      rw [firstRepeated, if_neg (unseen name List.mem_cons_self)]
      apply ih restNodup
      intro other member
      rw [List.mem_cons, not_or]
      exact ⟨fun same => fresh (same ▸ member), unseen other (.tail _ member)⟩

namespace EditorState

namespace Consistent

variable {state : EditorState} {inference : Inference}

theorem start_eq (consistent : state.Consistent inference) :
    start state.term state.options = .ok { state with focus := none } := by
  have distinct : firstRepeated [] state.term.holes = none :=
    firstRepeated_eq_none consistent.distinct (by simp)
  simp only [start, distinct, consistent.inferred, consistent.ty_eq]

theorem unfocused (consistent : state.Consistent inference) :
    Consistent { state with focus := none } inference :=
  ⟨consistent.distinct, consistent.inferred, consistent.ty_eq,
    fun _ focused => nomatch focused⟩

theorem ofSnapshot_eq (consistent : state.Consistent inference) :
    ofSnapshot state.snapshot = .ok state := by
  rw [ofSnapshot, snapshot, consistent.start_eq]
  cases focused : state.focus with
  | none =>
      change Except.ok { state with focus := none } = _
      rw [← focused]
  | some focus =>
      obtain ⟨member, current⟩ := consistent.focused focus focused
      -- Which focus a hole gets depends on the program and the options only.
      have again : focusOn { state with focus := none } inference focus.hole = .ok focus :=
        current
      change EditorState.select { state with focus := none } focus.hole = _
      rw [consistent.unfocused.select_eq, if_pos member, again]
      change Except.ok { state with focus := some focus } = _
      rw [← focused]

end Consistent

/-- Loading what was saved of a state that the editor reaches gives the state back,
with its type and its focus. -/
theorem saved_state_loads {state : EditorState} (reachable : state.Reachable) :
    ofSnapshot state.snapshot = .ok state ∧
      (Snapshot.ofJson? state.toJson).map ofSnapshot = some (.ok state) := by
  obtain ⟨inference, consistent⟩ := reachable.consistent
  rw [ofJson?_toJson, Option.map_some, consistent.ofSnapshot_eq]
  exact ⟨rfl, rfl⟩

theorem saved_state_loads_selectedPair :
    let state := selectedPair.attempt (.relabel ⟨0⟩ (some "n"))
    state.term = .abs ⟨⟨0⟩, some "n"⟩ (.pair (.hole ⟨0⟩) (.hole ⟨1⟩)) ∧
      state.focus = selectedPair.focus ∧ ofSnapshot state.snapshot = .ok state ∧
      (Snapshot.ofJson? state.toJson).map ofSnapshot = some (.ok state) := by
  have accepted : ofSnapshot selectedPair.snapshot = .ok selectedPair := by decide
  have reachable := (Reachable.ofSnapshot accepted).attempt (.relabel ⟨0⟩ (some "n"))
  exact ⟨by decide, by decide, saved_state_loads reachable⟩

end EditorState

end TypedHoles
