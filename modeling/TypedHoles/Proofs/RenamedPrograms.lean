import TypedHoles.Proofs.Labels
import TypedHoles.Proofs.Sketches

/-!
# Inference does not look at names

Two programs that differ by the names of bound variables, by labels and by an
injective renaming of holes are treated alike.  Both annotations draw the same type
variables in the same order, so they have the same constraints, and the rest of
inference sees nothing but types.  What is known about the holes differs by their
names only.
-/

namespace TypedHoles

/-! ## Annotated terms without names -/

namespace AnnotatedTerm

/-- The shape of an annotated term with its types.  All names are forgotten. -/
def anonymous : AnnotatedTerm → AnnotatedTerm :=
  mapNames (fun _ => ⟨0⟩) (fun _ => ⟨⟨0⟩, none⟩) (fun _ => ⟨0⟩)

@[simp]
theorem anonymous_unlabeled (term : AnnotatedTerm) :
    term.unlabeled.anonymous = term.anonymous := by
  rw [unlabeled_eq_mapNames]
  induction term with
  | unit | var | hole => rfl
  | abs binder domain body ih => exact congrArg (abs _ domain) ih
  | app applicant argument ty applicantIh argumentIh =>
      exact congrArg₂ (app · · ty) applicantIh argumentIh
  | pair first second ty firstIh secondIh =>
      exact congrArg₂ (pair · · ty) firstIh secondIh
  | proj1 argument ty second ih => exact congrArg (proj1 · ty second) ih
  | proj2 argument ty first ih => exact congrArg (proj2 · ty first) ih

variable {first second : AnnotatedTerm}

theorem ty_of_anonymous_eq (same : first.anonymous = second.anonymous) :
    first.ty = second.ty := by
  rw [← ty_mapNames _ _ _ first, ← ty_mapNames _ _ _ second]
  exact congrArg ty same

theorem constraints_of_anonymous_eq (same : first.anonymous = second.anonymous) :
    first.constraints = second.constraints := by
  rw [← constraints_mapNames _ _ _ first, ← constraints_mapNames _ _ _ second]
  exact congrArg constraints same

theorem applySubstitution_of_anonymous_eq (same : first.anonymous = second.anonymous)
    (substitution : Substitution) :
    (first.applySubstitution substitution).anonymous =
      (second.applySubstitution substitution).anonymous := by
  simp only [anonymous, ← applySubstitution_mapNames] at same ⊢
  rw [same]

theorem canonical_of_anonymous_eq (same : first.anonymous = second.anonymous) :
    (first.canonical.map fun (normal, numbering) => (normal.anonymous, numbering)) =
      second.canonical.map fun (normal, numbering) => (normal.anonymous, numbering) := by
  simp only [anonymous, ← canonical_mapNames] at same ⊢
  rw [same]

end AnnotatedTerm

/-- The types of all bindings, the innermost first. -/
def Context.types (context : Context) : List Ty :=
  context.entries.map Prod.snd

/-- What a listed hole says about its place apart from names. -/
def typesAtHole (entry : HoleName × Ty × Context) : Ty × List Ty :=
  (entry.2.1, entry.2.2.types)

theorem AnnotatedTerm.holesIn_anonymous (term : AnnotatedTerm) {context other : Context}
    (same : other.types = context.types) :
    (term.anonymous.holesIn other).map typesAtHole =
      (term.holesIn context).map typesAtHole := by
  induction term generalizing context other with
  | unit | var => rfl
  | hole name ty => simp [anonymous, mapNames, holesIn, typesAtHole, same]
  | abs binder domain body ih => exact ih (congrArg (domain :: ·) same)
  | app applicant argument ty applicantIh argumentIh =>
      simp only [anonymous, mapNames, holesIn, List.map_append] at *
      rw [applicantIh same, argumentIh same]
  | pair first second ty firstIh secondIh =>
      simp only [anonymous, mapNames, holesIn, List.map_append] at *
      rw [firstIh same, secondIh same]
  | proj1 argument ty second ih => exact ih same
  | proj2 argument ty first ih => exact ih same

/-! ## Annotating renamed programs -/

/-- Two contexts below corresponding binders, which have the same types. -/
inductive Scope.Types : Scope → Context → Context → Prop
  | nil : Types [] .empty .empty
  | cons {scope : Scope} {first second : Context} (outer : Types scope first second)
      (left right : VarName) (ty : Ty) :
      Types ((left, right) :: scope) (first.extend left ty) (second.extend right ty)

namespace Annotate

/-- Related variables have the same type, and if they are not bound, they have the
same name. -/
theorem lookup_of_relates {scope : Scope} {first second : Context}
    (types : scope.Types first second) {left right : VarName}
    (relates : scope.Relates left right) : lookup first left = lookup second right := by
  induction types with
  | nil => rw [show left = right from relates]
  | cons outer boundLeft boundRight ty ih =>
      rcases relates with ⟨rfl, rfl⟩ | ⟨leftDiffers, rightDiffers, relates⟩
      · simp [lookup, Context.lookup, Context.extend, ShadowList.get?_push]
      · simpa [lookup, Context.lookup, Context.extend, ShadowList.get?_push, leftDiffers,
          rightDiffers] using ih relates

/-- Annotate a term and forget the names. -/
def shape (context : Context) (term : Term) : Annotate AnnotatedTerm :=
  AnnotatedTerm.anonymous <$> annotate context term

section Shape

variable (context : Context)

theorem shape_var (name : VarName) :
    shape context (.var name) = AnnotatedTerm.var ⟨0⟩ <$> lookup context name := by
  simp [shape, annotate, AnnotatedTerm.anonymous, AnnotatedTerm.mapNames]

theorem shape_hole (name : HoleName) :
    shape context (.hole name) = AnnotatedTerm.hole ⟨0⟩ <$> freshType := by
  simp [shape, annotate, AnnotatedTerm.anonymous, AnnotatedTerm.mapNames]

theorem shape_abs (binder : Binder) (body : Term) :
    shape context (.abs binder body) = (do
      let domain ← freshType
      AnnotatedTerm.abs ⟨⟨0⟩, none⟩ domain <$>
        shape (context.extend binder.name domain) body) := by
  simp [shape, annotate, AnnotatedTerm.anonymous, AnnotatedTerm.mapNames]

theorem shape_app (applicant argument : Term) :
    shape context (.app applicant argument) = (do
      let applicant ← shape context applicant
      let argument ← shape context argument
      AnnotatedTerm.app applicant argument <$> freshType) := by
  simp [shape, annotate, AnnotatedTerm.anonymous, AnnotatedTerm.mapNames]

theorem shape_pair (first second : Term) :
    shape context (.pair first second) = (do
      let first ← shape context first
      let second ← shape context second
      AnnotatedTerm.pair first second <$> freshType) := by
  simp [shape, annotate, AnnotatedTerm.anonymous, AnnotatedTerm.mapNames]

theorem shape_proj1 (argument : Term) :
    shape context (.proj1 argument) = (do
      let argument ← shape context argument
      let ty ← freshType
      AnnotatedTerm.proj1 argument ty <$> freshType) := by
  simp [shape, annotate, AnnotatedTerm.anonymous, AnnotatedTerm.mapNames]

theorem shape_proj2 (argument : Term) :
    shape context (.proj2 argument) = (do
      let argument ← shape context argument
      let ty ← freshType
      AnnotatedTerm.proj2 argument ty <$> freshType) := by
  simp [shape, annotate, AnnotatedTerm.anonymous, AnnotatedTerm.mapNames]

theorem shape_unlabeled (term : Term) :
    shape context term.unlabeled = shape context term := by
  simp [shape, annotate_unlabeled]

end Shape

end Annotate

namespace Term

/-- Whether a part of a program is a part of another one with other names for its bound
variables and with the holes renamed, below the binders of `scope`. -/
abbrev RenamesBelow (scope : Scope) (rename : HoleName → HoleName)
    (first second : Term) : Prop :=
  Matches (fun _ part name => ∃ old, part = .hole old ∧ name = rename old) scope first
    second

namespace RenamesBelow

variable {scope : Scope} {rename : HoleName → HoleName} {first second : Term}

theorem holes_eq (renames : RenamesBelow scope rename first second) :
    second.holes = first.holes.map rename := by
  induction renames with
  | hole isHole =>
      obtain ⟨old, rfl, rfl⟩ := isHole
      rfl
  | unit | var => rfl
  | abs _ ih => simpa using ih
  | app _ _ leftIh rightIh => simp [leftIh, rightIh]
  | pair _ _ leftIh rightIh => simp [leftIh, rightIh]
  | proj1 _ ih => simpa using ih
  | proj2 _ ih => simpa using ih

/-- Renamed programs are annotated with the same types. -/
theorem shape_eq (renames : RenamesBelow scope rename first second)
    {outer inner : Context} (types : scope.Types outer inner) :
    Annotate.shape outer first = Annotate.shape inner second := by
  induction renames generalizing outer inner with
  | hole isHole =>
      obtain ⟨old, rfl, -⟩ := isHole
      rw [Annotate.shape_hole, Annotate.shape_hole]
  | unit => rfl
  | var relates =>
      rw [Annotate.shape_var, Annotate.shape_var,
        Annotate.lookup_of_relates types relates]
  | abs _ ih =>
      rw [Annotate.shape_abs, Annotate.shape_abs]
      refine bind_congr fun domain => ?_
      rw [ih (types.cons _ _ domain)]
  | app _ _ leftIh rightIh =>
      rw [Annotate.shape_app, Annotate.shape_app, leftIh types, rightIh types]
  | pair _ _ leftIh rightIh =>
      rw [Annotate.shape_pair, Annotate.shape_pair, leftIh types, rightIh types]
  | proj1 _ ih => rw [Annotate.shape_proj1, Annotate.shape_proj1, ih types]
  | proj2 _ ih => rw [Annotate.shape_proj2, Annotate.shape_proj2, ih types]

end RenamesBelow

/-- Whether two programs are equal up to the names of bound variables, labels, and a
renaming of the holes of the first one. -/
def Alike (rename : HoleName → HoleName) (first second : Term) : Prop :=
  Renames rename first.unlabeled second.unlabeled

variable {rename : HoleName → HoleName} {first second : Term}

theorem Alike.holes_eq (alike : Alike rename first second) :
    second.holes = first.holes.map rename := by
  have renamed := RenamesBelow.holes_eq alike
  rwa [holes_unlabeled, holes_unlabeled] at renamed

theorem Alike.shape_eq (alike : Alike rename first second) :
    Annotate.shape .empty first = Annotate.shape .empty second := by
  have renamed := RenamesBelow.shape_eq alike .nil
  rwa [Annotate.shape_unlabeled, Annotate.shape_unlabeled] at renamed

end Term

/-! ## Maps with renamed keys -/

namespace OrderedMap

variable {κ κ' α β : Type} [DecidableEq κ] [DecidableEq κ'] {rename : κ → κ'}
  {convert : α → β}

theorem put_map {key : κ} {value : α} {stored : List (κ × α)}
    (distinguished : ∀ other ∈ stored.map Prod.fst, rename other = rename key →
      other = key) :
    put (rename key) (convert value) (stored.map (Prod.map rename convert)) =
      (put key value stored).map (Prod.map rename convert) := by
  induction stored with
  | nil => rfl
  | cons entry stored ih =>
      rw [List.map_cons, List.forall_mem_cons] at distinguished
      by_cases same : entry.1 = key
      · simp [put, same]
      · have differs : rename entry.1 ≠ rename key := fun equal =>
          same (distinguished.1 equal)
        simp only [List.map_cons, put, Prod.map_fst, differs, same, if_false,
          ih distinguished.2]

theorem foldl_put_map {entries stored : List (κ × α)} {keys : Set κ}
    (injective : Set.InjOn rename keys)
    (new : ∀ key ∈ entries.map Prod.fst, key ∈ keys)
    (old : ∀ key ∈ stored.map Prod.fst, key ∈ keys) :
    (entries.map (Prod.map rename convert)).foldl
        (fun stored entry => put entry.1 entry.2 stored)
        (stored.map (Prod.map rename convert)) =
      (entries.foldl (fun stored entry => put entry.1 entry.2 stored) stored).map
        (Prod.map rename convert) := by
  induction entries generalizing stored with
  | nil => rfl
  | cons entry entries ih =>
      rw [List.map_cons, List.forall_mem_cons] at new
      have distinguished : ∀ other ∈ stored.map Prod.fst,
          rename other = rename entry.1 → other = entry.1 := fun other member =>
        injective (old other member) new.1
      have oldAfter : ∀ key ∈ (put entry.1 entry.2 stored).map Prod.fst, key ∈ keys := by
        intro key member
        rcases mem_keys_put.mp member with rfl | stored
        · exact new.1
        · exact old key stored
      rw [List.map_cons, List.foldl_cons, List.foldl_cons, Prod.map_fst, Prod.map_snd,
        put_map distinguished, ih new.2 oldAfter]

theorem entries_foldl_insert (map : OrderedMap κ α) (entries : List (κ × α)) :
    (entries.foldl (fun map entry => map.insert entry.1 entry.2) map).entries =
      entries.foldl (fun stored entry => put entry.1 entry.2 stored) map.entries := by
  induction entries generalizing map with
  | nil => rfl
  | cons entry entries ih => exact ih _

/-- An injective renaming of the keys renames them in the map made of the entries. -/
theorem entries_ofList_map {entries : List (κ × α)}
    (injective : Set.InjOn rename {key | key ∈ entries.map Prod.fst}) :
    (ofList (entries.map (Prod.map rename convert))).entries =
      (ofList entries).entries.map (Prod.map rename convert) := by
  have noneStored : ∀ key ∈ (empty : OrderedMap κ α).entries.map Prod.fst,
      key ∈ {key | key ∈ entries.map Prod.fst} := by simp [empty]
  rw [ofList, ofList, entries_foldl_insert, entries_foldl_insert]
  exact foldl_put_map injective (fun _ member => member) noneStored

end OrderedMap

/-! ## Inference -/

theorem Term.annotated_of_shape_eq {first second : Term}
    (same : Annotate.shape .empty first = Annotate.shape .empty second) :
    (∃ failure rest, first.annotated = .error failure rest ∧
      second.annotated = .error failure rest) ∨
    ∃ left right rest, first.annotated = .ok left rest ∧
      second.annotated = .ok right rest ∧ left.anonymous = right.anonymous := by
  have runs := congrArg (fun computation => EStateM.run computation .full) same
  simp only [Annotate.shape, map_eq_pure_bind, EStateM.run_bind] at runs
  rw [annotated, annotated]
  cases firstRun : (Annotate.annotate .empty first).run .full <;>
    cases secondRun : (Annotate.annotate .empty second).run .full <;>
    simp_all

/-- Inference gives the same types at all nodes, or fails for the same reason, if the
terms are annotated with the same types. -/
theorem infer_of_shape_eq {first second : Term}
    (same : Annotate.shape .empty first = Annotate.shape .empty second) :
    (infer first).map (fun inference => inference.term.anonymous) =
      (infer second).map fun inference => inference.term.anonymous := by
  rw [infer, infer]
  rcases Term.annotated_of_shape_eq same with
    ⟨failure, rest, firstFails, secondFails⟩ |
    ⟨left, right, rest, firstRun, secondRun, sameShape⟩
  · rw [firstFails, secondFails]
  · simp only [firstRun, secondRun, AnnotatedTerm.constraints_of_anonymous_eq sameShape]
    cases (Unify.solve right.constraints).run .empty with
    | error clash after => rfl
    | ok _ substitution =>
        have canonical := AnnotatedTerm.canonical_of_anonymous_eq
          (AnnotatedTerm.applySubstitution_of_anonymous_eq sameShape substitution)
        cases leftNormal : (left.applySubstitution substitution).canonical <;>
          cases rightNormal : (right.applySubstitution substitution).canonical <;>
          simp_all [Except.map, Inference.ofAnnotated]

/-- Whether two inferences have the same types at corresponding nodes and list
corresponding holes in the same order, with the same types of holes and of the variables
in scope. -/
structure Inference.Corresponds (rename : HoleName → HoleName)
    (first second : Inference) : Prop where
  nodes : first.term.anonymous = second.term.anonymous
  ty : first.ty = second.ty
  holeTypes : second.holeTypes.entries =
    first.holeTypes.entries.map fun (hole, ty) => (rename hole, ty)
  holeContexts :
    (second.holeContexts.entries.map fun (hole, context) => (hole, context.types)) =
      first.holeContexts.entries.map fun (hole, context) =>
        (rename hole, context.types)

namespace Inference

variable {rename : HoleName → HoleName} {first second : Term}
  {firstInference secondInference : Inference}

/-- The holes of two programs are listed alike. -/
theorem holesIn_of_alike (alike : first.Alike rename second)
    (firstInferred : infer first = .ok firstInference)
    (secondInferred : infer second = .ok secondInference)
    (same : firstInference.term.anonymous = secondInference.term.anonymous) :
    ((secondInference.term.holesIn .empty).map fun entry => (entry.1, typesAtHole entry)) =
      (firstInference.term.holesIn .empty).map fun entry =>
        (rename entry.1, typesAtHole entry) := by
  have names : (secondInference.term.holesIn .empty).map Prod.fst =
      (firstInference.term.holesIn .empty).map fun entry => rename entry.1 := by
    rw [map_fst_holesIn secondInferred, alike.holes_eq, ← map_fst_holesIn firstInferred,
      List.map_map]
    rfl
  have types : (secondInference.term.holesIn .empty).map typesAtHole =
      (firstInference.term.holesIn .empty).map typesAtHole := by
    have outermost : Context.types .empty = Context.types .empty := rfl
    rw [← AnnotatedTerm.holesIn_anonymous _ outermost, ← same,
      AnnotatedTerm.holesIn_anonymous _ outermost]
  calc ((secondInference.term.holesIn .empty).map fun entry => (entry.1, typesAtHole entry))
      = ((secondInference.term.holesIn .empty).map Prod.fst).zip
          ((secondInference.term.holesIn .empty).map typesAtHole) := List.zip_map'.symm
    _ = ((firstInference.term.holesIn .empty).map fun entry => rename entry.1).zip
          ((firstInference.term.holesIn .empty).map typesAtHole) := by rw [names, types]
    _ = (firstInference.term.holesIn .empty).map fun entry =>
          (rename entry.1, typesAtHole entry) := List.zip_map'

theorem corresponds_of_alike (alike : first.Alike rename second)
    (injective : Set.InjOn rename {hole | hole ∈ first.holes})
    (firstInferred : infer first = .ok firstInference)
    (secondInferred : infer second = .ok secondInference)
    (same : firstInference.term.anonymous = secondInference.term.anonymous) :
    firstInference.Corresponds rename secondInference := by
  have listed := holesIn_of_alike alike firstInferred secondInferred same
  rw [← map_fst_holesIn firstInferred] at injective
  rw [eq_ofAnnotated firstInferred, eq_ofAnnotated secondInferred]
  refine ⟨same, AnnotatedTerm.ty_of_anonymous_eq same, ?_, ?_⟩
  · have types : ((secondInference.term.holesIn .empty).map fun entry =>
        (entry.1, entry.2.1)) =
        ((firstInference.term.holesIn .empty).map fun entry => (entry.1, entry.2.1)).map
          (Prod.map rename id) := by
      simpa [Function.comp_def, typesAtHole] using
        congrArg (List.map fun entry => (entry.1, entry.2.1)) listed
    have entries := congrArg (fun entries => (OrderedMap.ofList entries).entries) types
    rw [OrderedMap.entries_ofList_map (by simpa [Function.comp_def] using injective)]
      at entries
    exact entries
  · have contexts : ((secondInference.term.holesIn .empty).map fun entry =>
        (entry.1, entry.2.2)).map (Prod.map id Context.types) =
        ((firstInference.term.holesIn .empty).map fun entry => (entry.1, entry.2.2)).map
          (Prod.map rename Context.types) := by
      simpa [Function.comp_def, typesAtHole] using
        congrArg (List.map fun entry => (entry.1, entry.2.2)) listed
    have entries := congrArg (fun entries => (OrderedMap.ofList entries).entries) contexts
    rw [OrderedMap.entries_ofList_map Function.injective_id.injOn,
      OrderedMap.entries_ofList_map (by simpa [Function.comp_def] using injective)]
      at entries
    exact entries

end Inference

/-- Inference treats two programs alike that are equal up to the names of bound
variables, labels and an injective renaming of holes.  It succeeds on both or on
none.  If it fails, it reports the same error, with the same types or the same unbound
variable.  If it succeeds, the types are the same node by node, and what it finds out
about the holes differs by their names only. -/
theorem infer_of_alike {rename : HoleName → HoleName} {first second : Term}
    (alike : first.Alike rename second)
    (injective : Set.InjOn rename {hole | hole ∈ first.holes}) :
    ((∃ inference, infer first = .ok inference) ↔
      ∃ inference, infer second = .ok inference) ∧
    (∀ failure, infer first = .error failure ↔ infer second = .error failure) ∧
    ∀ firstInference secondInference, infer first = .ok firstInference →
      infer second = .ok secondInference →
        firstInference.Corresponds rename secondInference := by
  have same := infer_of_shape_eq alike.shape_eq
  cases firstResult : infer first with
  | error failure =>
      cases secondResult : infer second with
      | error other =>
          obtain rfl : failure = other := by
            simpa [firstResult, secondResult, Except.map] using same
          simp
      | ok inference => simp [firstResult, secondResult, Except.map] at same
  | ok firstInference =>
      cases secondResult : infer second with
      | error failure => simp [firstResult, secondResult, Except.map] at same
      | ok secondInference =>
          have sameNodes : firstInference.term.anonymous =
              secondInference.term.anonymous := by
            simpa [firstResult, secondResult, Except.map] using same
          refine ⟨by simp, by simp, ?_⟩
          rintro _ _ ⟨⟩ ⟨⟩
          exact Inference.corresponds_of_alike alike injective firstResult secondResult
            sameNodes

/-- A program in which a binder hides the one around it, with two holes.  What is
applied to the inner variable is a parameter. -/
def appliedToHidden (outer inner : Binder) (applicant : Term) (last : HoleName) : Term :=
  .abs outer (.abs inner (.pair (.app applicant (.var inner.name)) (.hole last)))

theorem infer_of_alike_appliedToHidden :
    let rename (hole : HoleName) : HoleName := ⟨7 - hole.index⟩
    let hidden (applicant : Term) :=
      appliedToHidden ⟨⟨0⟩, some "n"⟩ ⟨⟨0⟩, none⟩ applicant ⟨7⟩
    let distinct (applicant : Term) :=
      appliedToHidden ⟨⟨3⟩, none⟩ ⟨⟨1⟩, some "m"⟩ applicant ⟨0⟩
    (∃ first second, infer (hidden (.hole ⟨5⟩)) = .ok first ∧
      infer (distinct (.hole ⟨2⟩)) = .ok second ∧ first.Corresponds rename second ∧
      second.holes = [⟨2⟩, ⟨0⟩]) ∧
    infer (hidden (.var ⟨0⟩)) =
      .error (.illTyped (.clash (.circularity ⟨1⟩ (.arrow (.var ⟨1⟩) (.var ⟨2⟩))))) ∧
    infer (distinct (.var ⟨1⟩)) =
      .error (.illTyped (.clash (.circularity ⟨1⟩ (.arrow (.var ⟨1⟩) (.var ⟨2⟩))))) := by
  intro rename hidden distinct
  have alikeHole : (hidden (.hole ⟨5⟩)).Alike rename (distinct (.hole ⟨2⟩)) :=
    .abs (.abs (.pair (.app (.hole ⟨_, rfl, rfl⟩) (.var (.inl ⟨rfl, rfl⟩)))
      (.hole ⟨_, rfl, rfl⟩)))
  have alikeVar : (hidden (.var ⟨0⟩)).Alike rename (distinct (.var ⟨1⟩)) :=
    .abs (.abs (.pair (.app (.var (.inl ⟨rfl, rfl⟩)) (.var (.inl ⟨rfl, rfl⟩)))
      (.hole ⟨_, rfl, rfl⟩)))
  obtain ⟨-, -, corresponds⟩ := infer_of_alike alikeHole (by
    rintro left (_ | ⟨_, _ | ⟨_, ⟨⟩⟩⟩) right (_ | ⟨_, _ | ⟨_, ⟨⟩⟩⟩) <;> decide)
  obtain ⟨-, fails, -⟩ := infer_of_alike alikeVar (by
    rintro left (_ | ⟨_, ⟨⟩⟩) right (_ | ⟨_, ⟨⟩⟩)
    decide)
  refine ⟨⟨_, _, rfl, rfl, corresponds _ _ rfl rfl, by decide⟩, ?_⟩
  have failure : infer (hidden (.var ⟨0⟩)) =
      .error (.illTyped (.clash (.circularity ⟨1⟩ (.arrow (.var ⟨1⟩) (.var ⟨2⟩))))) := by
    decide
  exact ⟨failure, (fails _).mp failure⟩

end TypedHoles
