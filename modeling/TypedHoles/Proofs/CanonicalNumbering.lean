import Mathlib.Data.Finset.Card
import Mathlib.Data.Finset.Range
import TypedHoles.Proofs.Typing

/-!
# Canonical numbering as a renaming

Numbering reads names in some order.  It fails exactly if it has seen too many
different names, and otherwise renames every name to its position among the
names seen in the end.  On those names the renaming has an inverse.
-/

namespace TypedHoles

theorem Name.index_injective {kind : NameKind} :
    Function.Injective fun name : Name kind => name.index.toNat :=
  fun _ _ equal => Name.ext (UInt32.toNat_inj.mp equal)

namespace Numbering

variable {kind : NameKind}

/-- The numbering after it has read further names. -/
def see (numbering : Numbering kind) (names : List (Name kind)) : Numbering kind :=
  ⟨names.foldl
    (fun seen name => if seen.contains name then seen else seen ++ [name])
    numbering.seen⟩

/-- The canonical name of a name that has been seen. -/
def rename (numbering : Numbering kind) (name : Name kind) : Name kind :=
  ⟨.ofNat (numbering.seen.idxOf name)⟩

/-- Whether the positions of all names seen so far can be names. -/
def Fits (numbering : Numbering kind) : Prop :=
  numbering.seen.length < UInt32.size

instance (numbering : Numbering kind) : Decidable numbering.Fits :=
  inferInstanceAs (Decidable (numbering.seen.length < UInt32.size))

theorem fits_empty : (empty : Numbering kind).Fits := by
  cases kind <;> decide

@[simp]
theorem see_nil (numbering : Numbering kind) : numbering.see [] = numbering :=
  rfl

theorem see_append (numbering : Numbering kind) (first second : List (Name kind)) :
    numbering.see (first ++ second) = (numbering.see first).see second := by
  simp [see, List.foldl_append]

theorem see_singleton_of_mem {numbering : Numbering kind} {name : Name kind}
    (member : name ∈ numbering.seen) : numbering.see [name] = numbering := by
  simp [see, member]

theorem see_singleton_of_not_mem {numbering : Numbering kind} {name : Name kind}
    (absent : name ∉ numbering.seen) :
    (numbering.see [name]).seen = numbering.seen ++ [name] := by
  simp [see, absent]

theorem see_cons (numbering : Numbering kind) (name : Name kind)
    (names : List (Name kind)) :
    numbering.see (name :: names) = (numbering.see [name]).see names :=
  see_append numbering [name] names

theorem prefix_see (numbering : Numbering kind) (names : List (Name kind)) :
    numbering.seen <+: (numbering.see names).seen := by
  induction names generalizing numbering with
  | nil => exact List.prefix_refl _
  | cons name names ih =>
      rw [see_cons]
      refine List.IsPrefix.trans ?_ (ih (numbering.see [name]))
      by_cases member : name ∈ numbering.seen
      · rw [see_singleton_of_mem member]
      · rw [see_singleton_of_not_mem member]
        exact List.prefix_append _ _

theorem mem_see {numbering : Numbering kind} {names : List (Name kind)}
    {name : Name kind} :
    name ∈ (numbering.see names).seen ↔ name ∈ numbering.seen ∨ name ∈ names := by
  induction names generalizing numbering with
  | nil => simp
  | cons other names ih =>
      rw [see_cons, ih]
      by_cases member : other ∈ numbering.seen
      · rw [see_singleton_of_mem member]
        grind
      · rw [see_singleton_of_not_mem member]
        grind

theorem nodup_see {numbering : Numbering kind} (nodup : numbering.seen.Nodup)
    (names : List (Name kind)) : (numbering.see names).seen.Nodup := by
  induction names generalizing numbering with
  | nil => exact nodup
  | cons name names ih =>
      rw [see_cons]
      apply ih
      by_cases member : name ∈ numbering.seen
      · rw [see_singleton_of_mem member]
        exact nodup
      · rw [see_singleton_of_not_mem member, List.nodup_append]
        refine ⟨nodup, List.nodup_singleton name, ?_⟩
        grind

theorem Fits.of_see {numbering : Numbering kind} {names : List (Name kind)}
    (fits : (numbering.see names).Fits) : numbering.Fits :=
  Nat.lt_of_le_of_lt (numbering.prefix_see names).length_le fits

theorem rename_see {numbering : Numbering kind} {name : Name kind}
    (member : name ∈ numbering.seen) (names : List (Name kind)) :
    (numbering.see names).rename name = numbering.rename name := by
  obtain ⟨rest, seen⟩ := numbering.prefix_see names
  rw [rename, rename, ← seen, List.idxOf_append, if_pos member]

theorem index_rename {numbering : Numbering kind} (fits : numbering.Fits)
    {name : Name kind} (member : name ∈ numbering.seen) :
    (numbering.rename name).index.toNat = numbering.seen.idxOf name := by
  have position := List.idxOf_lt_length_of_mem member
  rw [rename, UInt32.toNat_ofNat']
  exact Nat.mod_eq_of_lt (Nat.lt_trans position fits)

/-- The name that a canonical name stands for. -/
def origin (numbering : Numbering kind) (name : Name kind) : Name kind :=
  (numbering.seen[name.index.toNat]?).getD name

theorem origin_rename {numbering : Numbering kind} (fits : numbering.Fits)
    {name : Name kind} (member : name ∈ numbering.seen) :
    numbering.origin (numbering.rename name) = name := by
  have position := List.idxOf_lt_length_of_mem member
  rw [origin, index_rename fits member, List.getElem?_eq_getElem position,
    List.getElem_idxOf position, Option.getD_some]

/-- A numbering that has only seen names below a bound fits if the bound does. -/
theorem length_seen_le {numbering : Numbering kind} {bound : Nat}
    (nodup : numbering.seen.Nodup)
    (below : ∀ name ∈ numbering.seen, name.index.toNat < bound) :
    numbering.seen.length ≤ bound := by
  have indices := nodup.map Name.index_injective
  have within : (numbering.seen.map fun name => name.index.toNat).toFinset ⊆
      Finset.range bound := by
    intro index member
    obtain ⟨name, seen, rfl⟩ := List.mem_map.mp (List.mem_toFinset.mp member)
    exact Finset.mem_range.mpr (below name seen)
  have cards := Finset.card_le_card within
  rwa [List.toFinset_card_of_nodup indices, List.length_map, Finset.card_range] at cards

/-- Whether `computation` reads `names`, and gives what `value` makes of the
renaming. -/
structure Reads {α : Type}
    (computation : StateT (Numbering kind) (Except Exhausted) α)
    (names : List (Name kind)) (value : (Name kind → Name kind) → α) : Prop where
  run : ∀ numbering : Numbering kind, numbering.Fits →
    computation.run numbering =
      if (numbering.see names).Fits then
        .ok (value (numbering.see names).rename, numbering.see names)
      else
        .error .exhausted
  value_congr : ∀ left right : Name kind → Name kind,
    (∀ name ∈ names, left name = right name) → value left = value right

section Reads

variable {α β : Type} {computation : StateT (Numbering kind) (Except Exhausted) α}
  {names : List (Name kind)} {value : (Name kind → Name kind) → α}

theorem reads_pure (result : α) :
    Reads (pure result : StateT (Numbering kind) (Except Exhausted) α) []
      fun _ => result where
  run numbering fits := by
    rw [see_nil, if_pos fits]
    rfl
  value_congr _ _ _ := rfl

theorem reads_number (name : Name kind) :
    Reads (number name) [name] fun rename => rename name where
  run numbering fits := by
    change number name numbering = _
    have position := List.idxOf_eq_getD_idxOf? name numbering.seen
    cases found : numbering.seen.idxOf? name with
    | some index =>
        have member : name ∈ numbering.seen :=
          List.isSome_idxOf?.mp (by rw [found]; rfl)
        rw [found, Option.getD_some] at position
        rw [see_singleton_of_mem member, if_pos fits]
        simp only [number, found, rename, position]
    | none =>
        have absent : name ∉ numbering.seen := List.idxOf?_eq_none_iff.mp found
        have seen := see_singleton_of_not_mem absent
        have after : numbering.see [name] = ⟨numbering.seen ++ [name]⟩ :=
          congrArg Numbering.mk seen
        have last : (numbering.see [name]).rename name =
            ⟨.ofNat numbering.seen.length⟩ := by
          rw [rename, seen, List.idxOf_append, if_neg absent]
          simp
        simp only [number, found, Fits, last]
        rw [after, List.length_append, List.length_singleton]
  value_congr _ _ agree := agree name (by simp)

theorem Reads.bind {rest : α → StateT (Numbering kind) (Except Exhausted) β}
    {restNames : List (Name kind)} {restValue : α → (Name kind → Name kind) → β}
    (first : Reads computation names value)
    (second : ∀ result, Reads (rest result) restNames (restValue result)) :
    Reads (computation >>= rest) (names ++ restNames)
      fun rename => restValue (value rename) rename where
  run numbering fits := by
    rw [StateT.run_bind, first.run numbering fits, see_append]
    by_cases firstFits : (numbering.see names).Fits
    · -- Names that are read later do not change what became of the earlier ones.
      have stable : value (numbering.see names).rename =
          value ((numbering.see names).see restNames).rename := by
        apply first.value_congr
        intro name member
        exact (rename_see (mem_see.mpr (.inr member)) restNames).symm
      rw [if_pos firstFits]
      change (rest (value (numbering.see names).rename)).run (numbering.see names) = _
      rw [(second _).run _ firstFits, stable]
    · have tooMany : ¬ ((numbering.see names).see restNames).Fits :=
        fun fits => firstFits fits.of_see
      rw [if_neg firstFits, if_neg tooMany]
      rfl
  value_congr left right agree := by
    have sameValue := first.value_congr left right fun name member =>
      agree name (by simp [member])
    rw [sameValue]
    exact (second _).value_congr left right fun name member =>
      agree name (by simp [member])

theorem Reads.map (first : Reads computation names value) (make : α → β) :
    Reads (do return make (← computation)) names
      fun rename => make (value rename) := by
  have both := first.bind fun result => reads_pure (make result)
  rwa [List.append_nil] at both

end Reads

end Numbering

/-! ## Types and annotated terms -/

/-- The occurrences of type variables in the types of an annotated term. -/
def AnnotatedTerm.occurrences (term : AnnotatedTerm) : List TypeVar :=
  term.types.flatMap Ty.occurrences

section Occurrences

open AnnotatedTerm

@[simp]
theorem AnnotatedTerm.occurrences_var (name : VarName) (ty : Ty) :
    (var name ty).occurrences = ty.occurrences := by
  simp [occurrences, types]

@[simp]
theorem AnnotatedTerm.occurrences_abs (binder : Binder) (domain : Ty)
    (body : AnnotatedTerm) :
    (abs binder domain body).occurrences =
      domain.occurrences ++ body.occurrences :=
  rfl

@[simp]
theorem AnnotatedTerm.occurrences_app (applicant argument : AnnotatedTerm) (ty : Ty) :
    (app applicant argument ty).occurrences =
      ty.occurrences ++ (applicant.occurrences ++ argument.occurrences) := by
  simp [occurrences, types]

@[simp]
theorem AnnotatedTerm.occurrences_pair (first second : AnnotatedTerm) (ty : Ty) :
    (pair first second ty).occurrences =
      ty.occurrences ++ (first.occurrences ++ second.occurrences) := by
  simp [occurrences, types]

@[simp]
theorem AnnotatedTerm.occurrences_proj1 (argument : AnnotatedTerm) (ty second : Ty) :
    (proj1 argument ty second).occurrences =
      ty.occurrences ++ (second.occurrences ++ argument.occurrences) :=
  rfl

@[simp]
theorem AnnotatedTerm.occurrences_proj2 (argument : AnnotatedTerm) (ty first : Ty) :
    (proj2 argument ty first).occurrences =
      ty.occurrences ++ (first.occurrences ++ argument.occurrences) :=
  rfl

@[simp]
theorem AnnotatedTerm.occurrences_hole (name : HoleName) (ty : Ty) :
    (hole name ty).occurrences = ty.occurrences := by
  simp [occurrences, types]

end Occurrences

theorem Ty.reads_number (ty : Ty) :
    Numbering.Reads ty.number ty.occurrences fun rename =>
      ty.instantiate fun name => .var (rename name) := by
  induction ty with
  | unit => exact Numbering.reads_pure unit
  | var name => exact (Numbering.reads_number name).map var
  | arrow domain codomain domainIh codomainIh =>
      exact domainIh.bind fun domain => codomainIh.map (arrow domain)
  | product first second firstIh secondIh =>
      exact firstIh.bind fun first => secondIh.map (product first)

theorem AnnotatedTerm.reads_number (term : AnnotatedTerm) :
    Numbering.Reads (term.traverseTypes Ty.number) term.occurrences fun rename =>
      term.instantiate fun name => .var (rename name) := by
  induction term with
  | unit => exact Numbering.reads_pure unit
  | var name ty =>
      rw [occurrences_var]
      exact ty.reads_number.map (var name)
  | hole name ty =>
      rw [occurrences_hole]
      exact ty.reads_number.map (hole name)
  | abs binder domain body ih =>
      exact domain.reads_number.bind fun domain => ih.map (abs binder domain)
  | app applicant argument ty applicantIh argumentIh =>
      rw [occurrences_app]
      exact ty.reads_number.bind fun ty => applicantIh.bind fun applicant =>
        argumentIh.map (app applicant · ty)
  | pair first second ty firstIh secondIh =>
      rw [occurrences_pair]
      exact ty.reads_number.bind fun ty => firstIh.bind fun first =>
        secondIh.map (pair first · ty)
  | proj1 argument ty second ih =>
      exact ty.reads_number.bind fun ty => second.reads_number.bind fun second =>
        ih.map (proj1 · ty second)
  | proj2 argument ty first ih =>
      exact ty.reads_number.bind fun ty => first.reads_number.bind fun first =>
        ih.map (proj2 · ty first)

/-- The numbering of the type variables of an annotated term. -/
def AnnotatedTerm.numbering (term : AnnotatedTerm) : Numbering .typeVar :=
  Numbering.empty.see term.occurrences

theorem AnnotatedTerm.canonical_eq (term : AnnotatedTerm) :
    term.canonical =
      if term.numbering.Fits then
        .ok (term.instantiate fun name => .var (term.numbering.rename name),
          term.numbering)
      else
        .error .exhausted :=
  term.reads_number.run .empty Numbering.fits_empty

/-- Instances of a term are instances of its canonical form. -/
theorem AnnotatedTerm.instantiate_origin {term : AnnotatedTerm}
    (fits : term.numbering.Fits) (assignment : Assignment) :
    (term.instantiate fun name => .var (term.numbering.rename name)).instantiate
        (fun name => assignment (term.numbering.origin name)) =
      term.instantiate assignment := by
  rw [instantiate_instantiate]
  apply instantiate_congr
  intro ty stored name occurs
  have seen : name ∈ term.numbering.seen :=
    Numbering.mem_see.mpr (.inr (List.mem_flatMap.mpr ⟨ty, stored, occurs⟩))
  rw [Ty.instantiate_var, Numbering.origin_rename fits seen]

/-! ## Holes -/

namespace Term

@[simp]
theorem holes_unit : unit.holes = [] :=
  rfl

@[simp]
theorem holes_var (name : VarName) : (var name).holes = [] :=
  rfl

@[simp]
theorem holes_hole (name : HoleName) : (hole name).holes = [name] :=
  rfl

@[simp]
theorem holes_abs (binder : Binder) (body : Term) :
    (abs binder body).holes = body.holes := by
  simp [holes, preorder, List.filterMap_cons, holeName?]

@[simp]
theorem holes_app (applicant argument : Term) :
    (app applicant argument).holes = applicant.holes ++ argument.holes := by
  simp [holes, preorder, List.filterMap_cons, holeName?]

@[simp]
theorem holes_pair (first second : Term) :
    (pair first second).holes = first.holes ++ second.holes := by
  simp [holes, preorder, List.filterMap_cons, holeName?]

@[simp]
theorem holes_proj1 (argument : Term) : (proj1 argument).holes = argument.holes := by
  simp [holes, preorder, List.filterMap_cons, holeName?]

@[simp]
theorem holes_proj2 (argument : Term) : (proj2 argument).holes = argument.holes := by
  simp [holes, preorder, List.filterMap_cons, holeName?]

/-- Rename the holes of a term. -/
def mapHoles (rename : HoleName → HoleName) : Term → Term
  | unit => unit
  | var name => var name
  | abs binder body => abs binder (body.mapHoles rename)
  | app applicant argument =>
      app (applicant.mapHoles rename) (argument.mapHoles rename)
  | pair first second => pair (first.mapHoles rename) (second.mapHoles rename)
  | proj1 argument => proj1 (argument.mapHoles rename)
  | proj2 argument => proj2 (argument.mapHoles rename)
  | hole name => hole (rename name)

@[simp]
theorem holes_mapHoles (rename : HoleName → HoleName) (term : Term) :
    (term.mapHoles rename).holes = term.holes.map rename := by
  induction term with
  | unit | var | hole => rfl
  | abs binder body ih => simp [mapHoles, ih]
  | app applicant argument applicantIh argumentIh =>
      simp [mapHoles, applicantIh, argumentIh]
  | pair first second firstIh secondIh => simp [mapHoles, firstIh, secondIh]
  | proj1 argument ih => simp [mapHoles, ih]
  | proj2 argument ih => simp [mapHoles, ih]

theorem reads_numberHoles (term : Term) :
    Numbering.Reads term.numberHoles term.holes fun rename =>
      term.mapHoles rename := by
  induction term with
  | unit => exact Numbering.reads_pure unit
  | var name => exact Numbering.reads_pure (var name)
  | hole name => exact (Numbering.reads_number name).map hole
  | abs binder body ih =>
      rw [holes_abs]
      exact ih.map (abs binder)
  | app applicant argument applicantIh argumentIh =>
      rw [holes_app]
      exact applicantIh.bind fun applicant => argumentIh.map (app applicant)
  | pair first second firstIh secondIh =>
      rw [holes_pair]
      exact firstIh.bind fun first => secondIh.map (pair first)
  | proj1 argument ih =>
      rw [holes_proj1]
      exact ih.map proj1
  | proj2 argument ih =>
      rw [holes_proj2]
      exact ih.map proj2

/-- The numbering of the holes of a term. -/
def holeNumbering (term : Term) : Numbering .hole :=
  Numbering.empty.see term.holes

theorem canonicalHoles_eq (term : Term) :
    term.canonicalHoles =
      if term.holeNumbering.Fits then
        .ok (term.mapHoles term.holeNumbering.rename, term.holeNumbering)
      else
        .error .exhausted :=
  term.reads_numberHoles.run .empty Numbering.fits_empty

end Term

end TypedHoles
