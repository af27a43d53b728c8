import Mathlib.Data.Set.Function
import TypedHoles.Proofs.FirstOccurrences
import TypedHoles.Proofs.PrincipalTyping

/-!
# Canonical forms decide renaming

Types, annotated terms and programs mention names that can be replaced, and are brought
to a canonical form by numbering these names in the order in which they are read.  What
this decides does not depend on which of them is numbered: canonical forms are equal
exactly if the values differ by a bijection of their names.
-/

namespace TypedHoles

/-! ## Renamed names -/

namespace Numbering

variable {kind : NameKind} {names : List (Name kind)} {rename : Name kind → Name kind}

/-- Renaming keeps the order in which names are seen, if it keeps them apart. -/
theorem see_map {numbering : Numbering kind}
    (injective : Set.InjOn rename {name | name ∈ (numbering.see names).seen}) :
    (mk (numbering.seen.map rename)).see (names.map rename) =
      ⟨(numbering.see names).seen.map rename⟩ := by
  induction names generalizing numbering with
  | nil => rfl
  | cons name names ih =>
      rw [see_cons] at injective
      rw [List.map_cons, see_cons, see_cons numbering, ← ih injective]
      congr 1
      have seen : name ∈ ((numbering.see [name]).see names).seen := by simp [mem_see]
      by_cases member : name ∈ numbering.seen
      · rw [see_singleton_of_mem member, see_singleton_of_mem]
        exact List.mem_map_of_mem member
      · have absent : rename name ∉ numbering.seen.map rename := by
          intro found
          obtain ⟨other, otherMember, equal⟩ := List.mem_map.mp found
          have otherSeen : other ∈ ((numbering.see [name]).see names).seen := by
            simp [mem_see, otherMember]
          exact member (injective otherSeen seen equal ▸ otherMember)
        have added : ((mk (numbering.seen.map rename)).see [rename name]).seen =
            (numbering.see [name]).seen.map rename := by
          rw [see_singleton_of_not_mem absent, see_singleton_of_not_mem member,
            List.map_append]
          rfl
        exact congrArg mk added

theorem idxOf_map {seen : List (Name kind)}
    (injective : Set.InjOn rename {name | name ∈ seen}) {name : Name kind}
    (member : name ∈ seen) : (seen.map rename).idxOf (rename name) = seen.idxOf name := by
  induction seen with
  | nil => simp at member
  | cons first seen ih =>
      by_cases same : first = name
      · simp [same]
      · have differs : rename first ≠ rename name := fun equal =>
          same (injective List.mem_cons_self member equal)
        rw [List.map_cons, List.idxOf_cons_ne _ differs, List.idxOf_cons_ne _ same,
          ih (injective.mono fun _ => List.mem_cons_of_mem _)
            ((List.mem_cons.mp member).resolve_left (Ne.symm same))]

/-- Renaming does not change canonical names, if it keeps the names apart. -/
theorem rename_see_map (injective : Set.InjOn rename {name | name ∈ names}) :
    ((empty.see (names.map rename)).Fits ↔ (empty.see names).Fits) ∧
      ∀ name ∈ names,
        (empty.see (names.map rename)).rename (rename name) =
          (empty.see names).rename name := by
  have seenOnly : ∀ name ∈ (empty.see names).seen, name ∈ names := fun name seen =>
    (mem_see.mp seen).resolve_left List.not_mem_nil
  have injectiveSeen := injective.mono seenOnly
  have renamed : empty.see (names.map rename) = ⟨(empty.see names).seen.map rename⟩ :=
    see_map injectiveSeen
  constructor
  · rw [Fits, Fits, renamed, List.length_map]
  · intro name member
    have seen : name ∈ (empty.see names).seen := mem_see.mpr (.inr member)
    rw [Numbering.rename, Numbering.rename, renamed, idxOf_map injectiveSeen seen]

theorem injOn_rename (fits : (empty.see names).Fits) :
    Set.InjOn (empty.see names).rename {name | name ∈ names} := by
  have back (name : Name kind) (member : name ∈ names) :
      (empty.see names).origin ((empty.see names).rename name) = name :=
    origin_rename fits (mem_see.mpr (.inr member))
  intro left leftMember right rightMember equal
  rw [← back left leftMember, equal, back right rightMember]

/-- A renaming that keeps names apart keeps their order. -/
theorem eraseDups_map (injective : Set.InjOn rename {name | name ∈ names}) :
    (names.map rename).eraseDups = names.eraseDups.map rename := by
  have injectiveSeen : Set.InjOn rename {name | name ∈ (empty.see names).seen} :=
    injective.mono fun name seen => (mem_see.mp seen).resolve_left List.not_mem_nil
  rw [← seen_see_empty, ← seen_see_empty]
  exact congrArg seen (see_map injectiveSeen)

end Numbering

/-! ## Numberings that change nothing -/

namespace Numbering

variable {kind : NameKind} {numbering : Numbering kind} {name : Name kind}

theorem rename_eq_self_iff (fits : numbering.Fits) (member : name ∈ numbering.seen) :
    numbering.rename name = name ↔ name.index.toNat = numbering.seen.idxOf name := by
  rw [← index_rename fits member, eq_comm]
  exact Name.index_injective.eq_iff.symm

theorem isIdentity_iff (distinct : numbering.seen.Nodup) (fits : numbering.Fits) :
    numbering.isIdentity = true ↔ ∀ name ∈ numbering.seen, numbering.rename name = name := by
  rw [isIdentity, beq_iff_eq]
  constructor
  · intro inOrder name member
    rw [rename_eq_self_iff fits member]
    have position := List.idxOf_lt_length_of_mem member
    have atPosition := congrArg (fun indices => indices[numbering.seen.idxOf name]?) inOrder
    simpa [position] using atPosition
  · intro fixed
    apply List.ext_getElem (by simp)
    intro position inside _
    have within : position < numbering.seen.length := by simpa using inside
    have member := List.getElem_mem within
    rw [List.getElem_map, List.getElem_range,
      (rename_eq_self_iff fits member).mp (fixed _ member),
      distinct.idxOf_getElem position within]

end Numbering

/-! ## Values that mention names -/

/-- How values mention names of one kind: the names in the order in which they are read,
and what becomes of a value when its names are replaced. -/
structure Mentions (kind : NameKind) (α : Type) where
  names : α → List (Name kind)
  rename : (Name kind → Name kind) → α → α
  names_rename : ∀ replace value, names (rename replace value) = (names value).map replace
  /-- Only what becomes of the mentioned names matters. -/
  rename_congr : ∀ {first second : Name kind → Name kind} {value : α},
    (∀ name ∈ names value, first name = second name) →
      rename first value = rename second value
  rename_rename : ∀ first second value,
    rename second (rename first value) = rename (fun name => second (first name)) value
  rename_self : ∀ value, rename (fun name => name) value = value

namespace Mentions

variable {kind : NameKind} {α : Type} (mentions : Mentions kind α) {value left right : α}

/-- The numbering of the names of a value. -/
def numbering (value : α) : Numbering kind :=
  Numbering.empty.see (mentions.names value)

/-- The value with its names replaced by their numbers. -/
def canonical (value : α) : α :=
  mentions.rename (mentions.numbering value).rename value

theorem mem_seen_numbering {name : Name kind} :
    name ∈ (mentions.numbering value).seen ↔ name ∈ mentions.names value := by
  rw [numbering, Numbering.seen_see_empty, List.mem_eraseDups]

theorem nodup_seen_numbering (value : α) : (mentions.numbering value).seen.Nodup :=
  Numbering.nodup_see List.nodup_nil _

/-- A renaming that keeps the names apart does not change the canonical form. -/
theorem canonical_rename {replace : Name kind → Name kind}
    (injective : Set.InjOn replace {name | name ∈ mentions.names value}) :
    ((mentions.numbering (mentions.rename replace value)).Fits ↔
      (mentions.numbering value).Fits) ∧
    mentions.canonical (mentions.rename replace value) = mentions.canonical value := by
  obtain ⟨fits, same⟩ := Numbering.rename_see_map injective
  rw [canonical, canonical, numbering, numbering, mentions.names_rename,
    mentions.rename_rename]
  exact ⟨fits, mentions.rename_congr same⟩

/-- The numbers lead back to the names. -/
theorem rename_origin (fits : (mentions.numbering value).Fits) :
    mentions.rename (mentions.numbering value).origin (mentions.canonical value) = value := by
  have back : ∀ name ∈ mentions.names value, (mentions.numbering value).origin
      ((mentions.numbering value).rename name) = name := fun name member =>
    Numbering.origin_rename fits (mentions.mem_seen_numbering.mpr member)
  rw [canonical, mentions.rename_rename, mentions.rename_congr back, mentions.rename_self]

/-- Values with the same canonical form differ by a bijection of their names. -/
theorem exists_bijOn_of_canonical_eq (leftFits : (mentions.numbering left).Fits)
    (rightFits : (mentions.numbering right).Fits)
    (same : mentions.canonical left = mentions.canonical right) :
    ∃ replace : Name kind → Name kind,
      Set.BijOn replace {name | name ∈ mentions.names left}
        {name | name ∈ mentions.names right} ∧
      mentions.rename replace left = right := by
  let number := (mentions.numbering left).rename
  let origin := (mentions.numbering right).origin
  have renamed : mentions.rename (fun name => origin (number name)) left = right := by
    rw [← mentions.rename_rename number origin left]
    exact (congrArg (mentions.rename origin) same).trans (mentions.rename_origin rightFits)
  have names : (mentions.names left).map (fun name => origin (number name)) =
      mentions.names right := by
    rw [← mentions.names_rename, renamed]
  -- Every number on the left is the number of some name on the right.
  have shared : (mentions.names left).map number =
      (mentions.names right).map (mentions.numbering right).rename := by
    rw [← mentions.names_rename, ← mentions.names_rename]
    exact congrArg mentions.names same
  have number_origin (name : Name kind) (member : name ∈ mentions.names left) :
      (mentions.numbering right).rename (origin (number name)) = number name := by
    have listed : number name ∈ (mentions.names left).map number := List.mem_map_of_mem member
    rw [shared, List.mem_map] at listed
    obtain ⟨other, otherMember, equal⟩ := listed
    rw [← equal]
    exact congrArg _
      (Numbering.origin_rename rightFits (mentions.mem_seen_numbering.mpr otherMember))
  refine ⟨fun name => origin (number name), ⟨?_, ?_, ?_⟩, renamed⟩
  · intro name member
    have listed : origin (number name) ∈
        (mentions.names left).map fun name => origin (number name) :=
      List.mem_map_of_mem member
    exact names ▸ listed
  · intro first firstMember second secondMember equal
    apply Numbering.injOn_rename leftFits firstMember secondMember
    change number first = number second
    rw [← number_origin first firstMember, ← number_origin second secondMember]
    exact congrArg _ equal
  · intro name member
    exact List.mem_map.mp (names ▸ member)

theorem canonical_eq_iff (leftFits : (mentions.numbering left).Fits)
    (rightFits : (mentions.numbering right).Fits) :
    mentions.canonical left = mentions.canonical right ↔
      ∃ replace : Name kind → Name kind,
        Set.BijOn replace {name | name ∈ mentions.names left}
          {name | name ∈ mentions.names right} ∧
        mentions.rename replace left = right := by
  refine ⟨mentions.exists_bijOn_of_canonical_eq leftFits rightFits, ?_⟩
  rintro ⟨replace, bijective, rfl⟩
  exact (mentions.canonical_rename bijective.injOn).2.symm

/-- A numbering changes no name exactly if it leaves the value as it is. -/
theorem isIdentity_numbering_iff (fits : (mentions.numbering value).Fits) :
    (mentions.numbering value).isIdentity = true ↔ mentions.canonical value = value := by
  rw [Numbering.isIdentity_iff (mentions.nodup_seen_numbering value) fits]
  constructor
  · intro fixed
    rw [canonical, mentions.rename_congr fun name member =>
      fixed name (mentions.mem_seen_numbering.mpr member), mentions.rename_self]
  · intro unchanged name seen
    have names := mentions.names_rename (mentions.numbering value).rename value
    rw [← canonical, unchanged] at names
    exact List.map_inj_left.mp (names.symm.trans (List.map_id' _).symm) name
      (mentions.mem_seen_numbering.mp seen)

/-- The names of a canonical form are `0, 1, 2, …` in order of first occurrence. -/
theorem map_index_eraseDups_names (fits : (mentions.numbering value).Fits)
    (unchanged : mentions.canonical value = value) :
    (mentions.names value).eraseDups.map (fun name => name.index.toNat) =
      List.range (mentions.names value).eraseDups.length := by
  have identity := (mentions.isIdentity_numbering_iff fits).mpr unchanged
  rwa [Numbering.isIdentity, beq_iff_eq, numbering, Numbering.seen_see_empty] at identity

/-- Numbering a canonical form leaves it as it is. -/
theorem canonical_canonical (fits : (mentions.numbering value).Fits) :
    (mentions.numbering (mentions.canonical value)).Fits ∧
      mentions.canonical (mentions.canonical value) = mentions.canonical value := by
  obtain ⟨sameFits, same⟩ := mentions.canonical_rename (Numbering.injOn_rename fits)
  exact ⟨sameFits.mpr fits, same⟩

end Mentions

/-! ## What numbering decides -/

/-- Whether a computation of canonical forms decides which values differ only by a
bijection of their names, where `distinct` lists the names of a value. -/
structure DecidesRenaming {kind : NameKind} {α : Type} (distinct : α → List (Name kind))
    (rename : (Name kind → Name kind) → α → α)
    (canonical : α → Except Exhausted (α × Numbering kind)) : Prop where
  /-- There is a canonical form unless there are too many names. -/
  exists_ok : ∀ value, (distinct value).length < UInt32.size →
    ∃ normal numbering, canonical value = .ok (normal, numbering)
  /-- Values have the same canonical form if and only if a bijection of their names turns
  one into the other. -/
  normal_eq_iff : ∀ {left right leftNormal rightNormal leftNumbering rightNumbering},
    canonical left = .ok (leftNormal, leftNumbering) →
    canonical right = .ok (rightNormal, rightNumbering) →
    (leftNormal = rightNormal ↔ ∃ replace : Name kind → Name kind,
      Set.BijOn replace {name | name ∈ distinct left} {name | name ∈ distinct right} ∧
        rename replace left = right)
  /-- A canonical form is its own canonical form. -/
  idempotent : ∀ {value normal numbering}, canonical value = .ok (normal, numbering) →
    ∃ again, canonical normal = .ok (normal, again) ∧ again.isIdentity = true
  /-- The numbering is the identity if and only if nothing was changed. -/
  isIdentity_iff : ∀ {value normal numbering}, canonical value = .ok (normal, numbering) →
    (numbering.isIdentity = true ↔ normal = value)

section Decides

variable {kind : NameKind} {α : Type} (mentions : Mentions kind α)
  {number : α → StateT (Numbering kind) (Except Exhausted) α}

theorem Mentions.run_eq
    (reads : ∀ value, Numbering.Reads (number value) (mentions.names value)
      fun replace => mentions.rename replace value) (value : α) :
    (number value).run .empty =
      if (mentions.numbering value).Fits then
        .ok (mentions.canonical value, mentions.numbering value)
      else
        .error .exhausted :=
  (reads value).run .empty Numbering.fits_empty

theorem Mentions.run_eq_ok_iff
    (reads : ∀ value, Numbering.Reads (number value) (mentions.names value)
      fun replace => mentions.rename replace value)
    {value normal : α} {numbering : Numbering kind} :
    (number value).run .empty = .ok (normal, numbering) ↔
      (mentions.numbering value).Fits ∧ mentions.canonical value = normal ∧
        mentions.numbering value = numbering := by
  rw [mentions.run_eq reads]
  by_cases fits : (mentions.numbering value).Fits
  · simp [fits]
  · simp [fits]

/-- A renaming that keeps the names apart does not change what is computed. -/
theorem Mentions.map_fst_run_rename
    (reads : ∀ value, Numbering.Reads (number value) (mentions.names value)
      fun replace => mentions.rename replace value)
    {value : α} {replace : Name kind → Name kind}
    (injective : Set.InjOn replace {name | name ∈ mentions.names value}) :
    ((number (mentions.rename replace value)).run .empty).map Prod.fst =
      ((number value).run .empty).map Prod.fst := by
  obtain ⟨sameFits, same⟩ := mentions.canonical_rename injective
  rw [mentions.run_eq reads, mentions.run_eq reads]
  by_cases fits : (mentions.numbering value).Fits
  · rw [if_pos (sameFits.mpr fits), if_pos fits, same]
    rfl
  · rw [if_neg (mt sameFits.mp fits), if_neg fits]

/-- A computation that reads and replaces the names in order decides renaming. -/
theorem Mentions.decidesRenaming
    (reads : ∀ value, Numbering.Reads (number value) (mentions.names value)
      fun replace => mentions.rename replace value) :
    DecidesRenaming (fun value => (mentions.names value).eraseDups) mentions.rename
      fun value => (number value).run .empty where
  exists_ok value few := by
    have fits : (mentions.numbering value).Fits := by
      rwa [Numbering.Fits, numbering, Numbering.seen_see_empty]
    exact ⟨_, _, (mentions.run_eq_ok_iff reads).mpr ⟨fits, rfl, rfl⟩⟩
  normal_eq_iff leftRun rightRun := by
    obtain ⟨leftFits, rfl, rfl⟩ := (mentions.run_eq_ok_iff reads).mp leftRun
    obtain ⟨rightFits, rfl, rfl⟩ := (mentions.run_eq_ok_iff reads).mp rightRun
    simp only [List.mem_eraseDups]
    exact mentions.canonical_eq_iff leftFits rightFits
  idempotent run := by
    obtain ⟨fits, rfl, rfl⟩ := (mentions.run_eq_ok_iff reads).mp run
    obtain ⟨normalFits, same⟩ := mentions.canonical_canonical fits
    exact ⟨_, (mentions.run_eq_ok_iff reads).mpr ⟨normalFits, same, rfl⟩,
      (mentions.isIdentity_numbering_iff normalFits).mpr same⟩
  isIdentity_iff run := by
    obtain ⟨fits, rfl, rfl⟩ := (mentions.run_eq_ok_iff reads).mp run
    exact mentions.isIdentity_numbering_iff fits

end Decides

/-! ## Types and annotated terms -/

namespace Ty

theorem occurrences_instantiate_rename (ty : Ty) (rename : TypeVar → TypeVar) :
    (ty.instantiate fun name => var (rename name)).occurrences =
      ty.occurrences.map rename := by
  induction ty with
  | unit | var => rfl
  | arrow domain codomain domainIh codomainIh =>
      simp [occurrences, domainIh, codomainIh]
  | product first second firstIh secondIh => simp [occurrences, firstIh, secondIh]

/-- How types mention type variables. -/
def mentions : Mentions .typeVar Ty where
  names := occurrences
  rename replace ty := ty.instantiate fun name => var (replace name)
  names_rename replace ty := ty.occurrences_instantiate_rename replace
  rename_congr same := instantiate_congr fun name member => congrArg var (same name member)
  rename_rename _ _ ty := ty.instantiate_instantiate _ _
  rename_self := instantiate_self

theorem decidesRenaming_number :
    DecidesRenaming vars (fun replace ty => ty.instantiate fun name => var (replace name))
      fun ty => ty.number.run .empty := by
  rw [funext vars_eq]
  exact mentions.decidesRenaming reads_number

end Ty

namespace AnnotatedTerm

theorem occurrences_instantiate_rename (term : AnnotatedTerm)
    (rename : TypeVar → TypeVar) :
    (term.instantiate fun name => .var (rename name)).occurrences =
      term.occurrences.map rename := by
  rw [occurrences, types_instantiate, List.flatMap_map, occurrences, List.map_flatMap]
  simp only [Ty.occurrences_instantiate_rename]

theorem instantiate_self (term : AnnotatedTerm) :
    term.instantiate Ty.var = term := by
  induction term with
  | unit => rfl
  | var name ty | hole name ty => rw [instantiate, Ty.instantiate_self]
  | abs binder domain body ih => rw [instantiate, Ty.instantiate_self, ih]
  | app applicant argument ty applicantIh argumentIh =>
      rw [instantiate, Ty.instantiate_self, applicantIh, argumentIh]
  | pair first second ty firstIh secondIh =>
      rw [instantiate, Ty.instantiate_self, firstIh, secondIh]
  | proj1 argument ty other ih | proj2 argument ty other ih =>
      rw [instantiate, Ty.instantiate_self, Ty.instantiate_self, ih]

/-- How annotated terms mention type variables. -/
def mentions : Mentions .typeVar AnnotatedTerm where
  names := occurrences
  rename replace term := term.instantiate fun name => .var (replace name)
  names_rename replace term := term.occurrences_instantiate_rename replace
  rename_congr same := instantiate_congr fun ty stored name occurs =>
    congrArg Ty.var (same name (List.mem_flatMap.mpr ⟨ty, stored, occurs⟩))
  rename_rename _ _ term := term.instantiate_instantiate _ _
  rename_self := instantiate_self

theorem decidesRenaming_canonical :
    DecidesRenaming typeVars
      (fun replace term => term.instantiate fun name => .var (replace name)) canonical := by
  rw [funext typeVars_eq]
  exact mentions.decidesRenaming reads_number

end AnnotatedTerm

/-- Numbering type variables decides which annotated terms, and which types, are equal up
to a bijection of their type variables. -/
theorem canonical_decides_renaming :
    DecidesRenaming AnnotatedTerm.typeVars
      (fun replace term => term.instantiate fun name => .var (replace name))
      AnnotatedTerm.canonical ∧
    DecidesRenaming Ty.vars (fun replace ty => ty.instantiate fun name => .var (replace name))
      (fun ty => ty.number.run .empty) ∧
    ∀ ty : Ty, ty.canonical = (ty.number.run .empty).map Prod.fst := by
  refine ⟨AnnotatedTerm.decidesRenaming_canonical, Ty.decidesRenaming_number, ?_⟩
  intro ty
  exact StateT.run'_eq ty.number .empty

/-- Swapping two type variables is a bijection, identifying them is none. -/
theorem canonical_decides_renaming_swappedVars :
    let swapped : Ty := .product (.var ⟨1⟩) (.arrow (.var ⟨0⟩) (.var ⟨1⟩))
    let inOrder : Ty := .product (.var ⟨0⟩) (.arrow (.var ⟨1⟩) (.var ⟨0⟩))
    let identified : Ty := .product (.var ⟨0⟩) (.arrow (.var ⟨0⟩) (.var ⟨0⟩))
    (∃ replace : TypeVar → TypeVar,
      Set.BijOn replace {name | name ∈ swapped.vars} {name | name ∈ inOrder.vars} ∧
        swapped.instantiate (fun name => .var (replace name)) = inOrder) ∧
    ¬ ∃ replace : TypeVar → TypeVar,
      Set.BijOn replace {name | name ∈ swapped.vars} {name | name ∈ identified.vars} ∧
        swapped.instantiate (fun name => .var (replace name)) = identified := by
  intro swapped inOrder identified
  have decides := canonical_decides_renaming.2.1
  have ofSwapped : swapped.number.run .empty = .ok (inOrder, ⟨[⟨1⟩, ⟨0⟩]⟩) := by decide
  have ofInOrder : inOrder.number.run .empty = .ok (inOrder, ⟨[⟨0⟩, ⟨1⟩]⟩) := by decide
  have ofIdentified : identified.number.run .empty = .ok (identified, ⟨[⟨0⟩]⟩) := by decide
  exact ⟨(decides.normal_eq_iff ofSwapped ofInOrder).mp rfl,
    mt (decides.normal_eq_iff ofSwapped ofIdentified).mpr (by decide)⟩

end TypedHoles
