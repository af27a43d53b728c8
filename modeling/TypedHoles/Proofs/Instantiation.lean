import Mathlib.Logic.Function.Basic
import TypedHoles.Context

/-!
# Instances of types

An assignment chooses a type for every type variable.  Instantiating a type
replaces all its type variables at once, in contrast to applying a
substitution, which follows chains of bindings.
-/

namespace TypedHoles

/-- A choice of a type for every type variable. -/
abbrev Assignment := TypeVar → Ty

namespace Ty

/-- Replace every type variable by the type that an assignment chooses for it. -/
def instantiate (assignment : Assignment) : Ty → Ty
  | unit => unit
  | var name => assignment name
  | arrow domain codomain =>
      arrow (domain.instantiate assignment) (codomain.instantiate assignment)
  | product first second =>
      product (first.instantiate assignment) (second.instantiate assignment)

@[simp]
theorem instantiate_unit (assignment : Assignment) :
    unit.instantiate assignment = unit :=
  rfl

@[simp]
theorem instantiate_var (assignment : Assignment) (name : TypeVar) :
    (var name).instantiate assignment = assignment name :=
  rfl

@[simp]
theorem instantiate_arrow (assignment : Assignment) (domain codomain : Ty) :
    (arrow domain codomain).instantiate assignment =
      arrow (domain.instantiate assignment) (codomain.instantiate assignment) :=
  rfl

@[simp]
theorem instantiate_product (assignment : Assignment) (first second : Ty) :
    (product first second).instantiate assignment =
      product (first.instantiate assignment) (second.instantiate assignment) :=
  rfl

/-- Only the choices for the type variables that occur matter. -/
theorem instantiate_congr {ty : Ty} {left right : Assignment}
    (agree : ∀ name ∈ ty.occurrences, left name = right name) :
    ty.instantiate left = ty.instantiate right := by
  induction ty with
  | unit => rfl
  | var name => exact agree name (by simp [occurrences])
  | arrow domain codomain domainIh codomainIh =>
      rw [instantiate_arrow, instantiate_arrow,
        domainIh fun name member => agree name (by simp [occurrences, member]),
        codomainIh fun name member => agree name (by simp [occurrences, member])]
  | product first second firstIh secondIh =>
      rw [instantiate_product, instantiate_product,
        firstIh fun name member => agree name (by simp [occurrences, member]),
        secondIh fun name member => agree name (by simp [occurrences, member])]

@[simp]
theorem instantiate_self (ty : Ty) : ty.instantiate var = ty := by
  induction ty with
  | unit => rfl
  | var name => rfl
  | arrow domain codomain domainIh codomainIh =>
      rw [instantiate_arrow, domainIh, codomainIh]
  | product first second firstIh secondIh =>
      rw [instantiate_product, firstIh, secondIh]

theorem instantiate_eq_self {ty : Ty} {assignment : Assignment}
    (fixed : ∀ name ∈ ty.occurrences, assignment name = var name) :
    ty.instantiate assignment = ty := by
  rw [instantiate_congr fixed, instantiate_self]

theorem instantiate_instantiate (ty : Ty) (inner outer : Assignment) :
    (ty.instantiate inner).instantiate outer =
      ty.instantiate fun name => (inner name).instantiate outer := by
  induction ty with
  | unit => rfl
  | var name => rfl
  | arrow domain codomain domainIh codomainIh =>
      simp only [instantiate_arrow, domainIh, codomainIh]
  | product first second firstIh secondIh =>
      simp only [instantiate_product, firstIh, secondIh]

theorem mem_occurrences_instantiate {ty : Ty} {assignment : Assignment}
    {name : TypeVar} :
    name ∈ (ty.instantiate assignment).occurrences ↔
      ∃ origin ∈ ty.occurrences, name ∈ (assignment origin).occurrences := by
  induction ty with
  | unit => simp [occurrences]
  | var origin => simp [occurrences]
  | arrow domain codomain domainIh codomainIh =>
      simp only [instantiate_arrow, occurrences, List.mem_append, domainIh,
        codomainIh, or_and_right, exists_or]
  | product first second firstIh secondIh =>
      simp only [instantiate_product, occurrences, List.mem_append, firstIh,
        secondIh, or_and_right, exists_or]

theorem length_occurrences_le_size (ty : Ty) :
    ty.occurrences.length ≤ ty.size := by
  induction ty with
  | unit => simp [occurrences, size]
  | var name => simp [occurrences, size]
  | arrow domain codomain domainIh codomainIh =>
      simp only [occurrences, size, List.length_append]
      omega
  | product first second firstIh secondIh =>
      simp only [occurrences, size, List.length_append]
      omega

theorem size_le_size_instantiate {ty : Ty} {name : TypeVar}
    (assignment : Assignment) (member : name ∈ ty.occurrences) :
    (assignment name).size ≤ (ty.instantiate assignment).size := by
  induction ty with
  | unit => simp [occurrences] at member
  | var other =>
      obtain rfl : name = other := by simpa [occurrences] using member
      exact Nat.le_refl _
  | arrow domain codomain domainIh codomainIh =>
      simp only [occurrences, List.mem_append] at member
      simp only [instantiate_arrow, size]
      rcases member with inDomain | inCodomain
      · have := domainIh inDomain
        omega
      · have := codomainIh inCodomain
        omega
  | product first second firstIh secondIh =>
      simp only [occurrences, List.mem_append] at member
      simp only [instantiate_product, size]
      rcases member with inFirst | inSecond
      · have := firstIh inFirst
        omega
      · have := secondIh inSecond
        omega

/-- No assignment makes a type variable equal to a larger type that contains it. -/
theorem instantiate_ne_of_mem {ty : Ty} {name : TypeVar}
    (assignment : Assignment) (member : name ∈ ty.occurrences)
    (larger : ty ≠ var name) :
    assignment name ≠ ty.instantiate assignment := by
  intro equal
  have sizes : (assignment name).size = (ty.instantiate assignment).size :=
    congrArg size equal
  cases ty with
  | unit => simp [occurrences] at member
  | var other =>
      obtain rfl : name = other := by simpa [occurrences] using member
      exact larger rfl
  | arrow domain codomain =>
      simp only [occurrences, List.mem_append] at member
      simp only [instantiate_arrow, size] at sizes
      rcases member with inDomain | inCodomain
      · have := size_le_size_instantiate assignment inDomain
        omega
      · have := size_le_size_instantiate assignment inCodomain
        omega
  | product first second =>
      simp only [occurrences, List.mem_append] at member
      simp only [instantiate_product, size] at sizes
      rcases member with inFirst | inSecond
      · have := size_le_size_instantiate assignment inFirst
        omega
      · have := size_le_size_instantiate assignment inSecond
        omega

end Ty

end TypedHoles
