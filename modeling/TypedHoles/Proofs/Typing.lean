import TypedHoles.Proofs.MostGeneralUnifier

/-!
# Typing

An annotated term is a typing derivation if the type at every node is the one
that the typing rules allow there.  Variables take the type of their innermost
binder, holes take any type.  This file relates derivations to constraints: an
instance of a term whose variables agree with their context is a derivation
exactly if the assignment solves the constraints of the term.
-/

namespace TypedHoles

namespace Context

/-- Replace the type variables in the types of a context. -/
def instantiate (context : Context) (assignment : Assignment) : Context :=
  ⟨context.entries.map fun entry => (entry.1, entry.2.instantiate assignment)⟩

@[simp]
theorem instantiate_empty (assignment : Assignment) :
    instantiate .empty assignment = .empty :=
  rfl

theorem instantiate_extend (context : Context) (assignment : Assignment)
    (name : VarName) (ty : Ty) :
    instantiate (context.extend name ty) assignment =
      extend (context.instantiate assignment) name (ty.instantiate assignment) :=
  rfl

theorem lookup_instantiate (context : Context) (assignment : Assignment)
    (name : VarName) :
    lookup (context.instantiate assignment) name =
      (context.lookup name).map (Ty.instantiate assignment) := by
  obtain ⟨entries⟩ := context
  simp only [lookup, ShadowList.get?, instantiate]
  induction entries with
  | nil => rfl
  | cons entry entries ih =>
      by_cases same : entry.1 = name
      · simp [same]
      · simpa [same] using ih

end Context

namespace AnnotatedTerm

/-- The term without its types. -/
def erase : AnnotatedTerm → Term
  | unit => .unit
  | var name _ => .var name
  | abs binder _ body => .abs binder body.erase
  | app applicant argument _ => .app applicant.erase argument.erase
  | pair first second _ => .pair first.erase second.erase
  | proj1 argument _ _ => .proj1 argument.erase
  | proj2 argument _ _ => .proj2 argument.erase
  | hole name _ => .hole name

/-- Whether the types at the nodes follow the typing rules in a context. -/
def WellTyped (context : Context) : AnnotatedTerm → Prop
  | unit => True
  | var name ty => context.lookup name = some ty
  | abs binder domain body => body.WellTyped (context.extend binder.name domain)
  | app applicant argument ty => applicant.WellTyped context ∧
      argument.WellTyped context ∧ applicant.ty = .arrow argument.ty ty
  | pair first second ty => first.WellTyped context ∧
      second.WellTyped context ∧ ty = .product first.ty second.ty
  | proj1 argument ty second => argument.WellTyped context ∧
      argument.ty = .product ty second
  | proj2 argument ty first => argument.WellTyped context ∧
      argument.ty = .product first ty
  | hole _ _ => True

/-- Deciding whether an annotated term follows the typing rules. -/
instance decidableWellTyped : (context : Context) → (term : AnnotatedTerm) →
    Decidable (term.WellTyped context)
  | _, unit => isTrue trivial
  | context, var name ty =>
      inferInstanceAs (Decidable (context.lookup name = some ty))
  | context, abs binder domain body =>
      decidableWellTyped (context.extend binder.name domain) body
  | context, app applicant argument ty =>
      have := decidableWellTyped context applicant
      have := decidableWellTyped context argument
      inferInstanceAs (Decidable (_ ∧ _ ∧ applicant.ty = .arrow argument.ty ty))
  | context, pair first second ty =>
      have := decidableWellTyped context first
      have := decidableWellTyped context second
      inferInstanceAs (Decidable (_ ∧ _ ∧ ty = .product first.ty second.ty))
  | context, proj1 argument ty second =>
      have := decidableWellTyped context argument
      inferInstanceAs (Decidable (_ ∧ argument.ty = .product ty second))
  | context, proj2 argument ty first =>
      have := decidableWellTyped context argument
      inferInstanceAs (Decidable (_ ∧ argument.ty = .product first ty))
  | _, hole _ _ => isTrue trivial

/-- Whether variables have the types that the context and the binders around
them give them. -/
def Scoped (context : Context) : AnnotatedTerm → Prop
  | unit => True
  | var name ty => context.lookup name = some ty
  | abs binder domain body => body.Scoped (context.extend binder.name domain)
  | app applicant argument _ => applicant.Scoped context ∧ argument.Scoped context
  | pair first second _ => first.Scoped context ∧ second.Scoped context
  | proj1 argument _ _ => argument.Scoped context
  | proj2 argument _ _ => argument.Scoped context
  | hole _ _ => True

theorem wellTyped_iff {context : Context} {term : AnnotatedTerm} :
    term.WellTyped context ↔ term.Scoped context ∧
      ∀ constraint ∈ term.constraints, constraint.expected = constraint.actual := by
  induction term generalizing context with
  | unit => simp [WellTyped, Scoped, constraints]
  | var name ty => simp [WellTyped, Scoped, constraints]
  | abs binder domain body ih => simp only [WellTyped, Scoped, constraints, ih]
  | app applicant argument ty applicantIh argumentIh =>
      simp only [WellTyped, Scoped, constraints, applicantIh, argumentIh,
        List.forall_mem_cons, List.forall_mem_append]
      grind
  | pair first second ty firstIh secondIh =>
      simp only [WellTyped, Scoped, constraints, firstIh, secondIh,
        List.forall_mem_cons, List.forall_mem_append]
      grind
  | proj1 argument ty second ih =>
      simp only [WellTyped, Scoped, constraints, ih, List.forall_mem_cons]
      grind
  | proj2 argument ty first ih =>
      simp only [WellTyped, Scoped, constraints, ih, List.forall_mem_cons]
      grind
  | hole name ty => simp [WellTyped, Scoped, constraints]

/-- Replace the type variables in all types of an annotated term. -/
def instantiate (assignment : Assignment) : AnnotatedTerm → AnnotatedTerm
  | unit => unit
  | var name ty => var name (ty.instantiate assignment)
  | abs binder domain body =>
      abs binder (domain.instantiate assignment) (body.instantiate assignment)
  | app applicant argument ty =>
      app (applicant.instantiate assignment) (argument.instantiate assignment)
        (ty.instantiate assignment)
  | pair first second ty =>
      pair (first.instantiate assignment) (second.instantiate assignment)
        (ty.instantiate assignment)
  | proj1 argument ty second =>
      proj1 (argument.instantiate assignment) (ty.instantiate assignment)
        (second.instantiate assignment)
  | proj2 argument ty first =>
      proj2 (argument.instantiate assignment) (ty.instantiate assignment)
        (first.instantiate assignment)
  | hole name ty => hole name (ty.instantiate assignment)

section Instantiate

variable (assignment : Assignment) (term : AnnotatedTerm)

@[simp]
theorem erase_instantiate : (term.instantiate assignment).erase = term.erase := by
  induction term with
  | unit | var | hole => rfl
  | abs binder domain body ih => rw [instantiate, erase, erase, ih]
  | app applicant argument ty applicantIh argumentIh =>
      rw [instantiate, erase, erase, applicantIh, argumentIh]
  | pair first second ty firstIh secondIh =>
      rw [instantiate, erase, erase, firstIh, secondIh]
  | proj1 argument ty second ih => rw [instantiate, erase, erase, ih]
  | proj2 argument ty first ih => rw [instantiate, erase, erase, ih]

@[simp]
theorem ty_instantiate :
    (term.instantiate assignment).ty = term.ty.instantiate assignment := by
  induction term with
  | abs binder domain body ih => rw [instantiate, ty, ty, ih, Ty.instantiate_arrow]
  | unit | var | app | pair | proj1 | proj2 | hole => rfl

theorem constraints_instantiate :
    (term.instantiate assignment).constraints =
      term.constraints.map fun constraint =>
        ⟨constraint.expected.instantiate assignment,
          constraint.actual.instantiate assignment⟩ := by
  induction term with
  | unit | var | hole => rfl
  | abs binder domain body ih => rw [instantiate, constraints, constraints, ih]
  | app applicant argument ty applicantIh argumentIh =>
      simp [instantiate, constraints, applicantIh, argumentIh]
  | pair first second ty firstIh secondIh =>
      simp [instantiate, constraints, firstIh, secondIh]
  | proj1 argument ty second ih => simp [instantiate, constraints, ih]
  | proj2 argument ty first ih => simp [instantiate, constraints, ih]

theorem instantiate_instantiate (outer : Assignment) :
    (term.instantiate assignment).instantiate outer =
      term.instantiate fun name => (assignment name).instantiate outer := by
  induction term with
  | unit => rfl
  | var name ty => simp only [instantiate, Ty.instantiate_instantiate]
  | abs binder domain body ih =>
      simp only [instantiate, Ty.instantiate_instantiate, ih]
  | app applicant argument ty applicantIh argumentIh =>
      simp only [instantiate, Ty.instantiate_instantiate, applicantIh, argumentIh]
  | pair first second ty firstIh secondIh =>
      simp only [instantiate, Ty.instantiate_instantiate, firstIh, secondIh]
  | proj1 argument ty second ih =>
      simp only [instantiate, Ty.instantiate_instantiate, ih]
  | proj2 argument ty first ih =>
      simp only [instantiate, Ty.instantiate_instantiate, ih]
  | hole name ty => simp only [instantiate, Ty.instantiate_instantiate]

end Instantiate

theorem instantiate_congr {term : AnnotatedTerm} {left right : Assignment}
    (agree : ∀ ty ∈ term.types, ∀ name ∈ ty.occurrences, left name = right name) :
    term.instantiate left = term.instantiate right := by
  have stored (ty : Ty) (member : ty ∈ term.types) :
      ty.instantiate left = ty.instantiate right :=
    Ty.instantiate_congr (agree ty member)
  clear agree
  induction term with
  | unit => rfl
  | var name ty | hole name ty => simp only [instantiate, stored ty (by simp [types])]
  | abs binder domain body ih =>
      rw [instantiate, instantiate, stored domain (by simp [types]),
        ih fun ty member => stored ty (by simp [types, member])]
  | app applicant argument ty applicantIh argumentIh =>
      rw [instantiate, instantiate, stored ty (by simp [types]),
        applicantIh fun ty member => stored ty (by simp [types, member]),
        argumentIh fun ty member => stored ty (by simp [types, member])]
  | pair first second ty firstIh secondIh =>
      rw [instantiate, instantiate, stored ty (by simp [types]),
        firstIh fun ty member => stored ty (by simp [types, member]),
        secondIh fun ty member => stored ty (by simp [types, member])]
  | proj1 argument ty second ih =>
      rw [instantiate, instantiate, stored ty (by simp [types]),
        stored second (by simp [types]),
        ih fun ty member => stored ty (by simp [types, member])]
  | proj2 argument ty first ih =>
      rw [instantiate, instantiate, stored ty (by simp [types]),
        stored first (by simp [types]),
        ih fun ty member => stored ty (by simp [types, member])]

theorem Scoped.instantiate {context : Context} {term : AnnotatedTerm}
    (inScope : term.Scoped context) (assignment : Assignment) :
    (term.instantiate assignment).Scoped (context.instantiate assignment) := by
  induction term generalizing context with
  | unit | hole => trivial
  | var name ty =>
      have found : context.lookup name = some ty := inScope
      rw [AnnotatedTerm.instantiate, Scoped, Context.lookup_instantiate, found,
        Option.map_some]
  | abs binder domain body ih => exact ih inScope
  | app applicant argument ty applicantIh argumentIh =>
      exact ⟨applicantIh inScope.1, argumentIh inScope.2⟩
  | pair first second ty firstIh secondIh =>
      exact ⟨firstIh inScope.1, secondIh inScope.2⟩
  | proj1 argument ty second ih => exact ih inScope
  | proj2 argument ty first ih => exact ih inScope

/-- An instance of a term is a typing derivation exactly if the assignment solves
the constraints of the term. -/
theorem wellTyped_instantiate_iff {context : Context} {term : AnnotatedTerm}
    (inScope : term.Scoped context) (assignment : Assignment) :
    (term.instantiate assignment).WellTyped (context.instantiate assignment) ↔
      Unify.Solves term.constraints assignment := by
  rw [wellTyped_iff, constraints_instantiate]
  simp only [inScope.instantiate assignment, true_and, List.forall_mem_map]
  rfl

theorem WellTyped.instantiate {context : Context} {term : AnnotatedTerm}
    (typed : term.WellTyped context) (assignment : Assignment) :
    (term.instantiate assignment).WellTyped (context.instantiate assignment) := by
  obtain ⟨inScope, equal⟩ := wellTyped_iff.mp typed
  rw [wellTyped_instantiate_iff inScope]
  intro constraint member
  rw [Unify.Equates, equal constraint member]

end AnnotatedTerm

/-- The typing rules.  A hole has every type. -/
inductive Term.HasType : Context → Term → Ty → Prop
  | unit {context : Context} : HasType context .unit .unit
  | var {context : Context} {name : VarName} {ty : Ty}
      (found : context.lookup name = some ty) : HasType context (.var name) ty
  | abs {context : Context} {binder : Binder} {body : Term} {domain codomain : Ty}
      (inner : HasType (context.extend binder.name domain) body codomain) :
      HasType context (.abs binder body) (.arrow domain codomain)
  | app {context : Context} {applicant argument : Term} {domain codomain : Ty}
      (function : HasType context applicant (.arrow domain codomain))
      (input : HasType context argument domain) :
      HasType context (.app applicant argument) codomain
  | pair {context : Context} {first second : Term} {firstTy secondTy : Ty}
      (left : HasType context first firstTy)
      (right : HasType context second secondTy) :
      HasType context (.pair first second) (.product firstTy secondTy)
  | proj1 {context : Context} {argument : Term} {first second : Ty}
      (both : HasType context argument (.product first second)) :
      HasType context (.proj1 argument) first
  | proj2 {context : Context} {argument : Term} {first second : Ty}
      (both : HasType context argument (.product first second)) :
      HasType context (.proj2 argument) second
  | hole {context : Context} {name : HoleName} {ty : Ty} :
      HasType context (.hole name) ty

theorem AnnotatedTerm.WellTyped.hasType {derivation : AnnotatedTerm}
    {context : Context} (wellTyped : derivation.WellTyped context) :
    derivation.erase.HasType context derivation.ty := by
  induction derivation generalizing context with
  | unit => exact .unit
  | var name ty => exact .var wellTyped
  | hole name ty => exact .hole
  | abs binder domain body ih => exact .abs (ih wellTyped)
  | app applicant argument ty applicantIh argumentIh =>
      obtain ⟨applicantTyped, argumentTyped, equal⟩ := wellTyped
      exact .app (equal ▸ applicantIh applicantTyped) (argumentIh argumentTyped)
  | pair first second ty firstIh secondIh =>
      obtain ⟨firstTyped, secondTyped, rfl⟩ := wellTyped
      exact .pair (firstIh firstTyped) (secondIh secondTyped)
  | proj1 argument ty second ih =>
      obtain ⟨argumentTyped, equal⟩ := wellTyped
      exact .proj1 (equal ▸ ih argumentTyped)
  | proj2 argument ty first ih =>
      obtain ⟨argumentTyped, equal⟩ := wellTyped
      exact .proj2 (equal ▸ ih argumentTyped)

/-- The terms that have a type are those with a typing derivation. -/
theorem Term.hasType_iff_exists_derivation {term : Term} {context : Context} {ty : Ty} :
    term.HasType context ty ↔ ∃ derivation : AnnotatedTerm,
      derivation.erase = term ∧ derivation.WellTyped context ∧ derivation.ty = ty := by
  constructor
  · intro typed
    induction typed with
    | unit => exact ⟨.unit, rfl, trivial, rfl⟩
    | @var _ name ty found => exact ⟨.var name ty, rfl, found, rfl⟩
    | @hole _ name ty => exact ⟨.hole name ty, rfl, trivial, rfl⟩
    | @abs _ binder _ domain _ _ ih =>
        obtain ⟨body, rfl, bodyTyped, rfl⟩ := ih
        exact ⟨.abs binder domain body, rfl, bodyTyped, rfl⟩
    | @app _ _ _ _ codomain _ _ applicantIh argumentIh =>
        obtain ⟨applicant, rfl, applicantTyped, equal⟩ := applicantIh
        obtain ⟨argument, rfl, argumentTyped, rfl⟩ := argumentIh
        exact ⟨.app applicant argument codomain, rfl,
          ⟨applicantTyped, argumentTyped, equal⟩, rfl⟩
    | pair _ _ firstIh secondIh =>
        obtain ⟨first, rfl, firstTyped, rfl⟩ := firstIh
        obtain ⟨second, rfl, secondTyped, rfl⟩ := secondIh
        exact ⟨.pair first second _, rfl, ⟨firstTyped, secondTyped, rfl⟩, rfl⟩
    | @proj1 _ _ first second _ ih =>
        obtain ⟨argument, rfl, argumentTyped, equal⟩ := ih
        exact ⟨.proj1 argument first second, rfl, ⟨argumentTyped, equal⟩, rfl⟩
    | @proj2 _ _ first second _ ih =>
        obtain ⟨argument, rfl, argumentTyped, equal⟩ := ih
        exact ⟨.proj2 argument second first, rfl, ⟨argumentTyped, equal⟩, rfl⟩
  · rintro ⟨derivation, rfl, wellTyped, rfl⟩
    exact wellTyped.hasType

end TypedHoles
