import TypedHoles.Inference
import TypedHoles.Proofs.CanonicalNumbering

/-!
# Annotation with fresh type variables

Annotating a term draws a number of type variables that depends on the term
only.  If they suffice and all variables are bound, the annotated term is the
draft of the term, in which the type variables are numbered in the order in
which they are drawn.  Every annotation of the same term whose variables agree
with their context is an instance of the draft.
-/

namespace TypedHoles

namespace Term

/-- The number of type variables that annotating a term draws. -/
def typeVarCount : Term → Nat
  | unit => 0
  | var _ => 0
  | abs _ body => body.typeVarCount + 1
  | app applicant argument => applicant.typeVarCount + argument.typeVarCount + 1
  | pair first second => first.typeVarCount + second.typeVarCount + 1
  | proj1 argument => argument.typeVarCount + 2
  | proj2 argument => argument.typeVarCount + 2
  | hole _ => 1

/-- The occurrences of variables that neither `scope` nor a binder around them
binds, from left to right. -/
def freeOccurrences (scope : List VarName) : Term → List VarName
  | unit => []
  | var name => if name ∈ scope then [] else [name]
  | abs binder body => body.freeOccurrences (binder.name :: scope)
  | app applicant argument =>
      applicant.freeOccurrences scope ++ argument.freeOccurrences scope
  | pair first second => first.freeOccurrences scope ++ second.freeOccurrences scope
  | proj1 argument => argument.freeOccurrences scope
  | proj2 argument => argument.freeOccurrences scope
  | hole _ => []

end Term

/-- The type variable that is drawn after `count` others. -/
def TypeVar.drawn (count : Nat) : TypeVar :=
  ⟨.ofNat count⟩

theorem TypeVar.index_drawn_le (count : Nat) :
    (TypeVar.drawn count).index.toNat ≤ count := by
  rw [drawn, UInt32.toNat_ofNat']
  exact Nat.mod_le _ _

theorem TypeVar.index_drawn {count : Nat} (small : count < UInt32.size) :
    (TypeVar.drawn count).index.toNat = count := by
  rw [drawn, UInt32.toNat_ofNat']
  exact Nat.mod_eq_of_lt small

/-- The term with a type at every node, where `count` type variables have been
drawn before. -/
def Term.draft (context : Context) (count : Nat) : Term → AnnotatedTerm
  | unit => .unit
  | var name => .var name ((context.lookup name).getD .unit)
  | abs binder body =>
      .abs binder (.var (.drawn count))
        (body.draft (context.extend binder.name (.var (.drawn count))) (count + 1))
  | app applicant argument =>
      .app (applicant.draft context count)
        (argument.draft context (count + applicant.typeVarCount))
        (.var (.drawn (count + applicant.typeVarCount + argument.typeVarCount)))
  | pair first second =>
      .pair (first.draft context count)
        (second.draft context (count + first.typeVarCount))
        (.var (.drawn (count + first.typeVarCount + second.typeVarCount)))
  | proj1 argument =>
      .proj1 (argument.draft context count)
        (.var (.drawn (count + argument.typeVarCount)))
        (.var (.drawn (count + argument.typeVarCount + 1)))
  | proj2 argument =>
      .proj2 (argument.draft context count)
        (.var (.drawn (count + argument.typeVarCount)))
        (.var (.drawn (count + argument.typeVarCount + 1)))
  | hole name => .hole name (.var (.drawn count))

/-- The variables that a context binds. -/
def Context.scope (context : Context) : List VarName :=
  context.entries.map Prod.fst

theorem Context.isSome_lookup_iff {context : Context} {name : VarName} :
    (context.lookup name).isSome = true ↔ name ∈ context.scope :=
  ShadowList.isSome_get?_iff

/-! ## What annotation returns -/

namespace Annotate

/-- Whether `computation` draws `drawn` type variables and reports the first of `free` if
there is one.  What it returns depends on the number of type variables that have
been drawn before. -/
def Draws {α : Type} (computation : Annotate α) (value : Nat → α) (drawn : Nat)
    (free : List VarName) : Prop :=
  ∀ supply : NameSupply .typeVar,
    match computation.run supply with
    | .ok result rest => result = value supply.count ∧
        rest.count = supply.count + drawn ∧ free = []
    | .error (.illTyped error) _ =>
        ∃ name, error = .unbound name ∧ free.head? = some name
    | .error .exhausted _ => UInt32.size ≤ supply.count + drawn

section Draws

variable {α β : Type} {computation : Annotate α} {value : Nat → α} {drawn : Nat}
  {free : List VarName}

theorem draws_pure (result : α) : Draws (pure result) (fun _ => result) 0 [] := by
  intro supply
  simp

theorem Draws.bind {rest : α → Annotate β} {restValue : α → Nat → β}
    {restDrawn : Nat} {restFree : List VarName}
    (first : Draws computation value drawn free)
    (second : ∀ result, Draws (rest result) (restValue result) restDrawn restFree) :
    Draws (computation >>= rest)
      (fun count => restValue (value count) (count + drawn)) (drawn + restDrawn)
      (free ++ restFree) := by
  intro supply
  have firstRun := first supply
  rw [EStateM.run_bind]
  cases firstResult : computation.run supply with
  | error failure after =>
      rw [firstResult] at firstRun
      cases failure with
      | exhausted =>
          have tooFew : UInt32.size ≤ supply.count + drawn := firstRun
          show UInt32.size ≤ supply.count + (drawn + restDrawn)
          omega
      | illTyped error =>
          obtain ⟨name, isUnbound, head⟩ := firstRun
          exact ⟨name, isUnbound, by rw [List.head?_append, head, Option.some_or]⟩
  | ok result middle =>
      rw [firstResult] at firstRun
      obtain ⟨rfl, count, rfl⟩ := firstRun
      have secondRun := second (value supply.count) middle
      rw [count] at secondRun
      simp only [List.nil_append, ← Nat.add_assoc]
      exact secondRun

theorem Draws.map (first : Draws computation value drawn free) (make : α → β) :
    Draws (do return make (← computation)) (fun count => make (value count)) drawn
      free := by
  have both := first.bind fun result => draws_pure (make result)
  rwa [List.append_nil] at both

theorem draws_freshType : Draws freshType (fun count => .var (.drawn count)) 1 [] := by
  intro supply
  have next : TypeVar.drawn supply.count = supply.next := by
    simp [TypeVar.drawn, NameSupply.count]
  cases drawn : supply.fresh with
  | ok result =>
      obtain ⟨name, rest⟩ := result
      obtain ⟨rfl, count⟩ := NameSupply.fresh_eq_ok_iff.mp drawn
      simp only [EStateM.run, freshType, drawn, next]
      exact ⟨trivial, count, trivial⟩
  | error reason =>
      have last : supply.count = UInt32.size - 1 :=
        NameSupply.fresh_eq_error_iff.mp drawn
      simp only [EStateM.run, freshType, drawn]
      omega

theorem draws_lookup (context : Context) (name : VarName) :
    Draws (lookup context name) (fun _ => (context.lookup name).getD .unit) 0
      (if name ∈ context.scope then [] else [name]) := by
  intro supply
  cases found : context.lookup name with
  | some ty =>
      have bound : name ∈ context.scope :=
        Context.isSome_lookup_iff.mp (by rw [found]; rfl)
      simp [lookup, found, bound]
  | none =>
      have unbound : name ∉ context.scope := fun bound => by
        have isSome := Context.isSome_lookup_iff.mpr bound
        simp [found] at isSome
      rw [if_neg unbound]
      simp only [lookup, found]
      exact ⟨name, rfl, rfl⟩

end Draws

/-- Annotating a term yields its draft, unless a variable is not bound or the
type variables do not suffice. -/
theorem annotate_draws (context : Context) (term : Term) :
    Draws (annotate context term) (fun count => term.draft context count)
      term.typeVarCount (term.freeOccurrences context.scope) := by
  induction term generalizing context with
  | unit => exact draws_pure _
  | var name => exact (draws_lookup context name).map (AnnotatedTerm.var name)
  | hole name => exact draws_freshType.map (AnnotatedTerm.hole name)
  | abs binder body ih =>
      -- The scope of the body does not depend on the type that has been drawn.
      have bodyDraws (domain : Ty) :
          Draws (annotate (context.extend binder.name domain) body)
            (fun count => body.draft (context.extend binder.name domain) count)
            body.typeVarCount (body.freeOccurrences (binder.name :: context.scope)) :=
        ih (context.extend binder.name domain)
      have draws := draws_freshType.bind fun domain =>
        (bodyDraws domain).map (AnnotatedTerm.abs binder domain)
      rw [Nat.add_comm] at draws
      exact draws
  | app applicant argument applicantIh argumentIh =>
      have draws := (applicantIh context).bind fun applicant =>
        (argumentIh context).bind fun argument =>
          draws_freshType.map (AnnotatedTerm.app applicant argument)
      rw [List.append_nil] at draws
      exact draws
  | pair first second firstIh secondIh =>
      have draws := (firstIh context).bind fun first =>
        (secondIh context).bind fun second =>
          draws_freshType.map (AnnotatedTerm.pair first second)
      rw [List.append_nil] at draws
      exact draws
  | proj1 argument ih =>
      have draws := (ih context).bind fun argument =>
        draws_freshType.bind fun ty =>
          draws_freshType.map (AnnotatedTerm.proj1 argument ty)
      rw [List.append_nil, List.append_nil] at draws
      exact draws
  | proj2 argument ih =>
      have draws := (ih context).bind fun argument =>
        draws_freshType.bind fun ty =>
          draws_freshType.map (AnnotatedTerm.proj2 argument ty)
      rw [List.append_nil, List.append_nil] at draws
      exact draws

end Annotate

/-! ## The draft of a term -/

namespace Term

@[simp]
theorem erase_draft (term : Term) (context : Context) (count : Nat) :
    (term.draft context count).erase = term := by
  induction term generalizing context count with
  | unit | var | hole => rfl
  | abs binder body ih => rw [draft, AnnotatedTerm.erase, ih]
  | app applicant argument applicantIh argumentIh =>
      rw [draft, AnnotatedTerm.erase, applicantIh, argumentIh]
  | pair first second firstIh secondIh =>
      rw [draft, AnnotatedTerm.erase, firstIh, secondIh]
  | proj1 argument ih => rw [draft, AnnotatedTerm.erase, ih]
  | proj2 argument ih => rw [draft, AnnotatedTerm.erase, ih]

theorem scoped_draft {term : Term} {context : Context} (count : Nat)
    (bound : term.freeOccurrences context.scope = []) :
    (term.draft context count).Scoped context := by
  induction term generalizing context count with
  | unit | hole => trivial
  | var name =>
      have inScope : name ∈ context.scope := by
        by_contra unbound
        simp [freeOccurrences, unbound] at bound
      obtain ⟨ty, found⟩ :=
        Option.isSome_iff_exists.mp (Context.isSome_lookup_iff.mpr inScope)
      rw [draft, found, Option.getD_some]
      exact found
  | abs binder body ih => exact ih (count + 1) bound
  | app applicant argument applicantIh argumentIh =>
      obtain ⟨applicantBound, argumentBound⟩ := List.append_eq_nil_iff.mp bound
      exact ⟨applicantIh _ applicantBound, argumentIh _ argumentBound⟩
  | pair first second firstIh secondIh =>
      obtain ⟨firstBound, secondBound⟩ := List.append_eq_nil_iff.mp bound
      exact ⟨firstIh _ firstBound, secondIh _ secondBound⟩
  | proj1 argument ih => exact ih count bound
  | proj2 argument ih => exact ih count bound

end Term

theorem AnnotatedTerm.Scoped.freeOccurrences_eq_nil {term : AnnotatedTerm}
    {context : Context} (inScope : term.Scoped context) :
    term.erase.freeOccurrences context.scope = [] := by
  induction term generalizing context with
  | unit | hole => rfl
  | var name ty =>
      have found : context.lookup name = some ty := inScope
      have bound : name ∈ context.scope :=
        Context.isSome_lookup_iff.mp (by rw [found]; rfl)
      simp [erase, Term.freeOccurrences, bound]
  | abs binder domain body ih => exact ih inScope
  | app applicant argument ty applicantIh argumentIh =>
      exact List.append_eq_nil_iff.mpr ⟨applicantIh inScope.1, argumentIh inScope.2⟩
  | pair first second ty firstIh secondIh =>
      exact List.append_eq_nil_iff.mpr ⟨firstIh inScope.1, secondIh inScope.2⟩
  | proj1 argument ty second ih => exact ih inScope
  | proj2 argument ty first ih => exact ih inScope

/-- Whether all type variables of a type come before the one that is drawn after
`bound` others. -/
def Ty.Below (bound : Nat) (ty : Ty) : Prop :=
  ∀ name ∈ ty.occurrences, name.index.toNat < bound

theorem Ty.Below.mono {bound larger : Nat} {ty : Ty} (below : ty.Below bound)
    (le : bound ≤ larger) : ty.Below larger :=
  fun name member => Nat.lt_of_lt_of_le (below name member) le

theorem Ty.below_drawn {count bound : Nat} (lt : count < bound) :
    (Ty.var (.drawn count)).Below bound := by
  intro name member
  obtain rfl : name = .drawn count := by simpa [occurrences] using member
  exact Nat.lt_of_le_of_lt (TypeVar.index_drawn_le count) lt

/-- Whether all type variables of a context come before the one that is drawn
after `bound` others. -/
def Context.Below (bound : Nat) (context : Context) : Prop :=
  ∀ entry ∈ context.entries, entry.2.Below bound

theorem Context.below_empty (bound : Nat) : Below bound .empty :=
  fun _ absent => nomatch absent

theorem Context.Below.mono {bound larger : Nat} {context : Context}
    (below : context.Below bound) (le : bound ≤ larger) : context.Below larger :=
  fun entry member => (below entry member).mono le

theorem Context.Below.extend {bound : Nat} {context : Context}
    (below : context.Below bound) (name : VarName) {ty : Ty}
    (tyBelow : ty.Below bound) : (context.extend name ty).Below bound := by
  intro entry member
  rcases List.mem_cons.mp member with rfl | member
  · exact tyBelow
  · exact below entry member

theorem Context.mem_entries_of_lookup {context : Context} {name : VarName} {ty : Ty}
    (found : context.lookup name = some ty) : (name, ty) ∈ context.entries := by
  simp only [lookup, ShadowList.get?, Option.map_eq_some_iff] at found
  obtain ⟨entry, found, rfl⟩ := found
  have same : entry.1 = name := by simpa using List.find?_some found
  exact same ▸ List.mem_of_find?_eq_some found

theorem Term.below_draft {term : Term} {context : Context} {count : Nat}
    (below : context.Below count) :
    ∀ ty ∈ (term.draft context count).types,
      ty.Below (count + term.typeVarCount) := by
  induction term generalizing context count with
  | unit => simp [draft, AnnotatedTerm.types]
  | var name =>
      simp only [draft, AnnotatedTerm.types, List.mem_singleton, forall_eq]
      cases found : context.lookup name with
      | none => simp [Ty.Below, Ty.occurrences]
      | some ty => exact below _ (Context.mem_entries_of_lookup found)
  | hole name =>
      simp only [draft, AnnotatedTerm.types, List.mem_singleton, forall_eq]
      exact Ty.below_drawn (by simp [typeVarCount])
  | abs binder body ih =>
      have domain : (Ty.var (.drawn count)).Below (count + 1) :=
        Ty.below_drawn (Nat.lt_succ_self count)
      have inner := ih ((below.mono (Nat.le_succ count)).extend binder.name domain)
      simp only [draft, AnnotatedTerm.types, List.forall_mem_cons, typeVarCount]
      exact ⟨domain.mono (by omega), fun ty member => (inner ty member).mono (by omega)⟩
  | app applicant argument applicantIh argumentIh =>
      have left := applicantIh below
      have right := argumentIh (below.mono (Nat.le_add_right count applicant.typeVarCount))
      simp only [draft, AnnotatedTerm.types, List.forall_mem_cons,
        List.forall_mem_append, typeVarCount]
      exact ⟨Ty.below_drawn (by omega),
        fun ty member => (left ty member).mono (by omega),
        fun ty member => (right ty member).mono (by omega)⟩
  | pair first second firstIh secondIh =>
      have left := firstIh below
      have right := secondIh (below.mono (Nat.le_add_right count first.typeVarCount))
      simp only [draft, AnnotatedTerm.types, List.forall_mem_cons,
        List.forall_mem_append, typeVarCount]
      exact ⟨Ty.below_drawn (by omega),
        fun ty member => (left ty member).mono (by omega),
        fun ty member => (right ty member).mono (by omega)⟩
  | proj1 argument ih =>
      simp only [draft, AnnotatedTerm.types, List.forall_mem_cons, typeVarCount]
      exact ⟨Ty.below_drawn (by omega), Ty.below_drawn (by omega),
        fun ty member => (ih below ty member).mono (by omega)⟩
  | proj2 argument ih =>
      simp only [draft, AnnotatedTerm.types, List.forall_mem_cons, typeVarCount]
      exact ⟨Ty.below_drawn (by omega), Ty.below_drawn (by omega),
        fun ty member => (ih below ty member).mono (by omega)⟩

/-! ## Every annotation is an instance of the draft -/

/-- Whether two assignments agree on the first `bound` type variables. -/
def AgreeBelow (bound : Nat) (left right : Assignment) : Prop :=
  ∀ name : TypeVar, name.index.toNat < bound → left name = right name

namespace AgreeBelow

variable {bound : Nat} {left middle right : Assignment}

theorem trans (first : AgreeBelow bound left middle)
    (second : AgreeBelow bound middle right) : AgreeBelow bound left right :=
  fun name below => (first name below).trans (second name below)

theorem mono {smaller : Nat} (agree : AgreeBelow bound left right)
    (le : smaller ≤ bound) : AgreeBelow smaller left right :=
  fun name below => agree name (Nat.lt_of_lt_of_le below le)

/-- A choice for a type variable that is not drawn yet disturbs no earlier one. -/
theorem update {count : Nat} (small : count < UInt32.size) (assignment : Assignment)
    (ty : Ty) :
    AgreeBelow count (Function.update assignment (.drawn count) ty) assignment := by
  intro name below
  have differs : name ≠ .drawn count := by
    rintro rfl
    rw [TypeVar.index_drawn small] at below
    exact Nat.lt_irrefl count below
  exact Function.update_of_ne differs ty assignment

theorem instantiate_ty {ty : Ty} (agree : AgreeBelow bound left right)
    (below : ty.Below bound) : ty.instantiate left = ty.instantiate right :=
  Ty.instantiate_congr fun name member => agree name (below name member)

theorem instantiate_context {context : Context} (agree : AgreeBelow bound left right)
    (below : context.Below bound) :
    context.instantiate left = context.instantiate right := by
  simp only [Context.instantiate, ShadowList.mk.injEq]
  apply List.map_congr_left
  intro entry member
  rw [agree.instantiate_ty (below entry member)]

theorem instantiate_draft {term : Term} {context : Context} {count : Nat}
    (agree : AgreeBelow bound left right) (below : context.Below count)
    (le : count + term.typeVarCount ≤ bound) :
    (term.draft context count).instantiate left =
      (term.draft context count).instantiate right := by
  apply AnnotatedTerm.instantiate_congr
  intro ty stored name occurs
  have drawn := Term.below_draft below ty stored name occurs
  exact agree name (by omega)

end AgreeBelow

/-- Choices for two parts that are annotated one after the other fit together, and
with any choice for the type variable that is drawn after both. -/
theorem exists_instance_drafts {context : Context} {count : Nat}
    {assignment : Assignment} {left right : AnnotatedTerm} (ty : Ty)
    (below : context.Below count)
    (enough : count + left.erase.typeVarCount + right.erase.typeVarCount < UInt32.size)
    (leftInstance : ∃ chosen, AgreeBelow count chosen assignment ∧
      (left.erase.draft context count).instantiate chosen = left)
    (rightInstance : ∀ chosen,
      context.instantiate chosen = context.instantiate assignment →
      ∃ extended, AgreeBelow (count + left.erase.typeVarCount) extended chosen ∧
        (right.erase.draft context (count + left.erase.typeVarCount)).instantiate
          extended = right) :
    ∃ extended, AgreeBelow count extended assignment ∧
      (left.erase.draft context count).instantiate extended = left ∧
      (right.erase.draft context (count + left.erase.typeVarCount)).instantiate
        extended = right ∧
      extended (.drawn (count + left.erase.typeVarCount + right.erase.typeVarCount)) =
        ty := by
  obtain ⟨chosen, agree, leftEqual⟩ := leftInstance
  obtain ⟨middle, middleAgree, rightEqual⟩ :=
    rightInstance chosen (agree.instantiate_context below)
  have lastAgree := AgreeBelow.update enough middle ty
  refine ⟨Function.update middle _ ty, ?_, ?_, ?_, Function.update_self _ _ _⟩
  · exact ((lastAgree.mono (by omega)).trans
      (middleAgree.mono (Nat.le_add_right _ _))).trans agree
  · rw [lastAgree.instantiate_draft below (by omega),
      middleAgree.instantiate_draft below (Nat.le_refl _), leftEqual]
  · rw [lastAgree.instantiate_draft (below.mono (Nat.le_add_right _ _)) (by omega),
      rightEqual]

/-- Choices for a part fit together with any choices for the two type variables
that are drawn after it. -/
theorem exists_instance_projection {context : Context} {count : Nat}
    {assignment : Assignment} {argument : AnnotatedTerm} (first second : Ty)
    (below : context.Below count)
    (enough : count + argument.erase.typeVarCount + 1 < UInt32.size)
    (argumentInstance : ∃ chosen, AgreeBelow count chosen assignment ∧
      (argument.erase.draft context count).instantiate chosen = argument) :
    ∃ extended, AgreeBelow count extended assignment ∧
      (argument.erase.draft context count).instantiate extended = argument ∧
      extended (.drawn (count + argument.erase.typeVarCount)) = first ∧
      extended (.drawn (count + argument.erase.typeVarCount + 1)) = second := by
  obtain ⟨chosen, agree, argumentEqual⟩ := argumentInstance
  let next := count + argument.erase.typeVarCount
  have agreeNext := AgreeBelow.update (show next < UInt32.size by omega) chosen first
  have agreeLast := AgreeBelow.update enough
    (Function.update chosen (.drawn next) first) second
  refine ⟨Function.update (Function.update chosen (.drawn next) first)
    (.drawn (next + 1)) second, ?_, ?_, ?_, Function.update_self _ _ _⟩
  · exact ((agreeLast.mono (by omega)).trans (agreeNext.mono (by omega))).trans agree
  · rw [agreeLast.instantiate_draft below (by omega),
      agreeNext.instantiate_draft below (by omega), argumentEqual]
  · rw [agreeLast _ (Nat.lt_succ_of_le (TypeVar.index_drawn_le next)),
      Function.update_self]

/-- The choices for the type variables of a node are made after those for its
parts, which they leave as they are. -/
theorem AnnotatedTerm.Scoped.exists_instance_draft {annotated : AnnotatedTerm}
    {context : Context} {count : Nat} {assignment : Assignment}
    (inScope : annotated.Scoped (context.instantiate assignment))
    (below : context.Below count)
    (enough : count + annotated.erase.typeVarCount ≤ UInt32.size) :
    ∃ extended, AgreeBelow count extended assignment ∧
      (annotated.erase.draft context count).instantiate extended = annotated := by
  induction annotated generalizing context count assignment with
  | unit => exact ⟨assignment, fun _ _ => rfl, rfl⟩
  | var name ty =>
      have found : (context.instantiate assignment).lookup name = some ty := inScope
      rw [Context.lookup_instantiate, Option.map_eq_some_iff] at found
      obtain ⟨stored, found, rfl⟩ := found
      refine ⟨assignment, fun _ _ => rfl, ?_⟩
      simp only [erase, Term.draft, found, Option.getD_some, AnnotatedTerm.instantiate]
  | hole name ty =>
      simp only [erase, Term.typeVarCount] at enough
      refine ⟨Function.update assignment (.drawn count) ty,
        AgreeBelow.update (by omega) assignment ty, ?_⟩
      simp only [erase, Term.draft, AnnotatedTerm.instantiate, Ty.instantiate_var,
        Function.update_self]
  | abs binder domain body ih =>
      simp only [erase, Term.typeVarCount] at enough
      let chosen := Function.update assignment (.drawn count) domain
      have agree : AgreeBelow count chosen assignment :=
        AgreeBelow.update (by omega) assignment domain
      have drawn : chosen (.drawn count) = domain := Function.update_self _ _ _
      have bodyContext :
          (context.extend binder.name (.var (.drawn count))).instantiate chosen =
            (context.instantiate assignment).extend binder.name domain := by
        rw [Context.instantiate_extend, agree.instantiate_context below,
          Ty.instantiate_var, drawn]
      have bodyBelow := (below.mono (Nat.le_succ count)).extend binder.name
        (Ty.below_drawn (Nat.lt_succ_self count))
      have bodyInScope : body.Scoped
          ((context.extend binder.name (.var (.drawn count))).instantiate chosen) := by
        rw [bodyContext]
        exact inScope
      obtain ⟨extended, bodyAgree, bodyEqual⟩ := ih bodyInScope bodyBelow (by omega)
      have domainEqual : extended (.drawn count) = domain := by
        rw [← drawn]
        exact bodyAgree _ (Nat.lt_succ_of_le (TypeVar.index_drawn_le count))
      refine ⟨extended, (bodyAgree.mono (Nat.le_succ count)).trans agree, ?_⟩
      simp only [erase, Term.draft, AnnotatedTerm.instantiate, Ty.instantiate_var,
        domainEqual, bodyEqual]
  | app applicant argument ty applicantIh argumentIh =>
      simp only [erase, Term.typeVarCount] at enough
      obtain ⟨extended, agree, applicantEqual, argumentEqual, tyEqual⟩ :=
        exists_instance_drafts ty below (by omega)
          (applicantIh inScope.1 below (by omega))
          fun chosen sameContext => argumentIh (sameContext ▸ inScope.2)
            (below.mono (Nat.le_add_right _ _)) (by omega)
      refine ⟨extended, agree, ?_⟩
      simp only [erase, Term.draft, AnnotatedTerm.instantiate, Ty.instantiate_var,
        applicantEqual, argumentEqual, tyEqual]
  | pair first second ty firstIh secondIh =>
      simp only [erase, Term.typeVarCount] at enough
      obtain ⟨extended, agree, firstEqual, secondEqual, tyEqual⟩ :=
        exists_instance_drafts ty below (by omega)
          (firstIh inScope.1 below (by omega))
          fun chosen sameContext => secondIh (sameContext ▸ inScope.2)
            (below.mono (Nat.le_add_right _ _)) (by omega)
      refine ⟨extended, agree, ?_⟩
      simp only [erase, Term.draft, AnnotatedTerm.instantiate, Ty.instantiate_var,
        firstEqual, secondEqual, tyEqual]
  | proj1 argument ty second ih =>
      simp only [erase, Term.typeVarCount] at enough
      obtain ⟨extended, agree, argumentEqual, tyEqual, secondEqual⟩ :=
        exists_instance_projection ty second below (by omega)
          (ih inScope below (by omega))
      refine ⟨extended, agree, ?_⟩
      simp only [erase, Term.draft, AnnotatedTerm.instantiate, Ty.instantiate_var,
        argumentEqual, tyEqual, secondEqual]
  | proj2 argument ty first ih =>
      simp only [erase, Term.typeVarCount] at enough
      obtain ⟨extended, agree, argumentEqual, tyEqual, firstEqual⟩ :=
        exists_instance_projection ty first below (by omega)
          (ih inScope below (by omega))
      refine ⟨extended, agree, ?_⟩
      simp only [erase, Term.draft, AnnotatedTerm.instantiate, Ty.instantiate_var,
        argumentEqual, tyEqual, firstEqual]

end TypedHoles
