import Mathlib.Data.List.Pairwise
import TypedHoles.Proofs.Sketches

/-!
# Plugging parts into all holes

Plugging replaces every hole of a program by a part of its own, all at once.  Filling
one hole and renaming the holes are both of this kind, and plugging twice is plugging
once, so that what several steps make of a program is read off one choice of parts.
-/

namespace TypedHoles

namespace Term

/-- Replace every hole by the part that is chosen for its name. -/
def plug (parts : HoleName → Term) : Term → Term
  | unit => unit
  | var name => var name
  | abs binder body => abs binder (body.plug parts)
  | app applicant argument => app (applicant.plug parts) (argument.plug parts)
  | pair first second => pair (first.plug parts) (second.plug parts)
  | proj1 argument => proj1 (argument.plug parts)
  | proj2 argument => proj2 (argument.plug parts)
  | hole name => parts name

section Plug

variable {parts others : HoleName → Term}

/-- Only the parts for the holes that occur matter. -/
theorem plug_congr {term : Term}
    (agree : ∀ name ∈ term.holes, parts name = others name) :
    term.plug parts = term.plug others := by
  induction term with
  | unit | var => rfl
  | hole name => exact agree name (by simp)
  | abs binder body ih => rw [plug, plug, ih (by simpa using agree)]
  | app applicant argument applicantIh argumentIh =>
      simp only [holes_app, List.forall_mem_append] at agree
      rw [plug, plug, applicantIh agree.1, argumentIh agree.2]
  | pair first second firstIh secondIh =>
      simp only [holes_pair, List.forall_mem_append] at agree
      rw [plug, plug, firstIh agree.1, secondIh agree.2]
  | proj1 argument ih => rw [plug, plug, ih (by simpa using agree)]
  | proj2 argument ih => rw [plug, plug, ih (by simpa using agree)]

@[simp]
theorem plug_self (term : Term) : term.plug hole = term := by
  induction term with
  | unit | var | hole => rfl
  | abs binder body ih => rw [plug, ih]
  | app applicant argument applicantIh argumentIh =>
      rw [plug, applicantIh, argumentIh]
  | pair first second firstIh secondIh => rw [plug, firstIh, secondIh]
  | proj1 argument ih => rw [plug, ih]
  | proj2 argument ih => rw [plug, ih]

theorem plug_plug (term : Term) (parts others : HoleName → Term) :
    (term.plug parts).plug others = term.plug fun name => (parts name).plug others := by
  induction term with
  | unit | var | hole => rfl
  | abs binder body ih => simp only [plug, ih]
  | app applicant argument applicantIh argumentIh =>
      simp only [plug, applicantIh, argumentIh]
  | pair first second firstIh secondIh => simp only [plug, firstIh, secondIh]
  | proj1 argument ih => simp only [plug, ih]
  | proj2 argument ih => simp only [plug, ih]

theorem holes_plug (term : Term) (parts : HoleName → Term) :
    (term.plug parts).holes = term.holes.flatMap fun name => (parts name).holes := by
  induction term with
  | unit | var => rfl
  | hole name => simp [plug]
  | abs binder body ih => simp [plug, ih]
  | app applicant argument applicantIh argumentIh =>
      simp [plug, applicantIh, argumentIh]
  | pair first second firstIh secondIh => simp [plug, firstIh, secondIh]
  | proj1 argument ih => simp [plug, ih]
  | proj2 argument ih => simp [plug, ih]

theorem disjoint_holes_of_nodup_plug {term : Term}
    (distinct : (term.plug parts).holes.Nodup) {left right : HoleName}
    (leftMember : left ∈ term.holes) (rightMember : right ∈ term.holes)
    (differ : left ≠ right) : (parts left).holes.Disjoint (parts right).holes := by
  have symmetric : Std.Symm (Function.onFun List.Disjoint fun name => (parts name).holes) :=
    ⟨fun _ _ => List.Disjoint.symm⟩
  rw [holes_plug, List.nodup_flatMap] at distinct
  exact distinct.2.forall leftMember rightMember differ

theorem mapHoles_eq_plug (rename : HoleName → HoleName) (term : Term) :
    term.mapHoles rename = term.plug fun name => hole (rename name) := by
  induction term with
  | unit | var | hole => rfl
  | abs binder body ih => rw [mapHoles, plug, ih]
  | app applicant argument applicantIh argumentIh =>
      rw [mapHoles, plug, applicantIh, argumentIh]
  | pair first second firstIh secondIh => rw [mapHoles, plug, firstIh, secondIh]
  | proj1 argument ih => rw [mapHoles, plug, ih]
  | proj2 argument ih => rw [mapHoles, plug, ih]

theorem mem_vars_plug {term : Term} {name : VarName} :
    name ∈ (term.plug parts).vars ↔
      name ∈ term.vars ∨ ∃ hole ∈ term.holes, name ∈ (parts hole).vars := by
  induction term with
  | unit | var => simp [plug]
  | hole other => simp [plug]
  | abs binder body ih => simp [plug, ih, or_assoc]
  | app applicant argument applicantIh argumentIh =>
      simp only [plug, vars_app, holes_app, List.mem_append, applicantIh, argumentIh,
        or_and_right, exists_or]
      exact or_or_or_comm
  | pair first second firstIh secondIh =>
      simp only [plug, vars_pair, holes_pair, List.mem_append, firstIh, secondIh,
        or_and_right, exists_or]
      exact or_or_or_comm
  | proj1 argument ih => simp [plug, ih]
  | proj2 argument ih => simp [plug, ih]

/-- A variable in a hole of a closed program is bound by the program around it. -/
theorem mem_vars_of_closed_plug {term : Term} {scope : List VarName}
    (closed : (term.plug parts).freeOccurrences scope = []) {name : HoleName}
    (member : name ∈ term.holes) {mentioned : VarName}
    (isVar : parts name = var mentioned) : mentioned ∈ scope ∨ mentioned ∈ term.vars := by
  induction term generalizing scope with
  | unit | var => simp at member
  | hole other =>
      obtain rfl : name = other := by simpa using member
      left
      by_contra free
      simp [plug, isVar, freeOccurrences, free] at closed
  | abs binder body ih =>
      have inside := ih closed (by simpa using member)
      simpa [or_assoc, or_left_comm] using inside
  | app applicant argument applicantIh argumentIh =>
      obtain ⟨applicantClosed, argumentClosed⟩ := List.append_eq_nil_iff.mp closed
      rw [vars_app, List.mem_append]
      rcases List.mem_append.mp (holes_app applicant argument ▸ member) with inside | inside
      · exact (applicantIh applicantClosed inside).imp_right .inl
      · exact (argumentIh argumentClosed inside).imp_right .inr
  | pair first second firstIh secondIh =>
      obtain ⟨firstClosed, secondClosed⟩ := List.append_eq_nil_iff.mp closed
      rw [vars_pair, List.mem_append]
      rcases List.mem_append.mp (holes_pair first second ▸ member) with inside | inside
      · exact (firstIh firstClosed inside).imp_right .inl
      · exact (secondIh secondClosed inside).imp_right .inr
  | proj1 argument ih => exact ih closed (by simpa using member)
  | proj2 argument ih => exact ih closed (by simpa using member)

/-- Parts that have more types give a program that has more types. -/
theorem HasType.plug_of_imp {term : Term} {context : Context} {ty : Ty}
    (typed : (term.plug parts).HasType context ty)
    (weaker : ∀ name ∈ term.holes, ∀ context ty,
      (parts name).HasType context ty → (others name).HasType context ty) :
    (term.plug others).HasType context ty := by
  induction term generalizing context ty with
  | unit | var => exact typed
  | hole name => exact weaker name (by simp) context ty typed
  | abs binder body ih =>
      cases typed with
      | abs inner => exact .abs (ih inner (by simpa using weaker))
  | app applicant argument applicantIh argumentIh =>
      simp only [holes_app, List.forall_mem_append] at weaker
      cases typed with
      | app function input =>
          exact .app (applicantIh function weaker.1) (argumentIh input weaker.2)
  | pair first second firstIh secondIh =>
      simp only [holes_pair, List.forall_mem_append] at weaker
      cases typed with
      | pair left right => exact .pair (firstIh left weaker.1) (secondIh right weaker.2)
  | proj1 argument ih =>
      cases typed with
      | proj1 both => exact .proj1 (ih both (by simpa using weaker))
  | proj2 argument ih =>
      cases typed with
      | proj2 both => exact .proj2 (ih both (by simpa using weaker))

end Plug

/-! ## Filling one hole -/

theorem plug_of_not_mem {name : HoleName} {term : Term} (absent : name ∉ term.holes)
    (fragment : Term) :
    (term.plug fun other => if other = name then fragment else hole other) = term := by
  rw [plug_congr fun other member => if_neg (ne_of_mem_of_not_mem member absent), plug_self]

/-- Filling a hole that occurs once plugs the fragment into it and leaves the other
holes as they are. -/
theorem Fills.eq_plug {name : HoleName} {fragment term filled : Term}
    (fills : Fills name fragment term filled) (distinct : term.holes.Nodup) :
    filled = term.plug fun other => if other = name then fragment else hole other := by
  induction fills with
  | here => simp [plug]
  | abs binder _ ih => rw [plug, ← ih (by simpa using distinct)]
  | applicant inner argument ih =>
      rw [holes_app] at distinct
      have absent := List.disjoint_of_nodup_append distinct inner.mem_holes
      rw [plug, ← ih distinct.of_append_left, plug_of_not_mem absent]
  | argument applicant inner ih =>
      rw [holes_app] at distinct
      have absent : name ∉ applicant.holes := fun member =>
        List.disjoint_of_nodup_append distinct member inner.mem_holes
      rw [plug, ← ih distinct.of_append_right, plug_of_not_mem absent]
  | first inner second ih =>
      rw [holes_pair] at distinct
      have absent := List.disjoint_of_nodup_append distinct inner.mem_holes
      rw [plug, ← ih distinct.of_append_left, plug_of_not_mem absent]
  | second first inner ih =>
      rw [holes_pair] at distinct
      have absent : name ∉ first.holes := fun member =>
        List.disjoint_of_nodup_append distinct member inner.mem_holes
      rw [plug, ← ih distinct.of_append_right, plug_of_not_mem absent]
  | proj1 _ ih => rw [plug, ← ih (by simpa using distinct)]
  | proj2 _ ih => rw [plug, ← ih (by simpa using distinct)]

/-! ## Outlines -/

/-- The term with the names of its holes forgotten. -/
def outline (term : Term) : Term :=
  term.mapHoles fun _ => ⟨0⟩

@[simp]
theorem outline_hole (name : HoleName) : (hole name).outline = hole ⟨0⟩ :=
  rfl

@[simp]
theorem vars_outline (term : Term) : term.outline.vars = term.vars :=
  vars_mapHoles _ term

theorem length_holes_outline (term : Term) :
    term.outline.holes.length = term.holes.length := by
  rw [outline, holes_mapHoles, List.length_map]

theorem outline_plug (term : Term) (parts : HoleName → Term) :
    (term.plug parts).outline = term.plug fun name => (parts name).outline := by
  simp only [outline, mapHoles_eq_plug, plug_plug]

@[simp]
theorem outline_mapHoles (rename : HoleName → HoleName) (term : Term) :
    (term.mapHoles rename).outline = term.outline := by
  rw [mapHoles_eq_plug, outline_plug, outline, mapHoles_eq_plug]
  rfl

/-- Plugging holes into holes does not change the outline. -/
theorem outline_plug_holes {term : Term} {parts : HoleName → Term}
    (onlyHoles : ∀ name ∈ term.holes, (parts name).outline = hole ⟨0⟩) :
    (term.plug parts).outline = term.outline := by
  rw [outline_plug, plug_congr onlyHoles, outline, mapHoles_eq_plug]

theorem eq_var_of_outline {term : Term} {name : VarName}
    (isVar : term.outline = var name) : term = var name := by
  cases term with
  | var other => exact isVar
  | _ => simp [outline, mapHoles] at isVar

/-- A term is determined by its outline and its holes. -/
theorem eq_of_outline {left right : Term} (outlines : left.outline = right.outline)
    (holes : left.holes = right.holes) : left = right := by
  induction left generalizing right with
  | unit | var => cases right <;> simp_all [outline, mapHoles]
  | hole name => cases right <;> simp_all [outline, mapHoles]
  | abs binder body ih =>
      cases right with
      | abs otherBinder otherBody =>
          obtain ⟨rfl, bodies⟩ := Term.abs.inj outlines
          rw [ih bodies (by simpa using holes)]
      | _ => simp [outline, mapHoles] at outlines
  | app applicant argument applicantIh argumentIh =>
      cases right with
      | app otherApplicant otherArgument =>
          obtain ⟨applicants, arguments⟩ := Term.app.inj outlines
          rw [holes_app, holes_app] at holes
          obtain ⟨applicantHoles, argumentHoles⟩ := List.append_inj holes (by
            rw [← length_holes_outline applicant, outline, applicants]
            exact length_holes_outline otherApplicant)
          rw [applicantIh applicants applicantHoles, argumentIh arguments argumentHoles]
      | _ => simp [outline, mapHoles] at outlines
  | pair first second firstIh secondIh =>
      cases right with
      | pair otherFirst otherSecond =>
          obtain ⟨firsts, seconds⟩ := Term.pair.inj outlines
          rw [holes_pair, holes_pair] at holes
          obtain ⟨firstHoles, secondHoles⟩ := List.append_inj holes (by
            rw [← length_holes_outline first, outline, firsts]
            exact length_holes_outline otherFirst)
          rw [firstIh firsts firstHoles, secondIh seconds secondHoles]
      | _ => simp [outline, mapHoles] at outlines
  | proj1 argument ih =>
      cases right with
      | proj1 other => rw [ih (Term.proj1.inj outlines) (by simpa using holes)]
      | _ => simp [outline, mapHoles] at outlines
  | proj2 argument ih =>
      cases right with
      | proj2 other => rw [ih (Term.proj2.inj outlines) (by simpa using holes)]
      | _ => simp [outline, mapHoles] at outlines

/-! ## Binders -/

@[simp]
theorem binders_unit : unit.binders = [] :=
  rfl

@[simp]
theorem binders_var (name : VarName) : (var name).binders = [] :=
  rfl

@[simp]
theorem binders_hole (name : HoleName) : (hole name).binders = [] :=
  rfl

@[simp]
theorem binders_abs (binder : Binder) (body : Term) :
    (abs binder body).binders = binder :: body.binders :=
  rfl

@[simp]
theorem binders_app (applicant argument : Term) :
    (app applicant argument).binders = applicant.binders ++ argument.binders := by
  simp [binders, preorder, List.filterMap_cons, binder?]

@[simp]
theorem binders_pair (first second : Term) :
    (pair first second).binders = first.binders ++ second.binders := by
  simp [binders, preorder, List.filterMap_cons, binder?]

@[simp]
theorem binders_proj1 (argument : Term) : (proj1 argument).binders = argument.binders :=
  rfl

@[simp]
theorem binders_proj2 (argument : Term) : (proj2 argument).binders = argument.binders :=
  rfl

/-- The binders are those of the program and those of its parts. -/
theorem binders_plug_perm (term : Term) (parts : HoleName → Term) :
    (term.plug parts).binders.Perm
      (term.binders ++ term.holes.flatMap fun name => (parts name).binders) := by
  induction term with
  | unit | var => exact .nil
  | hole name => simp [plug]
  | abs binder body ih => simpa [plug] using ih
  | app applicant argument applicantIh argumentIh =>
      simp only [plug, binders_app, holes_app, List.flatMap_append]
      exact (applicantIh.append argumentIh).trans (by grind)
  | pair first second firstIh secondIh =>
      simp only [plug, binders_pair, holes_pair, List.flatMap_append]
      exact (firstIh.append secondIh).trans (by grind)
  | proj1 argument ih => simpa [plug] using ih
  | proj2 argument ih => simpa [plug] using ih

theorem binders_outline_perm (term : Term) : term.outline.binders.Perm term.binders := by
  have plugged := term.binders_plug_perm fun _ => hole ⟨0⟩
  have noBinders : (term.holes.flatMap fun _ => (hole ⟨0⟩).binders) = [] := by simp
  rw [noBinders, List.append_nil] at plugged
  rwa [outline, mapHoles_eq_plug]

end Term

end TypedHoles
