import TypedHoles.Candidates
import TypedHoles.Proofs.HoleFilling

/-!
# Putting actions into holes

An action is put into a hole as a fragment whose holes are new.  Whether the
names suffice for this depends on the action and the program, but not on the
hole.  If they do, the check on a copy of the program says whether the fragment
has the type of the hole.
-/

namespace TypedHoles

/-! ## Renumbering holes -/

namespace Term

variable {rename : HoleName → HoleName}

@[simp]
theorem typeVarCount_mapHoles (term : Term) :
    (term.mapHoles rename).typeVarCount = term.typeVarCount := by
  induction term with
  | unit | var | hole => rfl
  | abs binder body ih => simp only [mapHoles, typeVarCount, ih]
  | app applicant argument applicantIh argumentIh =>
      simp only [mapHoles, typeVarCount, applicantIh, argumentIh]
  | pair first second firstIh secondIh =>
      simp only [mapHoles, typeVarCount, firstIh, secondIh]
  | proj1 argument ih => simp only [mapHoles, typeVarCount, ih]
  | proj2 argument ih => simp only [mapHoles, typeVarCount, ih]

@[simp]
theorem freeOccurrences_mapHoles (term : Term) (scope : List VarName) :
    (term.mapHoles rename).freeOccurrences scope = term.freeOccurrences scope := by
  induction term generalizing scope with
  | unit | var | hole => rfl
  | abs binder body ih => simp only [mapHoles, freeOccurrences, ih]
  | app applicant argument applicantIh argumentIh =>
      simp only [mapHoles, freeOccurrences, applicantIh, argumentIh]
  | pair first second firstIh secondIh =>
      simp only [mapHoles, freeOccurrences, firstIh, secondIh]
  | proj1 argument ih => simp only [mapHoles, freeOccurrences, ih]
  | proj2 argument ih => simp only [mapHoles, freeOccurrences, ih]

theorem HasType.mapHoles {term : Term} {context : Context} {ty : Ty}
    (typed : term.HasType context ty) : (term.mapHoles rename).HasType context ty := by
  induction typed with
  | unit => exact .unit
  | var found => exact .var found
  | hole => exact .hole
  | abs _ ih => exact .abs ih
  | app _ _ functionIh inputIh => exact .app functionIh inputIh
  | pair _ _ leftIh rightIh => exact .pair leftIh rightIh
  | proj1 _ ih => exact .proj1 ih
  | proj2 _ ih => exact .proj2 ih

/-- The typing rules do not look at the names of holes. -/
theorem hasType_mapHoles_iff {term : Term} {context : Context} {ty : Ty} :
    (term.mapHoles rename).HasType context ty ↔ term.HasType context ty := by
  refine ⟨fun typed => ?_, HasType.mapHoles⟩
  induction term generalizing context ty with
  | unit | var => exact typed
  | hole name => exact .hole
  | abs binder body ih =>
      cases typed with
      | abs inner => exact .abs (ih inner)
  | app applicant argument applicantIh argumentIh =>
      cases typed with
      | app function input => exact .app (applicantIh function) (argumentIh input)
  | pair first second firstIh secondIh =>
      cases typed with
      | pair left right => exact .pair (firstIh left) (secondIh right)
  | proj1 argument ih =>
      cases typed with
      | proj1 both => exact .proj1 (ih both)
  | proj2 argument ih =>
      cases typed with
      | proj2 both => exact .proj2 (ih both)

theorem exists_infer_mapHoles_iff {term : Term} :
    (∃ inference, infer (term.mapHoles rename) = .ok inference) ↔
      ∃ inference, infer term = .ok inference := by
  simp only [exists_infer_iff, typeVarCount_mapHoles, hasType_mapHoles_iff]

theorem length_holes_le_typeVarCount (term : Term) :
    term.holes.length ≤ term.typeVarCount := by
  induction term with
  | unit | var | hole => simp [typeVarCount]
  | abs binder body ih =>
      simp only [holes_abs, typeVarCount]
      omega
  | app applicant argument applicantIh argumentIh =>
      simp only [holes_app, List.length_append, typeVarCount]
      omega
  | pair first second firstIh secondIh =>
      simp only [holes_pair, List.length_append, typeVarCount]
      omega
  | proj1 argument ih =>
      simp only [holes_proj1, typeVarCount]
      omega
  | proj2 argument ih =>
      simp only [holes_proj2, typeVarCount]
      omega

end Term

theorem Numbering.length_seen_see_le {kind : NameKind} (numbering : Numbering kind)
    (names : List (Name kind)) :
    (numbering.see names).seen.length ≤ numbering.seen.length + names.length := by
  induction names generalizing numbering with
  | nil => simp
  | cons name names ih =>
      have later := ih (numbering.see [name])
      rw [see_cons, List.length_cons]
      by_cases member : name ∈ numbering.seen
      · rw [see_singleton_of_mem member] at later ⊢
        omega
      · rw [see_singleton_of_not_mem member, List.length_append,
          List.length_singleton] at later
        omega

theorem Term.fits_holeNumbering {term : Term}
    (few : term.typeVarCount < UInt32.size) : term.holeNumbering.Fits := by
  have seen := Numbering.empty.length_seen_see_le term.holes
  have holes := term.length_holes_le_typeVarCount
  have empty : (Numbering.empty : Numbering .hole).seen.length = 0 := rfl
  show (Numbering.empty.see term.holes).seen.length < UInt32.size
  omega

/-! ## Fresh names -/

instance Name.lawfulOrderSup {kind : NameKind} : Std.LawfulOrderSup (Name kind) where
  max_le_iff first second bound := by
    change (if first ≤ second then second else first) ≤ bound ↔ _
    simp only [Name.le_iff_toNat]
    split <;> omega

instance Name.maxEqOr {kind : NameKind} : Std.MaxEqOr (Name kind) where
  max_eq_or first second := by
    change (if first ≤ second then second else first) = first ∨
      (if first ≤ second then second else first) = second
    split
    · exact .inr rfl
    · exact .inl rfl

namespace NameSupply

variable {kind : NameKind} {names : List (Name kind)} {supply : NameSupply kind}

/-- A supply begins right after the largest name. -/
theorem count_le_iff (after : NameSupply.after names.max? = .ok supply) {bound : Nat} :
    supply.count ≤ bound ↔ ∀ name ∈ names, name.index.toNat < bound := by
  cases greatest : names.max? with
  | none =>
      rw [greatest] at after
      obtain rfl := Except.ok.inj after
      rw [List.max?_eq_none_iff.mp greatest]
      exact iff_of_true (Nat.zero_le bound) (by simp)
  | some largest =>
      rw [greatest, NameSupply.after] at after
      cases following : largest.succ? with
      | error reason => simp [following, Except.map] at after
      | ok next =>
          obtain rfl : NameSupply.mk next = supply := by
            simpa [following, Except.map] using after
          rw [count, Name.succ?_eq_ok_iff.mp following]
          constructor
          · intro small name member
            have le : name ≤ largest := (List.max?_le_iff greatest).mp
              (Name.le_iff_toNat.mpr (Nat.le_refl _)) name member
            rw [Name.le_iff_toNat] at le
            omega
          · intro below
            exact below largest (List.max?_mem greatest)

theorem lt_count_of_after (after : NameSupply.after names.max? = .ok supply) :
    ∀ name ∈ names, name.index.toNat < supply.count :=
  (count_le_iff after).mp (Nat.le_refl _)

end NameSupply

theorem Term.after_of_supplies {term : Term} {supplies : Supplies}
    (supplied : term.supplies = .ok supplies) :
    NameSupply.after term.maxVar? = .ok supplies.vars ∧
      NameSupply.after term.maxHole? = .ok supplies.holes := by
  cases vars : NameSupply.after term.maxVar? with
  | error reason => simp [Term.supplies, vars, bind, Except.bind] at supplied
  | ok varSupply =>
      cases holes : NameSupply.after term.maxHole? with
      | error reason => simp [Term.supplies, vars, holes, bind, Except.bind] at supplied
      | ok holeSupply =>
          obtain rfl : Supplies.mk varSupply holeSupply = supplies := by
            simpa [Term.supplies, vars, holes, bind, Except.bind, pure, Except.pure]
              using supplied
          exact ⟨rfl, rfl⟩

theorem Term.lt_count_of_supplies {term : Term} {supplies : Supplies}
    (supplied : term.supplies = .ok supplies) :
    ∀ hole ∈ term.holes, hole.index.toNat < supplies.holes.count :=
  NameSupply.lt_count_of_after (after_of_supplies supplied).2

/-! ## Fragments -/

namespace Draw

theorem run_bind_eq_ok {α β : Type} {computation : Draw α} {rest : α → Draw β}
    {supplies after : Supplies} {result : β}
    (run : (computation >>= rest).run supplies = .ok result after) :
    ∃ value middle, computation.run supplies = .ok value middle ∧
      (rest value).run middle = .ok result after := by
  rw [EStateM.run_bind] at run
  cases first : computation.run supplies with
  | ok value middle => exact ⟨value, middle, rfl, by simpa [first] using run⟩
  | error reason middle => simp [first] at run

theorem freshHole_run_eq_ok {supplies after : Supplies} {term : Term}
    (run : freshHole.run supplies = .ok term after) :
    ∃ name, term = .hole name ∧ name.index.toNat = supplies.holes.count ∧
      after.holes.count = supplies.holes.count + 1 := by
  simp only [EStateM.run, freshHole] at run
  cases drawn : supplies.holes.fresh with
  | error reason => simp [drawn] at run
  | ok result =>
      obtain ⟨name, holes⟩ := result
      obtain ⟨rfl, count⟩ := NameSupply.fresh_eq_ok_iff.mp drawn
      simp only [drawn, EStateM.Result.ok.injEq] at run
      obtain ⟨rfl, rfl⟩ := run
      exact ⟨_, rfl, rfl, count⟩

theorem freshVar_run_eq_ok {supplies after : Supplies} {name : VarName}
    (run : freshVar.run supplies = .ok name after) : after.holes = supplies.holes := by
  simp only [EStateM.run, freshVar] at run
  cases drawn : supplies.vars.fresh with
  | error reason => simp [drawn] at run
  | ok result =>
      simp only [drawn, EStateM.Result.ok.injEq] at run
      obtain ⟨-, rfl⟩ := run
      rfl

end Draw

namespace Action

/-- The fragments that stand for an action, with holes from index `count` on. -/
inductive Builds (count : Nat) : Action → Term → Prop
  | unit : Builds count .unit .unit
  | var (name : VarName) : Builds count (.var name) (.var name)
  | abstraction (name : VarName) {hole : HoleName}
      (fresh : count ≤ hole.index.toNat) :
      Builds count .abstraction (.abs ⟨name, none⟩ (.hole hole))
  | application {left right : HoleName} (fresh : count ≤ left.index.toNat)
      (later : left.index.toNat < right.index.toNat) :
      Builds count .application (.app (.hole left) (.hole right))
  | pair {left right : HoleName} (fresh : count ≤ left.index.toNat)
      (later : left.index.toNat < right.index.toNat) :
      Builds count .pair (.pair (.hole left) (.hole right))
  | proj1 {hole : HoleName} (fresh : count ≤ hole.index.toNat) :
      Builds count .proj1 (.proj1 (.hole hole))
  | proj2 {hole : HoleName} (fresh : count ≤ hole.index.toNat) :
      Builds count .proj2 (.proj2 (.hole hole))

theorem fragment_builds {action : Action} {supplies rest : Supplies} {fragment : Term}
    (drawn : action.fragment.run supplies = .ok fragment rest) :
    Builds supplies.holes.count action fragment := by
  cases action with
  | unit =>
      obtain ⟨rfl, -⟩ := EStateM.Result.ok.inj drawn
      exact .unit
  | var name =>
      obtain ⟨rfl, -⟩ := EStateM.Result.ok.inj drawn
      exact .var name
  | abstraction =>
      obtain ⟨name, middle, varDrawn, drawn⟩ := Draw.run_bind_eq_ok drawn
      obtain ⟨body, after, holeDrawn, drawn⟩ := Draw.run_bind_eq_ok drawn
      obtain ⟨rfl, -⟩ := EStateM.Result.ok.inj drawn
      obtain ⟨hole, rfl, index, -⟩ := Draw.freshHole_run_eq_ok holeDrawn
      rw [Draw.freshVar_run_eq_ok varDrawn] at index
      exact .abstraction name (by omega)
  | application =>
      obtain ⟨left, middle, leftDrawn, drawn⟩ := Draw.run_bind_eq_ok drawn
      obtain ⟨right, after, rightDrawn, drawn⟩ := Draw.run_bind_eq_ok drawn
      obtain ⟨rfl, -⟩ := EStateM.Result.ok.inj drawn
      obtain ⟨leftHole, rfl, leftIndex, count⟩ := Draw.freshHole_run_eq_ok leftDrawn
      obtain ⟨rightHole, rfl, rightIndex, -⟩ := Draw.freshHole_run_eq_ok rightDrawn
      exact .application (by omega) (by omega)
  | pair =>
      obtain ⟨left, middle, leftDrawn, drawn⟩ := Draw.run_bind_eq_ok drawn
      obtain ⟨right, after, rightDrawn, drawn⟩ := Draw.run_bind_eq_ok drawn
      obtain ⟨rfl, -⟩ := EStateM.Result.ok.inj drawn
      obtain ⟨leftHole, rfl, leftIndex, count⟩ := Draw.freshHole_run_eq_ok leftDrawn
      obtain ⟨rightHole, rfl, rightIndex, -⟩ := Draw.freshHole_run_eq_ok rightDrawn
      exact .pair (by omega) (by omega)
  | proj1 =>
      obtain ⟨argument, after, holeDrawn, drawn⟩ := Draw.run_bind_eq_ok drawn
      obtain ⟨rfl, -⟩ := EStateM.Result.ok.inj drawn
      obtain ⟨hole, rfl, index, -⟩ := Draw.freshHole_run_eq_ok holeDrawn
      exact .proj1 (by omega)
  | proj2 =>
      obtain ⟨argument, after, holeDrawn, drawn⟩ := Draw.run_bind_eq_ok drawn
      obtain ⟨rfl, -⟩ := EStateM.Result.ok.inj drawn
      obtain ⟨hole, rfl, index, -⟩ := Draw.freshHole_run_eq_ok holeDrawn
      exact .proj2 (by omega)

namespace Builds

variable {count : Nat} {action : Action} {fragment : Term}

theorem le_of_mem_holes (builds : Builds count action fragment) :
    ∀ hole ∈ fragment.holes, count ≤ hole.index.toNat := by
  intro hole member
  cases builds with
  | unit | var => simp at member
  | abstraction name fresh | proj1 fresh | proj2 fresh =>
      obtain rfl : hole = _ := by simpa using member
      exact fresh
  | application fresh later | pair fresh later =>
      rcases (by simpa using member : hole = _ ∨ hole = _) with rfl | rfl
      · exact fresh
      · omega

theorem nodup_holes (builds : Builds count action fragment) :
    fragment.holes.Nodup := by
  cases builds with
  | unit | var | abstraction | proj1 | proj2 => simp
  | application fresh later | pair fresh later =>
      simp only [Term.holes_app, Term.holes_pair, Term.holes_hole,
        List.singleton_append, List.nodup_cons, List.mem_singleton]
      refine ⟨?_, by simp⟩
      rintro rfl
      exact Nat.lt_irrefl _ later

theorem closed (builds : Builds count action fragment)
    (isConstructor : action ∈ constructors) (scope : List VarName) :
    fragment.freeOccurrences scope = [] := by
  cases builds with
  | var name => simp [constructors] at isConstructor
  | unit | abstraction | application | pair | proj1 | proj2 => rfl

end Builds

/-! ## Filling and checking -/

variable {action : Action} {term filled fragment : Term} {hole : HoleName}
  {supplies rest : Supplies}

/-- The names of each kind suffice for putting an action into a hole of a term. -/
def Affordable (action : Action) (term : Term) : Prop :=
  ∃ supplies fragment rest, term.supplies = .ok supplies ∧
    action.fragment.run supplies = .ok fragment rest ∧
    term.typeVarCount + fragment.typeVarCount ≤ UInt32.size

theorem fill_eq (supplied : term.supplies = .ok supplies)
    (drawn : action.fragment.run supplies = .ok fragment rest)
    (found : term.fillHole? hole fragment = some filled) :
    action.fill term hole =
      if filled.holeNumbering.Fits then
        .ok (filled.mapHoles filled.holeNumbering.rename)
      else
        .error .exhausted := by
  simp only [fill, supplied, drawn, found, Option.getD_some, Term.canonicalHoles_eq, bind,
    Except.bind]
  by_cases fits : filled.holeNumbering.Fits
  · rw [if_pos fits, if_pos fits]
    rfl
  · rw [if_neg fits, if_neg fits]

/-- A result of filling is the filled term with its holes renumbered. -/
theorem exists_of_fill_eq_ok {result : Term} (member : hole ∈ term.holes)
    (filling : action.fill term hole = .ok result) :
    ∃ supplies fragment rest filled, term.supplies = .ok supplies ∧
      action.fragment.run supplies = .ok fragment rest ∧
      Term.Fills hole fragment term filled ∧ filled.holeNumbering.Fits ∧
      result = filled.mapHoles filled.holeNumbering.rename := by
  cases supplied : term.supplies with
  | error reason => simp [fill, supplied, bind, Except.bind] at filling
  | ok supplies =>
      cases drawn : action.fragment.run supplies with
      | error reason rest =>
          simp [fill, supplied, drawn, bind, Except.bind, throw, throwThe,
            MonadExceptOf.throw] at filling
      | ok fragment rest =>
          obtain ⟨filled, found⟩ := Term.exists_fillHole? member fragment
          rw [fill_eq supplied drawn found] at filling
          split at filling
          · next fits =>
            exact ⟨supplies, fragment, rest, filled, rfl, drawn,
              Term.fills_of_fillHole? found, fits, (Except.ok.inj filling).symm⟩
          · simp at filling

/-- The holes of a fragment are new, so the holes stay different. -/
theorem nodup_holes_filled (distinct : term.holes.Nodup)
    (supplied : term.supplies = .ok supplies)
    (drawn : action.fragment.run supplies = .ok fragment rest)
    (fills : Term.Fills hole fragment term filled) : filled.holes.Nodup := by
  have builds := fragment_builds drawn
  obtain ⟨before, after, old, new⟩ := fills.holes
  have fresh : ∀ name ∈ fragment.holes, name ∉ term.holes := by
    intro name inFragment inTerm
    have below := Term.lt_count_of_supplies supplied name inTerm
    have above := builds.le_of_mem_holes name inFragment
    omega
  have fragmentDistinct := builds.nodup_holes
  rw [old] at distinct fresh
  rw [new]
  grind

theorem nodup_holes_of_fill {result : Term} (distinct : term.holes.Nodup)
    (member : hole ∈ term.holes) (filling : action.fill term hole = .ok result) :
    result.holes.Nodup := by
  obtain ⟨supplies, fragment, rest, filled, supplied, drawn, fills, fits, rfl⟩ :=
    exists_of_fill_eq_ok member filling
  have filledDistinct := nodup_holes_filled distinct supplied drawn fills
  rw [Term.holes_mapHoles]
  refine List.Nodup.map_on ?_ filledDistinct
  intro left leftMember right rightMember equal
  have seen (name : HoleName) (occurs : name ∈ filled.holes) :
      name ∈ filled.holeNumbering.seen := Numbering.mem_see.mpr (.inr occurs)
  rw [← Numbering.origin_rename fits (seen left leftMember), equal,
    Numbering.origin_rename fits (seen right rightMember)]

theorem fits_eq_error (failed : action.fill term hole = .error .exhausted) :
    action.fits term hole = .error .exhausted := by
  rw [fits, failed]
  rfl

theorem fits_eq_of_fill {result : Term} (filling : action.fill term hole = .ok result) :
    action.fits term hole =
      match infer result with
      | .ok _ => .ok true
      | .error (.illTyped _) => .ok false
      | .error .exhausted => .error .exhausted := by
  rw [fits, filling]
  rfl

theorem exists_of_fits_eq_ok {verdict : Bool} (fits : action.fits term hole = .ok verdict) :
    ∃ result, action.fill term hole = .ok result ∧
      (verdict = true ↔ ∃ inference, infer result = .ok inference) ∧
      (verdict = false ↔ ∃ error, infer result = .error (.illTyped error)) := by
  cases filling : action.fill term hole with
  | error reason => simp [fits_eq_error filling] at fits
  | ok result =>
      refine ⟨result, rfl, ?_⟩
      rw [fits_eq_of_fill filling] at fits
      cases inferred : infer result with
      | ok inference =>
          obtain rfl : true = verdict := by simpa [inferred] using fits
          simp
      | error failure =>
          cases failure with
          | illTyped error =>
              obtain rfl : false = verdict := by simpa [inferred] using fits
              simp
          | exhausted => simp [inferred] at fits

theorem exists_of_fits_eq_true (fits : action.fits term hole = .ok true) :
    ∃ result inference, action.fill term hole = .ok result ∧
      infer result = .ok inference := by
  obtain ⟨result, filling, typed, -⟩ := exists_of_fits_eq_ok fits
  obtain ⟨inference, inferred⟩ := typed.mp rfl
  exact ⟨result, inference, filling, inferred⟩

/-- If the names suffice, the check on a copy of the program says whether the
filled program has a type. -/
theorem exists_fits (supplied : term.supplies = .ok supplies)
    (drawn : action.fragment.run supplies = .ok fragment rest)
    (enough : term.typeVarCount + fragment.typeVarCount ≤ UInt32.size)
    (found : term.fillHole? hole fragment = some filled) :
    ∃ verdict, action.fits term hole = .ok verdict ∧
      (verdict = true ↔ ∃ ty, filled.HasType .empty ty) := by
  have count := (Term.fills_of_fillHole? found).typeVarCount
  have few : filled.typeVarCount < UInt32.size := by omega
  have filling := fill_eq supplied drawn found
  rw [if_pos (Term.fits_holeNumbering few)] at filling
  rw [fits_eq_of_fill filling]
  have typable := @exists_infer_iff (filled.mapHoles filled.holeNumbering.rename)
  have outcome := infer_outcome (filled.mapHoles filled.holeNumbering.rename)
  simp only [Term.typeVarCount_mapHoles, few, true_and, Term.hasType_mapHoles_iff]
    at typable
  revert typable
  generalize infer (filled.mapHoles filled.holeNumbering.rename) = answer at outcome
  cases outcome with
  | typed => exact fun typable => ⟨true, rfl, by simpa using typable⟩
  | clash | unbound => exact fun typable => ⟨false, rfl, by simpa using typable⟩
  | exhausted many =>
      rw [Term.typeVarCount_mapHoles] at many
      omega

theorem Affordable.exists_fits (affordable : action.Affordable term)
    (member : hole ∈ term.holes) : ∃ verdict, action.fits term hole = .ok verdict := by
  obtain ⟨supplies, fragment, rest, supplied, drawn, enough⟩ := affordable
  obtain ⟨filled, found⟩ := Term.exists_fillHole? member fragment
  obtain ⟨verdict, fits, -⟩ := Action.exists_fits supplied drawn enough found
  exact ⟨verdict, fits⟩

/-- A check that gives an answer shows that the names suffice, because a program
in which a constructor has been put has no new free variables. -/
theorem affordable_of_fits {verdict : Bool} (isConstructor : action ∈ constructors)
    (bound : term.freeOccurrences [] = []) (member : hole ∈ term.holes)
    (fits : action.fits term hole = .ok verdict) : action.Affordable term := by
  cases filling : action.fill term hole with
  | error reason =>
      rw [fits_eq_error filling] at fits
      simp at fits
  | ok result =>
      obtain ⟨supplies, fragment, rest, filled, supplied, drawn, fills, -, rfl⟩ :=
        exists_of_fill_eq_ok member filling
      have count := fills.typeVarCount
      have filledBound := fills.freeOccurrences
        ((fragment_builds drawn).closed isConstructor) []
      refine ⟨supplies, fragment, rest, supplied, drawn, ?_⟩
      suffices few : filled.typeVarCount < UInt32.size by omega
      rw [fits_eq_of_fill filling] at fits
      have outcome := infer_outcome (filled.mapHoles filled.holeNumbering.rename)
      generalize infer (filled.mapHoles filled.holeNumbering.rename) = answer
        at outcome fits
      cases outcome with
      | typed few | clash few => rwa [Term.typeVarCount_mapHoles] at few
      | exhausted => simp at fits
      | unbound free =>
          -- The program has no free variable, and the fragment brings none.
          simp [filledBound, bound] at free

end Action

end TypedHoles
