import TypedHoles.Proofs.Plugging
import TypedHoles.Proofs.RenamingClasses

/-!
# The numbers of holes

Numbering the holes of a program calls each of them by the number of names that were met
before its own.  It changes nothing but names, although the new names may be old names
of holes that come later.
-/

namespace TypedHoles

section FirstOccurrences

variable {α : Type} [DecidableEq α] {list before after : List α} {entry : α}

theorem idxOf_lt_iff_of_not_mem (absent : entry ∉ before) {other : α} :
    (before ++ entry :: after).idxOf other < (before ++ entry :: after).idxOf entry ↔
      other ∈ before := by
  rw [List.idxOf_append_of_notMem absent, List.idxOf_cons_self, Nat.add_zero]
  by_cases early : other ∈ before
  · rw [List.idxOf_append_of_mem early]
    exact iff_of_true (List.idxOf_lt_length_of_mem early) early
  · rw [List.idxOf_append_of_notMem early]
    exact iff_of_false (by omega) early

theorem idxOf_eraseDups_of_not_mem (absent : entry ∉ before) :
    (before ++ entry :: after).eraseDups.idxOf entry = before.eraseDups.length := by
  have notEarlier : entry ∉ before.eraseDups := mt List.mem_eraseDups.mp absent
  rw [List.eraseDups_append, List.idxOf_append_of_notMem notEarlier]
  simp [List.removeAll, absent, List.eraseDups_cons]

/-- The place of an entry among the different entries of a list is the number of
different entries that first occur before it. -/
theorem idxOf_eraseDups (member : entry ∈ list) :
    list.eraseDups.idxOf entry =
      (list.toFinset.filter fun other => list.idxOf other < list.idxOf entry).card := by
  obtain ⟨before, after, rfl, absent⟩ := List.eq_append_cons_of_mem member
  have earlier : ((before ++ entry :: after).toFinset.filter fun other =>
      (before ++ entry :: after).idxOf other < (before ++ entry :: after).idxOf entry) =
        before.eraseDups.toFinset := by
    ext other
    simp only [Finset.mem_filter, idxOf_lt_iff_of_not_mem absent, List.mem_toFinset,
      List.mem_append, List.mem_eraseDups]
    tauto
  rw [idxOf_eraseDups_of_not_mem absent, earlier,
    List.toFinset_card_of_nodup (nodup_eraseDups before)]

end FirstOccurrences

namespace Term

/-- How programs mention holes. -/
def mentions : Mentions .hole Term where
  names := holes
  rename := mapHoles
  names_rename := holes_mapHoles
  rename_congr same := by
    rw [mapHoles_eq_plug, mapHoles_eq_plug]
    exact plug_congr fun name member => congrArg hole (same name member)
  rename_rename first second term := by
    simp only [mapHoles_eq_plug, plug_plug]
    rfl
  rename_self term := by
    rw [mapHoles_eq_plug]
    exact term.plug_self

/-- The number of different names of holes that first occur before the first hole called
`name`. -/
def earlierHoles (term : Term) (name : HoleName) : Nat :=
  (term.holes.toFinset.filter fun other =>
    term.holes.idxOf other < term.holes.idxOf name).card

variable {term : Term}

theorem seen_holeNumbering_eq_eraseDups (term : Term) :
    term.holeNumbering.seen = term.holes.eraseDups :=
  Numbering.seen_see_empty term.holes

/-- A hole is called by the number of names before it. -/
theorem index_rename_eq_earlierHoles (fits : term.holeNumbering.Fits) {name : HoleName}
    (member : name ∈ term.holes) :
    (term.holeNumbering.rename name).index.toNat = term.earlierHoles name := by
  have seen : name ∈ term.holeNumbering.seen := Numbering.mem_see.mpr (.inr member)
  rw [Numbering.index_rename fits seen, seen_holeNumbering_eq_eraseDups,
    idxOf_eraseDups member, earlierHoles]

theorem injOn_rename_holeNumbering (fits : term.holeNumbering.Fits) :
    Set.InjOn term.holeNumbering.rename {name | name ∈ term.holes} :=
  Numbering.injOn_rename fits

/-- Holes get the same number exactly if they have the same name. -/
theorem getElem?_holes_eq_iff (fits : term.holeNumbering.Fits) (first second : Nat) :
    (term.mapHoles term.holeNumbering.rename).holes[first]? =
        (term.mapHoles term.holeNumbering.rename).holes[second]? ↔
      term.holes[first]? = term.holes[second]? := by
  rw [holes_mapHoles, List.getElem?_map, List.getElem?_map]
  refine ⟨?_, congrArg _⟩
  intro same
  cases left : term.holes[first]? with
  | none => simpa [left, eq_comm] using same
  | some leftName =>
      rw [left, Option.map_some, eq_comm, Option.map_eq_some_iff] at same
      obtain ⟨rightName, right, equal⟩ := same
      rw [right, injOn_rename_holeNumbering fits (List.mem_of_getElem? right)
        (List.mem_of_getElem? left) equal]

theorem canonicalHoles_decidesRenaming :
    DecidesRenaming (fun term : Term => term.holes.eraseDups)
      (fun replace term => term.mapHoles replace) canonicalHoles :=
  mentions.decidesRenaming reads_numberHoles

/-- Numbering the holes calls each hole by the number of names that first occur before
its own and changes nothing else.  Doing it again changes nothing, and two programs become
equal exactly if a bijection of their holes turns one into the other. -/
theorem hole_numbering_canonical (term : Term)
    (few : term.holes.eraseDups.length < UInt32.size) :
    ∃ normal numbering, term.canonicalHoles = .ok (normal, numbering) ∧
      normal.holes.map (fun name => name.index.toNat) = term.holes.map term.earlierHoles ∧
      normal.holes.eraseDups.map (fun name => name.index.toNat) =
        List.range term.holes.eraseDups.length ∧
      (∀ first second : Nat, normal.holes[first]? = normal.holes[second]? ↔
        term.holes[first]? = term.holes[second]?) ∧
      normal.outline = term.outline ∧
      (∃ again, normal.canonicalHoles = .ok (normal, again) ∧ again.isIdentity = true) ∧
      ∀ other : Term, other.holes.eraseDups.length < UInt32.size →
        ∃ otherNormal otherNumbering,
          other.canonicalHoles = .ok (otherNormal, otherNumbering) ∧
          (normal = otherNormal ↔ ∃ replace : HoleName → HoleName,
            Set.BijOn replace {name | name ∈ term.holes} {name | name ∈ other.holes} ∧
              term.mapHoles replace = other) := by
  have decides := canonicalHoles_decidesRenaming
  obtain ⟨normal, numbering, canonical⟩ := decides.exists_ok term few
  obtain ⟨again, canonicalAgain, identity⟩ := decides.idempotent canonical
  obtain ⟨normalFits, unchanged, -⟩ :=
    (mentions.run_eq_ok_iff reads_numberHoles).mp canonicalAgain
  have inOrder : normal.holes.eraseDups.map (fun name => name.index.toNat) =
      List.range normal.holes.eraseDups.length :=
    mentions.map_index_eraseDups_names normalFits unchanged
  obtain ⟨fits, isNormal, -⟩ := (mentions.run_eq_ok_iff reads_numberHoles).mp canonical
  obtain rfl : term.mapHoles term.holeNumbering.rename = normal := isNormal
  refine ⟨_, numbering, canonical, ?_, ?_, getElem?_holes_eq_iff fits,
    outline_mapHoles _ term, ⟨again, canonicalAgain, identity⟩, ?_⟩
  · rw [holes_mapHoles, List.map_map]
    exact List.map_congr_left fun name member => index_rename_eq_earlierHoles fits member
  · rw [inOrder, holes_mapHoles,
      Numbering.eraseDups_map (injOn_rename_holeNumbering fits), List.length_map]
  · intro other otherFew
    obtain ⟨otherNormal, otherNumbering, otherCanonical⟩ := decides.exists_ok other otherFew
    refine ⟨otherNormal, otherNumbering, otherCanonical, ?_⟩
    simpa only [List.mem_eraseDups] using decides.normal_eq_iff canonical otherCanonical

theorem hole_numbering_canonical_swappedNames :
    let term : Term := .pair (.hole ⟨1⟩) (.app (.hole ⟨0⟩) (.abs ⟨⟨0⟩, none⟩ (.hole ⟨1⟩)))
    let normal : Term := .pair (.hole ⟨0⟩) (.app (.hole ⟨1⟩) (.abs ⟨⟨0⟩, none⟩ (.hole ⟨0⟩)))
    let other : Term := .pair (.hole ⟨7⟩) (.app (.hole ⟨1⟩) (.abs ⟨⟨0⟩, none⟩ (.hole ⟨7⟩)))
    term.canonicalHoles = .ok (normal, ⟨[⟨1⟩, ⟨0⟩]⟩) ∧ normal ≠ term ∧
      normal.holes.map (fun name => name.index.toNat) = term.holes.map term.earlierHoles ∧
      ∃ replace : HoleName → HoleName,
        Set.BijOn replace {name | name ∈ term.holes} {name | name ∈ other.holes} ∧
          term.mapHoles replace = other := by
  intro term normal other
  have canonical : term.canonicalHoles = .ok (normal, ⟨[⟨1⟩, ⟨0⟩]⟩) := by decide
  have otherCanonical : other.canonicalHoles = .ok (normal, ⟨[⟨7⟩, ⟨1⟩]⟩) := by decide
  obtain ⟨found, numbering, run, numbers, -, -, -, -, decides⟩ :=
    hole_numbering_canonical term (by decide)
  obtain ⟨otherFound, otherNumbering, otherRun, bijection⟩ := decides other (by decide)
  obtain ⟨rfl, rfl⟩ := Prod.mk.inj (Except.ok.inj (canonical.symm.trans run))
  obtain ⟨rfl, rfl⟩ := Prod.mk.inj (Except.ok.inj (otherCanonical.symm.trans otherRun))
  exact ⟨canonical, by decide, numbers, bijection.mp rfl⟩

end Term

end TypedHoles
