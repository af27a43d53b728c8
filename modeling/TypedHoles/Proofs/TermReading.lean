import TypedHoles.TermText
import TypedHoles.Proofs.NameReading
import TypedHoles.Proofs.Plugging

/-!
# Reading terms

The text of a term without labels says which term it is.  Between two parentheses stand
binders, and behind them either a term or a projection that waits for its operand.  A term
that is followed by a further operand is applied to it, and the binders reach as far as
the parentheses do.  Reading by these rules gives every term back, so that no two of them
have the same text.
-/

namespace TypedHoles

namespace Term

/-- A word in the text of a term. -/
inductive Word where
  | operand (term : Term)
  | binder (name : VarName)
  | proj1
  | proj2
  deriving DecidableEq, Repr

/-- The meaning of a word. -/
def Word.ofChars? (chars : List Char) : Option Word :=
  match chars with
  | ['u', 'n', 'i', 't'] => some (.operand .unit)
  | ['π', '₁'] => some .proj1
  | ['π', '₂'] => some .proj2
  | 'λ' :: rest => (Name.ofChars? rest).map .binder
  | 'x' :: _ => (Name.ofChars? chars).map fun name => .operand (.var name)
  | '?' :: _ => (Name.ofChars? chars).map fun name => .operand (.hole name)
  | _ => none

theorem Word.ofChars?_text_var (name : VarName) :
    Word.ofChars? name.text.toList = some (.operand (.var name)) := by
  have read := Name.ofChars?_text name
  rw [Name.toList_text_var] at read ⊢
  rw [Word.ofChars?, read, Option.map_some]

theorem Word.ofChars?_text_hole (name : HoleName) :
    Word.ofChars? name.text.toList = some (.operand (.hole name)) := by
  have read := Name.ofChars?_text name
  rw [Name.toList_text_hole] at read ⊢
  rw [Word.ofChars?, read, Option.map_some]

/-- What the next operand belongs to. -/
inductive Head where
  | nothing
  | proj1
  | proj2
  | applicant (term : Term)
  deriving DecidableEq, Repr

/-- The term that the next operand completes. -/
def Head.complete : Head → Term → Term
  | nothing, operand => operand
  | proj1, operand => .proj1 operand
  | proj2, operand => .proj2 operand
  | applicant term, operand => .app term operand

/-- What has been read of a term. -/
structure Reading where
  /-- The variables that are bound, the innermost first. -/
  binders : List VarName
  /-- What has been read behind the binders. -/
  head : Head
  deriving DecidableEq, Repr

namespace Reading

/-- Go on with an operand. -/
def take (reading : Reading) (operand : Term) : Reading :=
  ⟨reading.binders, .applicant (reading.head.complete operand)⟩

/-- Go on with a word.  Binders and projections stand in front of all operands. -/
def takeWord (reading : Reading) (chars : List Char) : Option Reading :=
  match Word.ofChars? chars, reading.head with
  | some (.operand term), _ => some (reading.take term)
  | some (.binder name), .nothing => some ⟨name :: reading.binders, .nothing⟩
  | some .proj1, .nothing => some ⟨reading.binders, .proj1⟩
  | some .proj2, .nothing => some ⟨reading.binders, .proj2⟩
  | _, _ => none

/-- The term that has been read. -/
def whole? : Reading → Option Term
  | ⟨binders, .applicant body⟩ =>
      some (binders.foldl (fun body name => .abs ⟨name, none⟩ body) body)
  | _ => none

end Reading

/-- How terms are written. -/
def grammar : Grammar Reading Term where
  start := ⟨[], .nothing⟩
  takeWord := Reading.takeWord
  takeGroup reading term := some (reading.take term)
  pair first second := some (.pair first second)
  finish := Reading.whole?

/-- The term without labels that has the given text. -/
def ofText? (text : String) : Option Term :=
  grammar.read? text

/-- Whether the text of a term is read as that term, wherever it stands. -/
structure IsRead (scope : List Binder) (term : Term) : Prop where
  operand : ∀ reading,
    grammar.Reads (term.textAt scope .atom) reading (reading.take term)
  applicant : ∀ binders, grammar.Reads (term.textAt scope .applicant)
    ⟨binders, .nothing⟩ ⟨binders, .applicant term⟩
  whole : ∀ binders, ∃ last, grammar.Reads (term.textAt scope .top) ⟨binders, .nothing⟩ last ∧
    last.whole? = Reading.whole? ⟨binders, .applicant term⟩

section Reads

variable {scope : List Binder} {term : Term}

theorem IsRead.yields (isRead : IsRead scope term) :
    grammar.Yields (term.textAt scope .top) term :=
  isRead.whole []

/-- It is enough that an operand is read which looks the same everywhere. -/
theorem isRead_of_same {text : String}
    (same : ∀ position, term.textAt scope position = text)
    (reads : ∀ reading, grammar.Reads text reading (reading.take term)) :
    IsRead scope term := by
  refine ⟨?_, ?_, ?_⟩
  · rw [same]
    exact reads
  · rw [same]
    exact fun binders => reads ⟨binders, .nothing⟩
  · rw [same]
    exact fun binders => ⟨_, reads ⟨binders, .nothing⟩, rfl⟩

theorem isRead_of_applicant
    (atom : term.textAt scope .atom = "(" ++ term.textAt scope .applicant ++ ")")
    (top : term.textAt scope .top = term.textAt scope .applicant)
    (reads : ∀ binders, grammar.Reads (term.textAt scope .applicant)
      ⟨binders, .nothing⟩ ⟨binders, .applicant term⟩) :
    IsRead scope term := by
  refine ⟨fun reading => ?_, reads, fun binders => ?_⟩
  · rw [atom]
    exact Grammar.Yields.parenthesized ⟨_, reads [], rfl⟩ rfl
  · rw [top]
    exact ⟨_, reads binders, rfl⟩

theorem isRead_of_projection {argument : Term} {word : String} {head : Head}
    (argumentRead : IsRead scope argument)
    (atom : term.textAt scope .atom = "(" ++ term.textAt scope .applicant ++ ")")
    (top : term.textAt scope .top = term.textAt scope .applicant)
    (applicant : term.textAt scope .applicant = word ++ " " ++ argument.textAt scope .atom)
    (reads : ∀ binders, grammar.Reads word ⟨binders, .nothing⟩ ⟨binders, head⟩)
    (completed : head.complete argument = term) : IsRead scope term := by
  refine isRead_of_applicant atom top fun binders => ?_
  rw [applicant, ← completed]
  exact (reads binders).spaced (argumentRead.operand _)

theorem isRead_of_whole
    (grouped : ∀ position ≠ .top, term.textAt scope position =
      "(" ++ term.textAt scope .top ++ ")")
    (reads : ∀ binders, ∃ last,
      grammar.Reads (term.textAt scope .top) ⟨binders, .nothing⟩ last ∧
        last.whole? = Reading.whole? ⟨binders, .applicant term⟩) :
    IsRead scope term := by
  have yields : grammar.Yields (term.textAt scope .top) term := reads []
  refine ⟨fun reading => ?_, fun binders => ?_, reads⟩
  · rw [grouped _ (by decide)]
    exact yields.parenthesized rfl
  · rw [grouped _ (by decide)]
    exact yields.parenthesized rfl

theorem reads_operand {word : String} (letters : ∀ char ∈ word.toList, Mark.ofChar? char = none)
    (nonempty : word ≠ "") (means : Word.ofChars? word.toList = some (.operand term))
    (reading : Reading) : grammar.Reads word reading (reading.take term) := by
  refine .word letters nonempty ?_
  simp [grammar, Reading.takeWord, means]

theorem varText_of_unlabelled (unlabelled : ∀ binder ∈ scope, binder.label = none)
    (name : VarName) : varText scope name = name.text := by
  unfold varText
  split
  next binder found =>
    have label := unlabelled binder (List.mem_of_find?_eq_some found)
    have same := List.find?_some found
    simp_all [Binder.text]
  next => rfl

theorem reads_binder (name : VarName) (binders : List VarName) :
    grammar.Reads ("λ" ++ name.text) ⟨binders, .nothing⟩ ⟨name :: binders, .nothing⟩ := by
  have chars : ("λ" ++ name.text).toList = 'λ' :: name.text.toList := by simp
  refine .word ?_ (by simp) ?_
  · rw [chars]
    exact List.forall_mem_cons.mpr ⟨rfl, fun _ => Name.mark?_of_mem_text⟩
  · simp [grammar, Reading.takeWord, chars, Word.ofChars?, Name.ofChars?_text]

/-- A term without labels can be read off its text. -/
theorem isRead (unlabelled : ∀ binder ∈ term.binders, binder.label = none)
    (scopeUnlabelled : ∀ binder ∈ scope, binder.label = none) : IsRead scope term := by
  induction term generalizing scope with
  | unit =>
      exact isRead_of_same (fun _ => rfl) (reads_operand (by simp [Mark.ofChar?]) (by decide) rfl)
  | var name =>
      refine isRead_of_same (fun _ => varText_of_unlabelled scopeUnlabelled name) ?_
      exact reads_operand (fun _ => Name.mark?_of_mem_text) name.text_ne_empty
        (Word.ofChars?_text_var name)
  | hole name =>
      have same : ∀ position, (hole name).textAt scope position = name.text := fun _ => rfl
      exact isRead_of_same same (reads_operand (fun _ => Name.mark?_of_mem_text)
        name.text_ne_empty (Word.ofChars?_text_hole name))
  | pair first second firstIh secondIh =>
      simp only [binders_pair, List.forall_mem_append] at unlabelled
      have firstYields := (firstIh unlabelled.1 scopeUnlabelled).yields
      have secondYields := (secondIh unlabelled.2 scopeUnlabelled).yields
      exact isRead_of_same (fun _ => rfl) fun reading =>
        firstYields.parenthesized_pair secondYields rfl rfl
  | abs binder body ih =>
      simp only [binders_abs, List.forall_mem_cons] at unlabelled
      obtain ⟨name, label⟩ := binder
      obtain ⟨rfl, unlabelled⟩ := unlabelled
      have bodyRead := @ih (⟨name, none⟩ :: scope) unlabelled
        (List.forall_mem_cons.mpr ⟨rfl, scopeUnlabelled⟩)
      refine isRead_of_whole
        (fun position inside => by simp [textAt, parenthesizeIf, inside]) fun binders => ?_
      -- The body is read with one more binder, and it is the body that reaches to the end.
      obtain ⟨last, reads, same⟩ := bodyRead.whole (name :: binders)
      exact ⟨last, (reads_binder name binders).separated reads (by simp [Mark.ofChar?])
        (by decide), same⟩
  | app applicant argument applicantIh argumentIh =>
      simp only [binders_app, List.forall_mem_append] at unlabelled
      have applicantRead := applicantIh unlabelled.1 scopeUnlabelled
      have argumentRead := argumentIh unlabelled.2 scopeUnlabelled
      exact isRead_of_applicant rfl rfl fun binders =>
        (applicantRead.applicant binders).spaced (argumentRead.operand _)
  | proj1 argument ih =>
      rw [binders_proj1] at unlabelled
      exact isRead_of_projection (ih unlabelled scopeUnlabelled) rfl rfl rfl
        (fun _ => .word (by simp [Mark.ofChar?]) (by decide) rfl : ∀ binders, grammar.Reads "π₁"
          ⟨binders, .nothing⟩ ⟨binders, .proj1⟩) rfl
  | proj2 argument ih =>
      rw [binders_proj2] at unlabelled
      exact isRead_of_projection (ih unlabelled scopeUnlabelled) rfl rfl rfl
        (fun _ => .word (by simp [Mark.ofChar?]) (by decide) rfl : ∀ binders, grammar.Reads "π₂"
          ⟨binders, .nothing⟩ ⟨binders, .proj2⟩) rfl

end Reads

/-- Every term without labels is read from its text, and no two of them have the same
text. -/
theorem unlabelled_text_unambiguous {first second : Term}
    (firstUnlabelled : ∀ binder ∈ first.binders, binder.label = none)
    (secondUnlabelled : ∀ binder ∈ second.binders, binder.label = none) :
    ofText? first.text = some first ∧ (first.text = second.text ↔ first = second) := by
  have firstYields : grammar.Yields first.text first :=
    (isRead firstUnlabelled (by simp)).yields
  have secondYields : grammar.Yields second.text second :=
    (isRead secondUnlabelled (by simp)).yields
  refine ⟨firstYields.read?, fun same => ?_, fun same => by rw [same]⟩
  rw [same] at firstYields
  exact firstYields.unique secondYields

theorem unlabelled_text_unambiguous_projection :
    let applied : Term := .abs ⟨⟨0⟩, none⟩ (.app (.proj1 (.var ⟨0⟩))
      (.app (.hole ⟨4294967295⟩) (.pair (.abs ⟨⟨0⟩, none⟩ .unit) (.var ⟨0⟩))))
    let projected : Term := .abs ⟨⟨0⟩, none⟩ (.proj1 (.app (.var ⟨0⟩)
      (.app (.hole ⟨4294967295⟩) (.pair (.abs ⟨⟨0⟩, none⟩ .unit) (.var ⟨0⟩)))))
    (∀ binder ∈ applied.binders, binder.label = none) ∧
    (∀ binder ∈ projected.binders, binder.label = none) ∧
    applied.text = "λx0. π₁ x0 (?4294967295 (λx0. unit, x0))" ∧
    ofText? "λx0. π₁ x0 (?4294967295 (λx0. unit, x0))" = some applied ∧
    applied.text ≠ projected.text := by
  intro applied projected
  have appliedUnlabelled : ∀ binder ∈ applied.binders, binder.label = none := by decide
  have projectedUnlabelled : ∀ binder ∈ projected.binders, binder.label = none := by decide
  have shown : applied.text = "λx0. π₁ x0 (?4294967295 (λx0. unit, x0))" := by decide
  obtain ⟨read, same⟩ := unlabelled_text_unambiguous appliedUnlabelled projectedUnlabelled
  exact ⟨appliedUnlabelled, projectedUnlabelled, shown, shown ▸ read,
    mt same.mp (by decide)⟩

/-- A label may look like the name of another variable. -/
example : (abs ⟨⟨0⟩, some "x1"⟩ (.var ⟨0⟩)).text = (abs ⟨⟨1⟩, none⟩ (.var ⟨1⟩)).text := by
  decide

end Term

end TypedHoles
