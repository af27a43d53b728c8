import TypedHoles.Ty
import TypedHoles.Proofs.NameReading

/-!
# Reading types

The text of a type says which type it is.  Outside of parentheses stand the domains of
arrows, and behind the last arrow a single operand or a product of two.  An operand in
parentheses is a type of any form.  Reading by these rules gives every type back, so that
no two types have the same text.
-/

namespace TypedHoles

namespace Ty

/-- A word in the text of a type. -/
inductive Word where
  | operand (ty : Ty)
  | arrow
  | times
  deriving DecidableEq, Repr

/-- The meaning of a word. -/
def Word.ofChars? (chars : List Char) : Option Word :=
  match Name.ofChars? chars with
  | some name => some (.operand (.var name))
  | none =>
      match chars with
      | ['U', 'n', 'i', 't'] => some (.operand .unit)
      | ['-', '>'] => some .arrow
      | ['*'] => some .times
      | _ => none

/-- What has been read behind the last arrow. -/
inductive Segment where
  | nothing
  | times (first : Ty)
  | whole (ty : Ty)
  deriving DecidableEq, Repr

/-- Go on with an operand. -/
def Segment.take : Segment → Ty → Option Segment
  | nothing, operand => some (whole operand)
  | times first, operand => some (whole (.product first operand))
  | whole _, _ => none

/-- What has been read of a type. -/
structure Reading where
  /-- What stands in front of the arrows, the last one first. -/
  domains : List Ty
  /-- What has been read behind the arrows. -/
  segment : Segment
  deriving DecidableEq, Repr

namespace Reading

/-- Go on with an operand. -/
def take (reading : Reading) (operand : Ty) : Option Reading :=
  (reading.segment.take operand).map fun segment => ⟨reading.domains, segment⟩

/-- Go on with a word. -/
def takeWord (reading : Reading) (chars : List Char) : Option Reading :=
  match Word.ofChars? chars, reading.segment with
  | some (.operand ty), _ => reading.take ty
  | some .arrow, .whole domain => some ⟨domain :: reading.domains, .nothing⟩
  | some .times, .whole first => some ⟨reading.domains, .times first⟩
  | _, _ => none

/-- The type that has been read. -/
def whole? : Reading → Option Ty
  | ⟨domains, .whole ty⟩ =>
      some (domains.foldl (fun codomain domain => .arrow domain codomain) ty)
  | _ => none

end Reading

/-- How types are written. -/
def grammar : Grammar Reading Ty where
  start := ⟨[], .nothing⟩
  takeWord := Reading.takeWord
  takeGroup := Reading.take
  pair _ _ := none
  finish := Reading.whole?

/-- The type that has the given text. -/
def ofText? (text : String) : Option Ty :=
  grammar.read? text

/-- Whether the text of a type is read as that type, wherever it stands. -/
structure IsRead (ty : Ty) : Prop where
  component : ∀ {reading next}, reading.take ty = some next →
    grammar.Reads (parenthesizeIf ty.isComposite ty.text) reading next
  domain : ∀ domains, grammar.Reads (parenthesizeIf ty.isArrow ty.text)
    ⟨domains, .nothing⟩ ⟨domains, .whole ty⟩
  whole : ∀ domains, ∃ last, grammar.Reads ty.text ⟨domains, .nothing⟩ last ∧
    last.whole? = Reading.whole? ⟨domains, .whole ty⟩

variable {ty : Ty}

/-- It is enough that the text is read from where nothing has been read, if the type is
composite. -/
theorem isRead_of_whole (composite : ty.isComposite = true)
    (domain : ty.isArrow = false → ∀ domains,
      grammar.Reads ty.text ⟨domains, .nothing⟩ ⟨domains, .whole ty⟩)
    (whole : ∀ domains, ∃ last, grammar.Reads ty.text ⟨domains, .nothing⟩ last ∧
      last.whole? = Reading.whole? ⟨domains, .whole ty⟩) : IsRead ty := by
  have yields : grammar.Yields ty.text ty := whole []
  refine ⟨fun taken => ?_, fun domains => ?_, whole⟩
  · rw [composite]
    exact yields.parenthesized taken
  · cases arrow : ty.isArrow with
    | true => exact yields.parenthesized rfl
    | false => exact domain arrow domains

theorem isRead_of_word (letters : ∀ char ∈ ty.text.toList, Mark.ofChar? char = none)
    (nonempty : ty.text ≠ "") (means : Word.ofChars? ty.text.toList = some (.operand ty))
    (simple : ty.isComposite = false) (notArrow : ty.isArrow = false) : IsRead ty := by
  have reads : ∀ {reading next}, reading.take ty = some next →
      grammar.Reads ty.text reading next := by
    intro reading next taken
    refine .word letters nonempty ?_
    simp [grammar, Reading.takeWord, means, taken]
  refine ⟨?_, fun domains => ?_, fun domains => ⟨_, reads rfl, rfl⟩⟩
  · rw [simple]
    exact reads
  · rw [notArrow]
    exact reads rfl

theorem text_product (first second : Ty) :
    (product first second).text = parenthesizeIf first.isComposite first.text ++ " " ++ "*" ++
      " " ++ parenthesizeIf second.isComposite second.text := by
  have spaced : " * " = " " ++ ("*" ++ " ") := by decide
  rw [text, spaced, ← String.append_assoc, ← String.append_assoc]

theorem text_arrow (domain codomain : Ty) :
    (arrow domain codomain).text = parenthesizeIf domain.isArrow domain.text ++ " " ++ "->" ++
      " " ++ codomain.text := by
  have spaced : " -> " = " " ++ ("->" ++ " ") := by decide
  rw [text, spaced, ← String.append_assoc, ← String.append_assoc]

/-- A type can be read off its text. -/
theorem isRead (ty : Ty) : IsRead ty := by
  induction ty with
  | unit => exact isRead_of_word (by simp [text, Mark.ofChar?]) (by decide) rfl rfl rfl
  | var name =>
      refine isRead_of_word (fun _ => Name.mark?_of_mem_text) name.text_ne_empty ?_ rfl rfl
      simp [Word.ofChars?, text, Name.ofChars?_text]
  | product first second firstRead secondRead =>
      have reads : ∀ domains, grammar.Reads (product first second).text
          ⟨domains, .nothing⟩ ⟨domains, .whole (.product first second)⟩ := by
        intro domains
        have times : grammar.Reads "*" ⟨domains, .whole first⟩ ⟨domains, .times first⟩ :=
          .word (by simp [Mark.ofChar?]) (by decide) rfl
        rw [text_product]
        exact ((firstRead.component rfl).spaced times).spaced (secondRead.component rfl)
      exact isRead_of_whole rfl (fun _ => reads) fun domains => ⟨_, reads domains, rfl⟩
  | arrow domain codomain domainRead codomainRead =>
      refine isRead_of_whole rfl (by simp [isArrow]) fun domains => ?_
      have arrow : grammar.Reads "->" ⟨domains, .whole domain⟩ ⟨domain :: domains, .nothing⟩ :=
        .word (by simp [Mark.ofChar?]) (by decide) rfl
      obtain ⟨last, reads, same⟩ := codomainRead.whole (domain :: domains)
      rw [text_arrow]
      exact ⟨last, ((domainRead.domain domains).spaced arrow).spaced reads, same⟩

/-- Every type is read from its text, and no two types have the same text. -/
theorem text_unambiguous (ty other : Ty) :
    ofText? ty.text = some ty ∧ (ty.text = other.text ↔ ty = other) := by
  have yields : grammar.Yields ty.text ty := (isRead ty).whole []
  have otherYields : grammar.Yields other.text other := (isRead other).whole []
  refine ⟨yields.read?, fun same => ?_, fun same => by rw [same]⟩
  rw [same] at yields
  exact yields.unique otherYields

/-- Products bind tighter than arrows, and the letters of the alphabet have been used up
once at the second type variable. -/
example : ofText? "(a -> b1) * Unit -> a -> b1" = some
    (.arrow (.product (.arrow (.var ⟨0⟩) (.var ⟨27⟩)) .unit) (.arrow (.var ⟨0⟩) (.var ⟨27⟩))) := by
  decide

end Ty

end TypedHoles
