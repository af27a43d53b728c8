import TypedHoles.JsonReading
import TypedHoles.Name
import TypedHoles.Proofs.BracketReading

/-!
# Reading names

The text of a name tells its kind and its index.  For holes and variables it is a sign
with the digits of the index behind it.  For type variables it is a letter with the number
of times that the alphabet has been used up before, unless this is the first time.
-/

namespace TypedHoles

namespace Name

variable {kind : NameKind}

/-- The name with an index, if there is one. -/
def ofIndex? (index : Nat) : Option (Name kind) :=
  if index < UInt32.size then some ⟨UInt32.ofNat index⟩ else none

@[simp]
theorem ofIndex?_toNat (name : Name kind) : ofIndex? name.index.toNat = some name := by
  simp [ofIndex?, name.index.toNat_lt_size]

/-- The place of a letter in the alphabet. -/
def letter? (char : Char) : Option Nat :=
  if char.isLower then some (char.toNat - 'a'.toNat) else none

/-- The name that a text stands for. -/
def ofChars? : {kind : NameKind} → List Char → Option (Name kind)
  | .hole, '?' :: digits | .var, 'x' :: digits => (Json.natural? digits).bind ofIndex?
  | .typeVar, [char] => (letter? char).bind ofIndex?
  | .typeVar, char :: digits => do
      let letter ← letter? char
      let round ← Json.natural? digits
      ofIndex? (letter + 26 * round)
  | _, _ => none

theorem toList_toString (number : Nat) : (toString number).toList = Nat.toDigits 10 number := by
  rw [Nat.toString_eq_ofList_toDigits, String.toList_ofList]

theorem isDigit_of_mem_toString {number : Nat} {char : Char}
    (member : char ∈ (toString number).toList) : char.isDigit = true := by
  rw [toList_toString] at member
  exact Nat.isDigit_of_mem_toDigits (by decide) (by decide) member

theorem natural?_toString (number : Nat) :
    Json.natural? (toString number).toList = some number := by
  have digits : Json.areDigits (toString number).toList = true := by
    simp only [Json.areDigits, Bool.and_eq_true, List.all_eq_true]
    refine ⟨?_, fun char => isDigit_of_mem_toString⟩
    simp [Nat.toDigits_ne_nil]
  rw [Json.natural?, if_pos digits, toList_toString, Nat.ofDigitChars_ten_toDigits]

theorem letter?_ofNat : ∀ place < 26, letter? (Char.ofNat ('a'.toNat + place)) = some place := by
  decide

theorem toList_letters (index : Nat) :
    (letters index).toList = Char.ofNat ('a'.toNat + index % 26) ::
      if index / 26 = 0 then [] else (toString (index / 26)).toList := by
  by_cases first : index / 26 = 0 <;> simp [letters, first]

theorem toList_text_hole (name : HoleName) :
    name.text.toList = '?' :: (toString name.index.toNat).toList := by
  simp [text]

theorem toList_text_var (name : VarName) :
    name.text.toList = 'x' :: (toString name.index.toNat).toList := by
  simp [text]

theorem text_ne_empty (name : Name kind) : name.text ≠ "" := by
  cases kind with
  | hole | var => simp [text]
  | typeVar => exact mt (congrArg String.toList) (by simp [text, toList_letters])

/-- A name can be read off its text. -/
theorem ofChars?_text (name : Name kind) : ofChars? name.text.toList = some name := by
  cases kind with
  | hole =>
      rw [toList_text_hole, ofChars?, natural?_toString, Option.bind_some, ofIndex?_toNat]
  | var =>
      rw [toList_text_var, ofChars?, natural?_toString, Option.bind_some, ofIndex?_toNat]
  | typeVar =>
      rw [text, toList_letters]
      have place := letter?_ofNat _ (Nat.mod_lt name.index.toNat (by decide : 0 < 26))
      have whole := Nat.mod_add_div name.index.toNat 26
      by_cases first : name.index.toNat / 26 = 0
      · rw [first, Nat.mul_zero, Nat.add_zero] at whole
        rw [if_pos first, ofChars?, place, whole, Option.bind_some, ofIndex?_toNat]
      · rw [if_neg first, ofChars?, place, natural?_toString]
        · simp [whole]
        · simp

theorem mark?_of_isDigit {char : Char} (digit : char.isDigit = true) :
    Mark.ofChar? char = none := by
  unfold Mark.ofChar?
  split <;> simp_all

theorem mark?_of_lower : ∀ place < 26,
    Mark.ofChar? (Char.ofNat ('a'.toNat + place)) = none := by
  decide

/-- There is no mark in the text of a name. -/
theorem mark?_of_mem_text {name : Name kind} {char : Char} (member : char ∈ name.text.toList) :
    Mark.ofChar? char = none := by
  cases kind with
  | hole =>
      rw [toList_text_hole, List.mem_cons] at member
      rcases member with rfl | member
      · rfl
      · exact mark?_of_isDigit (isDigit_of_mem_toString member)
  | var =>
      rw [toList_text_var, List.mem_cons] at member
      rcases member with rfl | member
      · rfl
      · exact mark?_of_isDigit (isDigit_of_mem_toString member)
  | typeVar =>
      rw [text, toList_letters, List.mem_cons] at member
      rcases member with rfl | member
      · exact mark?_of_lower _ (Nat.mod_lt _ (by decide))
      · by_cases first : name.index.toNat / 26 = 0
        · simp [first] at member
        · rw [if_neg first] at member
          exact mark?_of_isDigit (isDigit_of_mem_toString member)

end Name

end TypedHoles
