/-!
# JSON values

Saved programs and states are JSON values.  This module holds the values, their
compact text, and the ways in which a value is taken apart when something is read
from it.  The parts of a value are smaller than the value itself, so that reading
can recurse into them.
-/

namespace TypedHoles

/-- A JSON value.  Members of an object keep their order. -/
inductive Json where
  | null
  | bool (value : Bool)
  | int (value : Int)
  /-- A number that is not written as an integer, by its text. -/
  | fraction (text : String)
  | string (value : String)
  | array (items : List Json)
  | object (members : List (String × Json))

namespace Json

/-- The four hexadecimal digits of a number below `2 ^ 16`. -/
def hexDigits (number : Nat) : String :=
  String.ofList ((Nat.toDigits 16 (number + 0x10000)).drop 1)

/-- The text of a character inside a quoted string.  Quotation marks,
backslashes and control characters are escaped. -/
def quotedChar (char : Char) : String :=
  match char with
  | '"' => "\\\""
  | '\\' => "\\\\"
  | '\n' => "\\n"
  | '\r' => "\\r"
  | '\t' => "\\t"
  | '\x08' => "\\b"
  | '\x0c' => "\\f"
  | _ =>
      if char.toNat < 0x20 then
        "\\u" ++ hexDigits char.toNat
      else
        String.singleton char

/-- A text as a quoted string. -/
def quoted (text : String) : String :=
  "\"" ++ String.join (text.toList.map quotedChar) ++ "\""

mutual

/-- The text of a value without blanks. -/
def text : Json → String
  | null => "null"
  | bool true => "true"
  | bool false => "false"
  | int value => toString value
  | fraction text => text
  | string value => quoted value
  | array items => "[" ++ ",".intercalate (itemTexts items) ++ "]"
  | object members => "\x7b" ++ ",".intercalate (memberTexts members) ++ "\x7d"

/-- The texts of the items of an array. -/
def itemTexts : List Json → List String
  | [] => []
  | item :: items => item.text :: itemTexts items

/-- The texts of the members of an object. -/
def memberTexts : List (String × Json) → List String
  | [] => []
  | (key, value) :: members =>
      (quoted key ++ ":" ++ value.text) :: memberTexts members

end

/-- The values below `json`. -/
abbrev Part (json : Json) :=
  { part : Json // sizeOf part < sizeOf json }

/-- Whether the value is `null`. -/
def isNull : Json → Bool
  | null => true
  | _ => false

/-- The value of the first member called `key`. -/
def member? (key : String) : (members : List (String × Json)) →
    Option { value : Json // sizeOf value < sizeOf members }
  | [] => none
  | (other, value) :: members =>
      if other = key then
        some ⟨value, by simp; omega⟩
      else
        (member? key members).map fun ⟨value, smaller⟩ => ⟨value, by
          simp
          omega⟩

/-- The items of an array. -/
def items? : (json : Json) → Option (List json.Part)
  | array items => some <| items.attach.map fun ⟨item, isItem⟩ => ⟨item, by
      have smaller := List.sizeOf_lt_of_mem isItem
      simp
      omega⟩
  | _ => none

theorem sizeOf_null_lt_string (tag : String) :
    sizeOf null < sizeOf (string tag) := by
  rw [null.sizeOf_spec, string.sizeOf_spec]
  cases tag
  rw [String.ofByteArray.sizeOf_spec]
  omega

/-- A variant is an object with one member, its tag and its content.  A string
stands for the variant of that tag with the content `null`. -/
def variant? : (json : Json) → Option (String × json.Part)
  | string tag => some (tag, ⟨null, sizeOf_null_lt_string tag⟩)
  | object [(tag, content)] => some (tag, ⟨content, by simp; omega⟩)
  | _ => none

/-- A record is an object, whose other members do not matter, or an array of its
fields in order.  At least `required` fields have to be present in an array; the
fields that are missing are `none`. -/
def fields? (keys : List String) (required : Nat) :
    (json : Json) → Option (List (Option json.Part))
  | object members => some <| keys.map fun key =>
      (member? key members).map fun ⟨value, smaller⟩ => ⟨value, by
        simp
        omega⟩
  | array items =>
      if required ≤ items.length ∧ items.length ≤ keys.length then do
        let items ← (array items).items?
        return items.map some ++
          List.replicate (keys.length - items.length) none
      else
        none
  | _ => none

/-- The fields of a record that has to be complete if it is an array. -/
def record? (json : Json) (keys : List String) :
    Option (List (Option json.Part)) :=
  json.fields? keys keys.length

/-- The fields of a record that has to be complete. -/
def complete? (json : Json) (keys : List String) : Option (List json.Part) := do
  (← json.record? keys).mapM id

namespace Part

variable {json : Json}

theorem sizeOf_lt (part : json.Part) : sizeOf part.val < sizeOf json :=
  part.property

/-- A part of a part. -/
def widen (part : json.Part) (inner : part.val.Part) : json.Part :=
  ⟨inner.val, Nat.lt_trans inner.property part.property⟩

/-- The items of a part that is an array. -/
def items? (part : json.Part) : Option (List json.Part) :=
  part.val.items?.map (List.map part.widen)

/-- The fields of a part that is an object; all of them have to be there. -/
def members? (part : json.Part) (keys : List String) :
    Option (List json.Part) :=
  match part.val with
  | object _ => (part.val.complete? keys).map (List.map part.widen)
  | _ => none

/-- The fields of a part that is a record; all of them have to be there. -/
def complete? (part : json.Part) (keys : List String) :
    Option (List json.Part) :=
  (part.val.complete? keys).map (List.map part.widen)

end Part

/-- A variant with content. -/
def variant (tag : String) (content : Json) : Json :=
  object [(tag, content)]

/-- A string, or `null`. -/
def ofLabel : Option String → Json
  | none => null
  | some label => string label

/-- Read a string or `null`. -/
def label? : Json → Option (Option String)
  | null => some none
  | string label => some (some label)
  | _ => none

/-- Read a list of things. -/
def list? {α : Type} (read : Json → Option α) : Json → Option (List α)
  | array items => items.mapM read
  | _ => none

/-- Read a pair. -/
def pair? {α β : Type} (first : Json → Option α) (second : Json → Option β) :
    Json → Option (α × β)
  | array [left, right] => return (← first left, ← second right)
  | _ => none

end Json

end TypedHoles
