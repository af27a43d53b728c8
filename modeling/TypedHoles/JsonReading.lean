import TypedHoles.Json

/-!
# Reading JSON text

A text is read in two passes.  The first one goes through its characters and
makes words and quoted strings of them; the second one goes through these tokens
and keeps the arrays and objects that are still open on a stack.  Both passes
take one step for every character or token.
-/

namespace TypedHoles

namespace Json

/-- A word of a JSON text. -/
inductive Token where
  | openArray
  | closeArray
  | openObject
  | closeObject
  | comma
  | colon
  | scalar (value : Json)

/-- Whether the characters are digits, and there is at least one. -/
def areDigits (chars : List Char) : Bool :=
  !chars.isEmpty && chars.all Char.isDigit

/-- Read a natural number. -/
def natural? (chars : List Char) : Option Nat :=
  if areDigits chars then some (Nat.ofDigitChars 10 chars 0) else none

/-- Read an exponent; without one, it is zero. -/
def exponent? : List Char → Option Int
  | [] => some 0
  | mark :: chars =>
      if mark = 'e' || mark = 'E' then
        match chars with
        | '+' :: digits => (natural? digits).map Int.ofNat
        | '-' :: digits => (natural? digits).map fun value => -Int.ofNat value
        | digits => (natural? digits).map Int.ofNat
      else
        none

/-- Read what may follow the integer part of a number: the digits behind the point
and the exponent. -/
def fraction? : List Char → Option (List Char × Int)
  | '.' :: chars =>
      let digits := chars.takeWhile Char.isDigit
      if areDigits digits then
        (exponent? (chars.dropWhile Char.isDigit)).map fun exponent => (digits, exponent)
      else
        none
  | chars => (exponent? chars).map fun exponent => ([], exponent)

/-- The least integer that is rounded beyond the largest number of double
precision. -/
def numberBound : Nat :=
  Nat.pow 2 1024 - Nat.pow 2 970

/-- Whether the number with these digits, times a power of ten, reaches
`numberBound`.  The powers that are computed do not grow with the exponent. -/
def isTooLarge (digits : List Char) (exponent : Int) : Bool :=
  let significand := Nat.ofDigitChars 10 digits 0
  match exponent with
  | .ofNat places =>
      significand ≠ 0 &&
        (places > 308 || numberBound ≤ significand * Nat.pow 10 places)
  | .negSucc places =>
      numberBound ≤ significand / Nat.pow 10 (min (places + 1) digits.length)

/-- Read a number.  It has to be in the range of double precision.  Only what is
written as an integer counts as one, and a negative zero does not. -/
def number? (chars : List Char) : Option Json := do
  let (negative, unsigned) := match chars with
    | '-' :: rest => (true, rest)
    | rest => (false, rest)
  let digits := unsigned.takeWhile Char.isDigit
  let rest := unsigned.dropWhile Char.isDigit
  let value ← natural? digits
  let (decimals, exponent) ← fraction? rest
  if digits.length > 1 && digits.head? = some '0' then
    none
  else if isTooLarge (digits ++ decimals) (exponent - decimals.length) then
    none
  else if rest.isEmpty && !(negative && value = 0) then
    return .int (if negative then -value else value)
  else
    return .fraction (String.ofList chars)

/-- Read a word that is not quoted. -/
def word? (chars : List Char) : Option Json :=
  match String.ofList chars with
  | "null" => some .null
  | "true" => some (.bool true)
  | "false" => some (.bool false)
  | _ => number? chars

/-- The character that stands for itself, or for a control character, behind a
backslash. -/
def unescaped? : Char → Option Char
  | '"' => some '"'
  | '\\' => some '\\'
  | '/' => some '/'
  | 'b' => some '\x08'
  | 'f' => some '\x0c'
  | 'n' => some '\n'
  | 'r' => some '\r'
  | 't' => some '\t'
  | _ => none

/-- The value of a hexadecimal digit. -/
def hexDigit? (char : Char) : Option Nat :=
  if '0' ≤ char ∧ char ≤ '9' then
    some (char.toNat - '0'.toNat)
  else if 'a' ≤ char ∧ char ≤ 'f' then
    some (char.toNat - 'a'.toNat + 10)
  else if 'A' ≤ char ∧ char ≤ 'F' then
    some (char.toNat - 'A'.toNat + 10)
  else
    none

/-- The characters for numbers, of which some are halves of surrogate pairs. -/
def joinSurrogates : List Nat → Option (List Char)
  | [] => some []
  | [code] =>
      if h : code.isValidChar then some [Char.ofNatAux code h] else none
  | code :: next :: codes =>
      if h : code.isValidChar then
        return Char.ofNatAux code h :: (← joinSurrogates (next :: codes))
      else if 0xD800 ≤ code ∧ code < 0xDC00 ∧ 0xDC00 ≤ next ∧ next < 0xE000 then
        return Char.ofNat (0x10000 + (code - 0xD800) * 0x400 + (next - 0xDC00)) ::
          (← joinSurrogates codes)
      else
        none

/-- What has been read of the current word.  Characters are in reverse order,
those of a quoted string by their numbers. -/
inductive Word where
  | none
  | plain (chars : List Char)
  | quoted (codes : List Nat)
  /-- A backslash has been read. -/
  | escape (codes : List Nat)
  /-- So many digits of an escaped number are missing. -/
  | escapedCode (codes : List Nat) (missing code : Nat)

/-- The tokens that have been read, in reverse order, and the current word. -/
structure Scan where
  tokens : List Token
  word : Word

/-- The token for a character that never belongs to a plain word. -/
def punctuation? : Char → Option Token
  | '[' => some .openArray
  | ']' => some .closeArray
  | '\x7b' => some .openObject
  | '\x7d' => some .closeObject
  | ',' => some .comma
  | ':' => some .colon
  | _ => none

/-- Whether a character separates words. -/
def isBlank (char : Char) : Bool :=
  char = ' ' || char = '\t' || char = '\n' || char = '\r'

/-- Read a character between words. -/
def Scan.begin (tokens : List Token) (char : Char) : Scan :=
  match punctuation? char with
  | some token => ⟨token :: tokens, .none⟩
  | none =>
      if isBlank char then
        ⟨tokens, .none⟩
      else if char = '"' then
        ⟨tokens, .quoted []⟩
      else
        ⟨tokens, .plain [char]⟩

/-- Read a character. -/
def Scan.step (scan : Scan) (char : Char) : Option Scan :=
  match scan.word with
  | .none => some (begin scan.tokens char)
  | .plain chars =>
      if (punctuation? char).isSome || isBlank char || char = '"' then do
        return begin (.scalar (← word? chars.reverse) :: scan.tokens) char
      else
        some { scan with word := .plain (char :: chars) }
  | .quoted codes =>
      if char = '"' then do
        let chars ← joinSurrogates codes.reverse
        return ⟨.scalar (.string (String.ofList chars)) :: scan.tokens, .none⟩
      else if char = '\\' then
        some { scan with word := .escape codes }
      else if char.toNat < 0x20 then
        none
      else
        some { scan with word := .quoted (char.toNat :: codes) }
  | .escape codes =>
      if char = 'u' then
        some { scan with word := .escapedCode codes 3 0 }
      else do
        let char ← unescaped? char
        return { scan with word := .quoted (char.toNat :: codes) }
  | .escapedCode codes missing code => do
      let code := code * 16 + (← hexDigit? char)
      return { scan with
        word := match missing with
          | 0 => .quoted (code :: codes)
          | missing + 1 => .escapedCode codes missing code }

/-- The tokens of a text. -/
def tokens? (text : String) : Option (List Token) := do
  let scan ← text.toList.foldlM Scan.step ⟨[], .none⟩
  match scan.word with
  | .none => return scan.tokens.reverse
  | .plain chars =>
      return (.scalar (← word? chars.reverse) :: scan.tokens).reverse
  | _ => none

/-- An array or object that is still open.  Its parts are in reverse order. -/
inductive Frame where
  | array (items : List Json)
  | object (members : List (String × Json))
  /-- An object of which a key has been read without its value. -/
  | member (members : List (String × Json)) (key : String)

/-- What may come next. -/
inductive Expectation where
  | value
  | itemOrEnd
  | key
  | keyOrEnd
  | colon (key : String)
  | commaOrEnd
  /-- Nothing, because the value is complete. -/
  | done (value : Json)

/-- What has been read of a value. -/
structure Reading where
  frames : List Frame
  expectation : Expectation

namespace Reading

/-- Read a whole value. -/
def complete (value : Json) : List Frame → Option Reading
  | [] => some ⟨[], .done value⟩
  | .array items :: frames => some ⟨.array (value :: items) :: frames, .commaOrEnd⟩
  | .member members key :: frames =>
      some ⟨.object ((key, value) :: members) :: frames, .commaOrEnd⟩
  | .object _ :: _ => none

/-- Read the token with which a value begins. -/
def beginValue (frames : List Frame) : Token → Option Reading
  | .scalar value => complete value frames
  | .openArray => some ⟨.array [] :: frames, .itemOrEnd⟩
  | .openObject => some ⟨.object [] :: frames, .keyOrEnd⟩
  | _ => none

/-- Read the token that ends an array or an object. -/
def finish : Token → List Frame → Option Reading
  | .closeArray, .array items :: frames => complete (.array items.reverse) frames
  | .closeObject, .object members :: frames =>
      complete (.object members.reverse) frames
  | _, _ => none

/-- Read a token. -/
def step (reading : Reading) (token : Token) : Option Reading :=
  match reading.expectation, token, reading.frames with
  | .value, token, frames => beginValue frames token
  | .itemOrEnd, .closeArray, frames => finish .closeArray frames
  | .itemOrEnd, token, frames => beginValue frames token
  | .key, .scalar (.string key), frames => some ⟨frames, .colon key⟩
  | .keyOrEnd, .scalar (.string key), frames => some ⟨frames, .colon key⟩
  | .keyOrEnd, token, frames => finish token frames
  | .colon key, .colon, .object members :: frames =>
      some ⟨.member members key :: frames, .value⟩
  | .commaOrEnd, .comma, .array items :: frames =>
      some ⟨.array items :: frames, .value⟩
  | .commaOrEnd, .comma, .object members :: frames =>
      some ⟨.object members :: frames, .key⟩
  | .commaOrEnd, token, frames => finish token frames
  | _, _, _ => none

end Reading

/-- Read the text of a value. -/
def ofText? (text : String) : Option Json := do
  let reading ← (← tokens? text).foldlM Reading.step ⟨[], .value⟩
  match reading.expectation with
  | .done value => return value
  | _ => none

end Json

end TypedHoles
