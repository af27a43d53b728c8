/-!
# Names

Holes, variables and type variables are named by indices of 32 bits.  The kind
of a name is part of its type, so a hole is never taken for a variable.  There
is no name after the last index: asking for one fails instead of starting over
at zero.
-/

namespace TypedHoles

/-- What a name stands for. -/
inductive NameKind where
  | hole
  | var
  | typeVar
  deriving DecidableEq, Repr

/-- A name of one kind, identified by its index. -/
@[ext]
structure Name (kind : NameKind) where
  index : UInt32
  deriving DecidableEq, Repr

/-- The name of a hole. -/
abbrev HoleName := Name .hole

/-- The identity of a bound variable; the label shown for it belongs to its binder. -/
abbrev VarName := Name .var

/-- A type variable, which has a meaning only inside one inference. -/
abbrev TypeVar := Name .typeVar

/-- All names of a kind have been used up. -/
inductive Exhausted where
  | exhausted
  deriving DecidableEq, Repr

/-- What is reported when the names of a kind have been used up. -/
def Exhausted.message (_ : Exhausted) : String :=
  "attempt to add with overflow"

namespace Name

variable {kind : NameKind}

/-- Names are ordered by their indices. -/
instance : LE (Name kind) where
  le first second := first.index ≤ second.index

instance (first second : Name kind) : Decidable (first ≤ second) :=
  inferInstanceAs (Decidable (first.index ≤ second.index))

instance : Max (Name kind) where
  max first second := if first ≤ second then second else first

/-- The name after this one, unless this is the last one. -/
def succ? (name : Name kind) : Except Exhausted (Name kind) :=
  if name.index.toNat + 1 < UInt32.size then
    .ok ⟨name.index + 1⟩
  else
    .error .exhausted

theorem le_iff_toNat {first second : Name kind} :
    first ≤ second ↔ first.index.toNat ≤ second.index.toNat :=
  UInt32.le_iff_toNat_le

theorem succ?_eq_ok_iff {name next : Name kind} :
    name.succ? = .ok next ↔ next.index.toNat = name.index.toNat + 1 := by
  have bound := next.index.toNat_lt
  by_cases last : name.index.toNat + 1 < UInt32.size
  · simp only [succ?, if_pos last, Except.ok.injEq, Name.ext_iff,
      ← UInt32.toNat_inj, UInt32.toNat_add, UInt32.toNat_one]
    rw [Nat.mod_eq_of_lt last]
    exact eq_comm
  · simp only [succ?, if_neg last, reduceCtorEq, false_iff]
    have size : UInt32.size = 2 ^ 32 := rfl
    omega

theorem succ?_eq_error_iff {name : Name kind} :
    name.succ? = .error .exhausted ↔ name.index.toNat = UInt32.size - 1 := by
  have bound := name.index.toNat_lt
  have size : UInt32.size = 2 ^ 32 := rfl
  by_cases last : name.index.toNat + 1 < UInt32.size
  · simp only [succ?, if_pos last, reduceCtorEq, false_iff]
    omega
  · simp only [succ?, if_neg last, true_iff]
    omega

/-- The text of a type variable: a letter, followed by the number of times the
alphabet has been used up before, if there is one. -/
def letters (index : Nat) : String :=
  let letter := String.singleton (Char.ofNat ('a'.toNat + index % 26))
  if index / 26 = 0 then letter else letter ++ toString (index / 26)

/-- The text of a name. -/
def text : {kind : NameKind} → Name kind → String
  | .hole, name => "?" ++ toString name.index.toNat
  | .var, name => "x" ++ toString name.index.toNat
  | .typeVar, name => letters name.index.toNat

/-- The index of a name in parentheses behind the word for its kind. -/
def taggedText : {kind : NameKind} → Name kind → String
  | .hole, name => "HoleName(" ++ toString name.index.toNat ++ ")"
  | .var, name => "VarName(" ++ toString name.index.toNat ++ ")"
  | .typeVar, name => "TypeVar(" ++ toString name.index.toNat ++ ")"

end Name

end TypedHoles
