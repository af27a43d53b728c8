import TypedHoles.Text

/-!
# Reading texts with parentheses

Terms and types are written as words and as groups in parentheses, one behind the other,
where a group may hold two parts with a comma between them.  A reader goes through such a
text once.  It collects the letters of a word, and it keeps what has been read around the
parentheses that are still open on a stack.  What words and groups mean is up to a
grammar.  The rules say how the text of a whole is read, given how the texts of its parts
are read, whatever stands around them.
-/

namespace TypedHoles

/-- A character that belongs to no word. -/
inductive Mark where
  /-- The end of a word, and nothing else. -/
  | gap
  | opening
  | comma
  | closing
  deriving DecidableEq, Repr

/-- The mark that a character is. -/
def Mark.ofChar? (char : Char) : Option Mark :=
  match char with
  | ' ' | '.' => some .gap
  | '(' => some .opening
  | ',' => some .comma
  | ')' => some .closing
  | _ => none

/-- How words and groups make up a value.  A state is what has been read between two
parentheses. -/
structure Grammar (σ α : Type) where
  /-- Nothing has been read. -/
  start : σ
  /-- Go on with a word. -/
  takeWord : σ → List Char → Option σ
  /-- Go on with what stands in parentheses. -/
  takeGroup : σ → α → Option σ
  /-- What a group with two parts stands for. -/
  pair : α → α → Option α
  /-- What has been read as a whole. -/
  finish : σ → Option α

/-- What is known in the middle of a text. -/
structure Reader (σ α : Type) where
  /-- The letters of a word that may go on. -/
  word : List Char
  /-- What has been read since the last parenthesis was opened. -/
  current : σ
  /-- What has been read before each of the open parentheses, and the part between the
  parenthesis and a comma. -/
  outer : List (σ × Option α)

namespace Grammar

variable {σ α : Type} (grammar : Grammar σ α)

/-- The word is over, if there is one. -/
def endWord (reader : Reader σ α) : Option (Reader σ α) :=
  if reader.word.isEmpty then
    some reader
  else
    (grammar.takeWord reader.current reader.word).map fun current =>
      ⟨[], current, reader.outer⟩

/-- Go on with a mark when no word is being read. -/
def takeMark (reader : Reader σ α) : Mark → Option (Reader σ α)
  | .gap => some reader
  | .opening => some ⟨[], grammar.start, (reader.current, none) :: reader.outer⟩
  | .comma =>
      match reader.outer with
      | (around, none) :: outer =>
          (grammar.finish reader.current).map fun first =>
            ⟨[], grammar.start, (around, some first) :: outer⟩
      | _ => none
  | .closing =>
      match reader.outer with
      | (around, none) :: outer => do
          let value ← grammar.finish reader.current
          let current ← grammar.takeGroup around value
          return ⟨[], current, outer⟩
      | (around, some first) :: outer => do
          let second ← grammar.finish reader.current
          let value ← grammar.pair first second
          let current ← grammar.takeGroup around value
          return ⟨[], current, outer⟩
      | [] => none

/-- Go on with a character. -/
def takeChar (reader : Reader σ α) (char : Char) : Option (Reader σ α) :=
  match Mark.ofChar? char with
  | none => some { reader with word := reader.word ++ [char] }
  | some mark => (grammar.endWord reader).bind fun ended => grammar.takeMark ended mark

/-- Read a whole text. -/
def read? (text : String) : Option α := do
  let reader ← text.toList.foldlM grammar.takeChar ⟨[], grammar.start, []⟩
  let ended ← grammar.endWord reader
  if ended.outer.isEmpty then grammar.finish ended.current else none

/-- Whether a text leads from one state to another, whatever stands around it. -/
def Reads (text : String) (before after : σ) : Prop :=
  ∀ outer, (text.toList.foldlM grammar.takeChar ⟨[], before, outer⟩).bind grammar.endWord =
    some ⟨[], after, outer⟩

/-- Whether a text between two parentheses is read as a value. -/
def Yields (text : String) (value : α) : Prop :=
  ∃ last, grammar.Reads text grammar.start last ∧ grammar.finish last = some value

variable {grammar}

theorem foldlM_takeChar_word {word : List Char}
    (letters : ∀ char ∈ word, Mark.ofChar? char = none) (reader : Reader σ α) :
    word.foldlM grammar.takeChar reader =
      some { reader with word := reader.word ++ word } := by
  induction word generalizing reader with
  | nil => simp
  | cons char word ih =>
      obtain ⟨letter, letters⟩ := List.forall_mem_cons.mp letters
      simp [takeChar, letter, ih letters]

theorem Reads.word {word : String} {before after : σ}
    (letters : ∀ char ∈ word.toList, Mark.ofChar? char = none) (nonempty : word ≠ "")
    (taken : grammar.takeWord before word.toList = some after) :
    grammar.Reads word before after := by
  intro outer
  rw [foldlM_takeChar_word letters]
  simp [endWord, nonempty, taken]

/-- A mark ends what has been read before it. -/
theorem Reads.foldlM_append {text : String} {before after : σ}
    (reads : grammar.Reads text before after) {char : Char} {mark : Mark}
    (marked : Mark.ofChar? char = some mark) (rest : List Char)
    (outer : List (σ × Option α)) :
    (text.toList ++ char :: rest).foldlM grammar.takeChar ⟨[], before, outer⟩ =
      (grammar.takeMark ⟨[], after, outer⟩ mark).bind
        fun reader => rest.foldlM grammar.takeChar reader := by
  obtain ⟨reader, ran, ended⟩ := Option.bind_eq_some_iff.mp (reads outer)
  rw [List.foldlM_append, ran]
  simp [takeChar, marked, ended]

/-- Nothing happens at gaps between words. -/
theorem foldlM_takeChar_gaps {gaps : List Char}
    (marked : ∀ char ∈ gaps, Mark.ofChar? char = some .gap) (current : σ)
    (outer : List (σ × Option α)) :
    gaps.foldlM grammar.takeChar ⟨[], current, outer⟩ = some ⟨[], current, outer⟩ := by
  induction gaps with
  | nil => rfl
  | cons char gaps ih =>
      obtain ⟨gap, marked⟩ := List.forall_mem_cons.mp marked
      simp [takeChar, gap, endWord, takeMark, ih marked]

theorem Reads.separated {first separator second : String} {before middle after : σ}
    (firstReads : grammar.Reads first before middle)
    (secondReads : grammar.Reads second middle after)
    (gaps : ∀ char ∈ separator.toList, Mark.ofChar? char = some .gap)
    (nonempty : separator ≠ "") :
    grammar.Reads (first ++ separator ++ second) before after := by
  intro outer
  obtain ⟨char, rest, chars⟩ := List.exists_cons_of_ne_nil
    (mt String.toList_eq_nil_iff.mp nonempty)
  rw [chars] at gaps
  obtain ⟨gap, gaps⟩ := List.forall_mem_cons.mp gaps
  rw [String.toList_append, String.toList_append, chars, List.append_assoc, List.cons_append,
    firstReads.foldlM_append gap]
  simp [takeMark, foldlM_takeChar_gaps gaps, secondReads outer]

theorem Reads.spaced {first second : String} {before middle after : σ}
    (firstReads : grammar.Reads first before middle)
    (secondReads : grammar.Reads second middle after) :
    grammar.Reads (first ++ " " ++ second) before after :=
  firstReads.separated secondReads (by simp [Mark.ofChar?]) (by decide)

theorem foldlM_takeChar_opening (before : σ) (outer : List (σ × Option α))
    (rest : List Char) :
    ('(' :: rest).foldlM grammar.takeChar ⟨[], before, outer⟩ =
      rest.foldlM grammar.takeChar ⟨[], grammar.start, (before, none) :: outer⟩ :=
  rfl

theorem Yields.parenthesized {text : String} {value : α} {before after : σ}
    (yields : grammar.Yields text value)
    (taken : grammar.takeGroup before value = some after) :
    grammar.Reads ("(" ++ text ++ ")") before after := by
  obtain ⟨last, reads, finished⟩ := yields
  intro outer
  have chars : ("(" ++ text ++ ")").toList = '(' :: (text.toList ++ [')']) := by simp
  rw [chars, foldlM_takeChar_opening, reads.foldlM_append rfl]
  simp [takeMark, finished, taken, endWord]

theorem Yields.parenthesized_pair {first second : String} {left right value : α}
    {before after : σ} (firstYields : grammar.Yields first left)
    (secondYields : grammar.Yields second right)
    (paired : grammar.pair left right = some value)
    (taken : grammar.takeGroup before value = some after) :
    grammar.Reads ("(" ++ first ++ ", " ++ second ++ ")") before after := by
  obtain ⟨firstLast, firstReads, firstFinished⟩ := firstYields
  obtain ⟨secondLast, secondReads, secondFinished⟩ := secondYields
  intro outer
  have chars : ("(" ++ first ++ ", " ++ second ++ ")").toList =
      '(' :: (first.toList ++ ',' :: ([' '] ++ (second.toList ++ [')']))) := by
    simp
  have blank : ∀ char ∈ [' '], Mark.ofChar? char = some .gap := by simp [Mark.ofChar?]
  rw [chars, foldlM_takeChar_opening, firstReads.foldlM_append rfl]
  simp only [takeMark, firstFinished, Option.map_some, Option.bind_some]
  rw [List.foldlM_append, foldlM_takeChar_gaps blank]
  simp only [Option.bind_eq_bind, Option.bind_some]
  rw [secondReads.foldlM_append rfl]
  simp [takeMark, secondFinished, paired, taken, endWord]

theorem Yields.read? {text : String} {value : α} (yields : grammar.Yields text value) :
    grammar.read? text = some value := by
  obtain ⟨last, reads, finished⟩ := yields
  obtain ⟨reader, ran, ended⟩ := Option.bind_eq_some_iff.mp (reads [])
  simp [Grammar.read?, ran, ended, finished]

theorem Yields.unique {text : String} {value other : α} (yields : grammar.Yields text value)
    (otherYields : grammar.Yields text other) : value = other :=
  Option.some.inj (yields.read?.symm.trans otherYields.read?)

end Grammar

end TypedHoles
