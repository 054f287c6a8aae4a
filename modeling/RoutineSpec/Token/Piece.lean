import RoutineSpec.Token

/-! # Pieces of a source text

A source text falls apart into consecutive pieces: blanks, words, numbers, marks and illegal
characters. Each piece is the longest one at its start, and the pieces together are the whole text.
-/

namespace RoutineSpec

/-- Space, tab, carriage return and line feed. -/
def isBlank (c : Char) : Bool :=
  c == ' ' || c == '\t' || c == '\r' || c == '\n'

/-- An ASCII letter or an underscore. -/
def isWordStart (c : Char) : Bool :=
  c.isAlpha || c == '_'

/-- An ASCII letter, an ASCII digit or an underscore. -/
def isWordChar (c : Char) : Bool :=
  c.isAlphanum || c == '_'

def isDot (c : Char) : Bool :=
  c == '.'

theorem isWordChar_of_isWordStart {c : Char} (h : isWordStart c = true) : isWordChar c = true := by
  simp only [isWordStart, isWordChar, Char.isAlphanum, Bool.or_eq_true] at *
  exact h.imp Or.inl id

/-- The longest mark at the start of a text. -/
def Mark.leading? : List Char → Option Mark
  | a :: b :: _ => (ofSpelling? (String.ofList [a, b])).or (ofSpelling? (String.ofList [a]))
  | [a] => ofSpelling? (String.ofList [a])
  | [] => none

theorem Mark.leading?_isPrefix {text : List Char} {sign : Mark} (h : leading? text = some sign) :
    sign.spelling.toList <+: text := by
  unfold leading? at h
  split at h
  · rcases Option.or_eq_some_iff.1 h with h | ⟨_, h⟩ <;> rw [ofSpelling?_eq_some_iff] at h <;>
      simp [← h]
  · rw [ofSpelling?_eq_some_iff] at h
    simp [← h]
  · simp at h

theorem Mark.spelling_toList_ne_nil (sign : Mark) : sign.spelling.toList ≠ [] := by
  cases sign <;> simp [spelling]

/-- One piece of a source text. -/
inductive Piece where
  | blank (c : Char)
  /-- A letter or underscore, then letters, digits and underscores. -/
  | word (text : List Char)
  /-- A run of digits; behind it, maybe, a run of dots and then a run of digits. -/
  | number (digits dots fraction : List Char)
  | mark (sign : Mark)
  /-- A character that starts no other piece. -/
  | illegal (c : Char)
  deriving Repr, DecidableEq

namespace Piece

/-- The characters of a piece. -/
def text : Piece → List Char
  | .blank c | .illegal c => [c]
  | .word text => text
  | .number digits dots fraction => digits ++ dots ++ fraction
  | .mark sign => sign.spelling.toList

/-- The number at the start of a text that starts with a digit. Where no dot follows the digits, the
    fraction is empty, because the run of digits is already as long as can be. -/
def leadingNumber (text : List Char) : Piece :=
  let rest := text.dropWhile Char.isDigit
  .number (text.takeWhile Char.isDigit) (rest.takeWhile isDot)
    ((rest.dropWhile isDot).takeWhile Char.isDigit)

/-- The longest piece at the start of the text `c :: cs`. -/
def leading (c : Char) (cs : List Char) : Piece :=
  if isBlank c then .blank c
  else if isWordStart c then .word ((c :: cs).takeWhile isWordChar)
  else if c.isDigit then leadingNumber (c :: cs)
  else
    match Mark.leading? (c :: cs) with
    | some sign => .mark sign
    | none => .illegal c

theorem text_leadingNumber_isPrefix (text : List Char) : (leadingNumber text).text <+: text := by
  refine ⟨((text.dropWhile Char.isDigit).dropWhile isDot).dropWhile Char.isDigit, ?_⟩
  simp [leadingNumber, Piece.text]

theorem text_leading_isPrefix (c : Char) (cs : List Char) : (leading c cs).text <+: c :: cs := by
  unfold leading
  split
  · simp [text]
  split
  · exact List.takeWhile_prefix _
  split
  · exact text_leadingNumber_isPrefix _
  split
  · exact Mark.leading?_isPrefix ‹_›
  · simp [text]

theorem text_leading_append_drop (c : Char) (cs : List Char) :
    (leading c cs).text ++ (c :: cs).drop (leading c cs).text.length = c :: cs :=
  List.prefix_iff_eq_append.1 (text_leading_isPrefix c cs)

theorem text_leading_ne_nil (c : Char) (cs : List Char) : (leading c cs).text ≠ [] := by
  unfold leading
  split
  · simp [text]
  split
  · simp [text, isWordChar_of_isWordStart ‹_›]
  split
  · simp [leadingNumber, text, *]
  split
  · exact Mark.spelling_toList_ne_nil _
  · simp [text]

/-- The pieces of a text, each the longest one at its start. -/
def split : List Char → List Piece
  | [] => []
  | c :: cs => leading c cs :: split ((c :: cs).drop (leading c cs).text.length)
termination_by text => text.length
decreasing_by
  have := List.length_pos_iff.2 (text_leading_ne_nil c cs)
  simp only [List.length_drop, List.length_cons]
  omega

/-- The pieces of a text are all of it, in order. -/
theorem flatMap_text_split (source : List Char) : (split source).flatMap text = source := by
  fun_induction split source with
  | case1 => rfl
  | case2 c cs ih => rw [List.flatMap_cons, ih, text_leading_append_drop]

theorem exists_leading_of_mem_split {text : List Char} {piece : Piece} (h : piece ∈ split text) :
    ∃ c cs, piece = leading c cs := by
  fun_induction split text with
  | case1 => cases h
  | case2 c cs ih =>
    cases h with
    | head => exact ⟨c, cs, rfl⟩
    | tail _ h => exact ih h

end Piece

end RoutineSpec
