/-! # Places in a source text

A location is a line and a column. Both count from one, and a column counts characters, not bytes.
-/

namespace RoutineSpec

/-- A line and a column of a source text. -/
structure Location where
  line : Nat
  column : Nat
  deriving Repr, DecidableEq

namespace Location

/-- Where every text starts. -/
def start : Location := ⟨1, 1⟩

/-- The place of the character that follows `c`. Only a line feed starts a new line. -/
def after (loc : Location) (c : Char) : Location :=
  if c = '\n' then ⟨loc.line + 1, 1⟩ else ⟨loc.line, loc.column + 1⟩

/-- The place just past a run of characters. -/
def past (loc : Location) (text : List Char) : Location :=
  text.foldl after loc

@[simp] theorem past_nil (loc : Location) : loc.past [] = loc := rfl

@[simp] theorem past_cons (loc : Location) (c : Char) (text : List Char) :
    loc.past (c :: text) = (loc.after c).past text := rfl

theorem past_append (loc : Location) (text more : List Char) :
    loc.past (text ++ more) = (loc.past text).past more := by
  simp [past]

/-- How many columns there are: a column is a 64-bit word. -/
def columnCount : Nat := 18446744073709551616

/-- `next` is the column right after `loc`, on the same line. The last column is followed by column
    zero. -/
def Touches (loc next : Location) : Prop :=
  loc.line = next.line ∧ (loc.column + 1) % columnCount = next.column

instance (loc next : Location) : Decidable (loc.Touches next) :=
  inferInstanceAs (Decidable (_ ∧ _))

/-- The written form, `line:column`. -/
def spelling (loc : Location) : String := s!"{loc.line}:{loc.column}"

end Location

end RoutineSpec
