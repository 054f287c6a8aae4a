import RoutineSpec.Token

/-! # Data types and literals

A declared type is one of three base types, or a pointer to one. A literal is an integer or a truth
value.
-/

namespace RoutineSpec

inductive BaseType where
  | int
  | float
  | bool
  deriving Repr, DecidableEq

namespace BaseType

/-- The reserved word of a base type. -/
def keyword : BaseType → Keyword
  | .int => .int
  | .float => .float
  | .bool => .bool

def spelling (base : BaseType) : String :=
  base.keyword.spelling

/-- Every base type. -/
def all : List BaseType := [.int, .float, .bool]

def ofKeyword? (word : Keyword) : Option BaseType :=
  all.find? fun base => base.keyword = word

theorem ofKeyword?_keyword (base : BaseType) : ofKeyword? base.keyword = some base := by
  cases base <;> rfl

theorem ofKeyword?_eq_some_iff {word : Keyword} {base : BaseType} :
    ofKeyword? word = some base ↔ word = base.keyword := by
  constructor
  · intro h
    have hit := List.find?_some h
    exact (of_decide_eq_true hit).symm
  · rintro rfl
    exact ofKeyword?_keyword base

end BaseType

/-- A base type, or a pointer to one. -/
structure DataType where
  base : BaseType
  pointer : Bool
  deriving Repr, DecidableEq

namespace DataType

/-- The base type's word, with a star for a pointer. -/
def spelling (type : DataType) : String :=
  if type.pointer then type.base.spelling ++ "*" else type.base.spelling

/-- Every data type. -/
def all : List DataType := BaseType.all.flatMap fun base => [⟨base, false⟩, ⟨base, true⟩]

end DataType

/-- The word of a truth value. -/
def truthWord (value : Bool) : String :=
  if value then "true" else "false"

inductive Literal where
  | int (value : Int)
  | bool (value : Bool)
  deriving Repr, DecidableEq

/-- Decimal digits with a sign for a negative number, or the word of a truth value. -/
def Literal.spelling : Literal → String
  | .int value => toString value
  | .bool value => truthWord value

end RoutineSpec
