import RoutineSpec.Token

/-! # Operators

The twelve binary operators, in six levels of precedence, and the four operators that stand before
their operand. Each is written with one mark.
-/

namespace RoutineSpec

/-- How tightly a binary operator binds. -/
inductive Precedence where
  | disjunction
  | conjunction
  | equality
  | comparison
  | sum
  | product
  deriving Repr, DecidableEq

/-- The levels of binary operators, from the loosest to the tightest. -/
def Precedence.ladder : List Precedence :=
  [.disjunction, .conjunction, .equality, .comparison, .sum, .product]

inductive BinaryOp where
  | add
  | sub
  | mul
  | div
  | eq
  | ne
  | lt
  | le
  | gt
  | ge
  | and
  | or
  deriving Repr, DecidableEq

namespace BinaryOp

def precedence : BinaryOp → Precedence
  | .or => .disjunction
  | .and => .conjunction
  | .eq | .ne => .equality
  | .lt | .le | .gt | .ge => .comparison
  | .add | .sub => .sum
  | .mul | .div => .product

/-- The mark that an operator is written with. -/
def mark : BinaryOp → Mark
  | .add => .plus
  | .sub => .minus
  | .mul => .star
  | .div => .slash
  | .eq => .equalEqual
  | .ne => .notEqual
  | .lt => .less
  | .le => .lessEqual
  | .gt => .greater
  | .ge => .greaterEqual
  | .and => .andAnd
  | .or => .orOr

def spelling (op : BinaryOp) : String :=
  op.mark.spelling

/-- Every binary operator. -/
def all : List BinaryOp := [.add, .sub, .mul, .div, .eq, .ne, .lt, .le, .gt, .ge, .and, .or]

def ofMark? (sign : Mark) : Option BinaryOp :=
  all.find? fun op => op.mark = sign

theorem ofMark?_mark (op : BinaryOp) : ofMark? op.mark = some op := by
  cases op <;> rfl

theorem ofMark?_eq_some_iff {sign : Mark} {op : BinaryOp} : ofMark? sign = some op ↔ sign = op.mark := by
  constructor
  · intro h
    have hit := List.find?_some h
    exact (of_decide_eq_true hit).symm
  · rintro rfl
    exact ofMark?_mark op

end BinaryOp

/-- The operators that stand before their one operand. -/
inductive UnaryOp where
  | plus
  | negate
  | not
  | complement
  deriving Repr, DecidableEq

namespace UnaryOp

/-- The mark that an operator is written with. -/
def mark : UnaryOp → Mark
  | .plus => .plus
  | .negate => .minus
  | .not => .bang
  | .complement => .tilde

def spelling (op : UnaryOp) : String :=
  op.mark.spelling

/-- Every unary operator. -/
def all : List UnaryOp := [.plus, .negate, .not, .complement]

def ofMark? (sign : Mark) : Option UnaryOp :=
  all.find? fun op => op.mark = sign

theorem ofMark?_mark (op : UnaryOp) : ofMark? op.mark = some op := by
  cases op <;> rfl

theorem ofMark?_eq_some_iff {sign : Mark} {op : UnaryOp} : ofMark? sign = some op ↔ sign = op.mark := by
  constructor
  · intro h
    have hit := List.find?_some h
    exact (of_decide_eq_true hit).symm
  · rintro rfl
    exact ofMark?_mark op

end UnaryOp

end RoutineSpec
