import RoutineSpec.DataType
import RoutineSpec.Location
import RoutineSpec.Operator

/-! # Program trees

A tree is a program or a part of one. Every slot of a tree can hold a tree of any kind: whether a child
fits its slot is a question of its own, which `RoutineSpec.WellFormed` answers.
-/

namespace RoutineSpec

/-- The four families of kinds. -/
inductive Family where
  | expression
  | statement
  | declaration
  | specification
  deriving Repr, DecidableEq

def Family.name : Family → String
  | .expression => "Expression"
  | .statement => "Statement"
  | .declaration => "Declaration"
  | .specification => "Specification"

/-- The kinds of tree. -/
inductive Kind where
  | var
  | constant
  | binary
  | unary
  | call
  | index
  | conditional
  | block
  | assignment
  | selection
  | iteration
  | dataType
  | argument
  | joinSpec
  | sequentialSpec
  | program
  deriving Repr, DecidableEq

namespace Kind

def name : Kind → String
  | .var => "Var"
  | .constant => "Constant"
  | .binary => "BinaryExpr"
  | .unary => "UnaryExpr"
  | .call => "FunctionCall"
  | .index => "ArrayAccess"
  | .conditional => "ConditionalExpression"
  | .block => "Block"
  | .assignment => "Assignment"
  | .selection => "SelectionStatement"
  | .iteration => "IterationStatement"
  | .dataType => "Type"
  | .argument => "Argument"
  | .joinSpec => "JoinSpec"
  | .sequentialSpec => "SequentialSpec"
  | .program => "Program"

/-- Every kind. -/
def all : List Kind :=
  [.var, .constant, .binary, .unary, .call, .index, .conditional, .block, .assignment, .selection,
    .iteration, .dataType, .argument, .joinSpec, .sequentialSpec, .program]

def ofName? (text : String) : Option Kind :=
  all.find? fun kind => kind.name == text

def family : Kind → Family
  | .var | .constant | .binary | .unary | .call | .index | .conditional => .expression
  | .block | .assignment | .selection | .iteration => .statement
  | .dataType | .argument => .declaration
  | .joinSpec | .sequentialSpec | .program => .specification

def isExpression (kind : Kind) : Bool :=
  kind.family = .expression

def isStatement (kind : Kind) : Bool :=
  kind.family = .statement

end Kind

/-- A program or a part of one. Every tree starts with its place in the source. -/
inductive Tree where
  /-- A name; with a declared type where it is declared, and an identity once it is resolved. -/
  | var (loc : Location) (name : String) (type : Option DataType) (id : Option Nat)
  | constant (loc : Location) (value : Literal)
  | binary (loc : Location) (op : BinaryOp) (left right : Tree)
  | unary (loc : Location) (op : UnaryOp) (operand : Tree)
  | call (loc : Location) (name : String) (args : List Tree)
  | index (loc : Location) (base subscript : Tree)
  | conditional (loc : Location) (condition onTrue onFalse : Tree)
  | block (loc : Location) (statements : List Tree)
  | assignment (loc : Location) (target value : Tree)
  /-- A selection without an else branch. -/
  | ifThen (loc : Location) (condition onTrue : Tree)
  /-- A selection with an else branch. -/
  | ifThenElse (loc : Location) (condition onTrue onFalse : Tree)
  | iteration (loc : Location) (init guard update body : Tree)
  | dataType (loc : Location) (type : DataType)
  | argument (loc : Location) (type name : Tree)
  | joinSpec (loc : Location) (left right returns locals : List Tree) (body : Tree)
  | sequentialSpec (loc : Location) (args returns locals : List Tree) (body : Tree)
  | program (loc : Location) (join sequential : Tree)

namespace Tree

def kind : Tree → Kind
  | .var .. => .var
  | .constant .. => .constant
  | .binary .. => .binary
  | .unary .. => .unary
  | .call .. => .call
  | .index .. => .index
  | .conditional .. => .conditional
  | .block .. => .block
  | .assignment .. => .assignment
  | .ifThen .. | .ifThenElse .. => .selection
  | .iteration .. => .iteration
  | .dataType .. => .dataType
  | .argument .. => .argument
  | .joinSpec .. => .joinSpec
  | .sequentialSpec .. => .sequentialSpec
  | .program .. => .program

/-- The place in the source that stands for a tree. -/
def loc : Tree → Location
  | .var loc .. | .constant loc .. | .binary loc .. | .unary loc .. | .call loc .. | .index loc ..
  | .conditional loc .. | .block loc .. | .assignment loc .. | .ifThen loc .. | .ifThenElse loc ..
  | .iteration loc .. | .dataType loc .. | .argument loc .. | .joinSpec loc ..
  | .sequentialSpec loc .. | .program loc .. => loc

end Tree

end RoutineSpec
