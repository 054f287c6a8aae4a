import RoutineSpec.Grammar.Rule

/-! # Expressions

    expression  ::= disjunction [ "?" expression ":" expression ]
    disjunction ::= the loosest of six levels of left-associative binary operators
    unary       ::= { "+" | "-" | "!" | "~" } suffixed
    suffixed    ::= primary { "[" expression "]" | "(" [ expression { "," expression } ] ")" }
    primary     ::= integer | "true" | "false" | identifier | "(" expression ")"

Only a name can be called. The place of a binary or conditional expression is its operator, that of an
index its bracket, and that of a call the called name.
-/

namespace RoutineSpec

/-- The binary operator of one level that a terminal stands for. -/
def Terminal.binaryOp? (level : Precedence) : Terminal → Option BinaryOp
  | .mark sign => (BinaryOp.ofMark? sign).filter (·.precedence = level)
  | _ => none

/-- The unary operator that a terminal stands for. -/
def Terminal.unaryOp? : Terminal → Option UnaryOp
  | .mark sign => UnaryOp.ofMark? sign
  | _ => none

/-- The one-word expression that a terminal stands for, given its place. -/
def Terminal.leaf? : Terminal → Option (Location → Tree)
  | .integer value => some fun loc => .constant loc (.int value)
  | .keyword .true_ => some fun loc => .constant loc (.bool true)
  | .keyword .false_ => some fun loc => .constant loc (.bool false)
  | .identifier name => some fun loc => .var loc name none none
  | _ => none

/-- The name that is called, with its place, where the expression stands before arguments. -/
def Tree.callee? : Tree → Option (String × Location)
  | .var loc name _ _ => some (name, loc)
  | _ => none

namespace Grammar

open Rule

mutual

def expression : Nat → Rule Tree
  | 0 => exhausted
  | n + 1 => do
    let condition ← binary n Precedence.ladder
    match ← accept (.mark .question) with
    | none => return condition
    | some loc => do
      let onTrue ← expression n
      expect (.mark .colon) .colonInConditional
      let onFalse ← expression n
      return .conditional loc condition onTrue onFalse

/-- An expression of the given levels of binary operators, the loosest first. -/
def binary : Nat → List Precedence → Rule Tree
  | 0, _ => exhausted
  | n + 1, [] => unary n
  | n + 1, level :: tighter => do
    let left ← binary n tighter
    chain n level tighter left

/-- What follows the first operand of one level: operators of the level, each with an operand of the tighter
    levels. -/
def chain : Nat → Precedence → List Precedence → Tree → Rule Tree
  | 0, _, _, _ => exhausted
  | n + 1, level, tighter, left => do
    match ← take? (Terminal.binaryOp? level) with
    | none => return left
    | some (op, loc) => do
      let right ← binary n tighter
      chain n level tighter (.binary loc op left right)

def unary : Nat → Rule Tree
  | 0 => exhausted
  | n + 1 => do
    match ← take? Terminal.unaryOp? with
    | none => suffixed n
    | some (op, loc) => do
      let operand ← unary n
      return .unary loc op operand

def suffixed : Nat → Rule Tree
  | 0 => exhausted
  | n + 1 => do
    let operand ← primary n
    suffixes n operand

/-- The indices and calls that follow an operand. -/
def suffixes : Nat → Tree → Rule Tree
  | 0, _ => exhausted
  | n + 1, operand => do
    match ← accept (.mark .openBracket) with
    | some loc => do
      let subscript ← expression n
      expect (.mark .closeBracket) .closeIndex
      suffixes n (.index loc operand subscript)
    | none => do
      if ← follows [.mark .openParen] then do
        match operand.callee? with
        | none => failHere .calledIdentifier
        | some (name, loc) => do
          expect (.mark .openParen) .calledIdentifier
          let args ← callArguments n
          expect (.mark .closeParen) .closeCallArguments
          suffixes n (.call loc name args)
      else return operand

/-- The arguments of a call, up to the closing parenthesis. -/
def callArguments : Nat → Rule (List Tree)
  | 0 => exhausted
  | n + 1 => do
    if ← follows [.mark .closeParen] then return []
    else expressions n

/-- Expressions with commas between them. -/
def expressions : Nat → Rule (List Tree)
  | 0 => exhausted
  | n + 1 => do
    let first ← expression n
    match ← accept (.mark .comma) with
    | none => return [first]
    | some _ => do
      let others ← expressions n
      return first :: others

def primary : Nat → Rule Tree
  | 0 => exhausted
  | n + 1 => do
    match ← take? Terminal.leaf? with
    | some (leaf, loc) => return leaf loc
    | none => do
      expect (.mark .openParen) .expression
      let inner ← expression n
      expect (.mark .closeParen) .closeGroup
      return inner

end

/-- The guard of a loop: an expression without a conditional at its top, which has to be a binary one. The
    complaint about another kind names the first token of the guard. -/
def guard (n : Nat) : Rule Tree := do
  let first ← look Session.next
  let tree ← binary n Precedence.ladder
  if tree.kind = .binary then return tree
  else fail ⟨.looseGuard tree.kind, first.describe, first.loc⟩

end Grammar

end RoutineSpec
