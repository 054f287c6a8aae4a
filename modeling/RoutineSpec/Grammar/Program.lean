import RoutineSpec.Grammar.Statement

/-! # Programs

    program        ::= joinspec sequentialspec
    joinspec       ::= "join" "(" arglist "|" arglist ")" clauses
    sequentialspec ::= "sequential" "(" arglist ")" clauses
    clauses        ::= "returns" "(" identlist ")" "locals" "(" arglist ")" statement
    arglist        ::= [ argument { "," argument } ]
    identlist      ::= [ identifier { "," identifier } ]
    argument       ::= ( "int" | "float" | "bool" ) [ "*" ] identifier

A malformed argument is reported and left out. A malformed body of the join specification is reported, and
an empty block takes its place. Any other error in a header is fatal.
-/

namespace RoutineSpec

/-- The base type that a terminal stands for. -/
def Terminal.baseType? : Terminal → Option BaseType
  | .keyword word => BaseType.ofKeyword? word
  | _ => none

namespace Grammar

open Rule

def dataType : Rule DataType := do
  match ← take? Terminal.baseType? with
  | none => failHere .dataType
  | some (base, _) => do
    let star ← accept (.mark .star)
    return ⟨base, star.isSome⟩

/-- A declared name. The argument and its type are at the place of the type. -/
def argument : Rule Tree := do
  let loc ← here
  let type ← dataType
  let (name, nameLoc) ← identifier
  return .argument loc (.dataType loc type) (.var nameLoc name (some type) none)

/-- The argument at hand, unless it is malformed; then it is skipped. -/
def argumentIfSound : Rule (List Tree) := do
  match ← attempt argument with
  | .ok tree => return [tree]
  | .error error => do
    report error
    skipWith Recovery.skipArgument
    return []

/-- Arguments with commas between them. -/
def arguments : Nat → Rule (List Tree)
  | 0 => exhausted
  | n + 1 => do
    let first ← argumentIfSound
    match ← accept (.mark .comma) with
    | none => return first
    | some _ => do
      let others ← arguments n
      return first ++ others

/-- A list of arguments, which may be empty. -/
def argumentList (n : Nat) : Rule (List Tree) := do
  if ← follows [.mark .closeParen, .mark .pipe] then return []
  else arguments n

/-- Names with commas between them. -/
def identifiers : Nat → Rule (List Tree)
  | 0 => exhausted
  | n + 1 => do
    let (name, loc) ← identifier
    match ← accept (.mark .comma) with
    | none => return [.var loc name none none]
    | some _ => do
      let others ← identifiers n
      return .var loc name none none :: others

/-- A list of names, which may be empty. -/
def identifierList (n : Nat) : Rule (List Tree) := do
  if ← follows [.mark .closeParen] then return []
  else identifiers n

def returnsClause (n : Nat) : Rule (List Tree) := do
  expect (.keyword .returns) .returnsKeyword
  expect (.mark .openParen) .openAfterReturns
  let names ← identifierList n
  expect (.mark .closeParen) .closeReturns
  return names

def localsClause (n : Nat) : Rule (List Tree) := do
  expect (.keyword .locals) .localsKeyword
  expect (.mark .openParen) .openAfterLocals
  let args ← argumentList n
  expect (.mark .closeParen) .closeLocals
  return args

/-- The body of the join specification. A malformed one is skipped with all that stands before the second
    specification. -/
def joinBody (n : Nat) : Rule Tree := do
  let loc ← here
  match ← attempt (statement n) with
  | .ok body => return body
  | .error error => do
    report error
    skipWith Recovery.skipToSequential
    return .block loc []

def joinSpec (n : Nat) : Rule Tree := do
  let loc ← here
  expect (.keyword .join) .joinKeyword
  expect (.mark .openParen) .openAfterJoin
  let left ← argumentList n
  expect (.mark .pipe) .pipeBetweenArguments
  let right ← argumentList n
  expect (.mark .closeParen) .closeJoinArguments
  let returns ← returnsClause n
  let locals ← localsClause n
  let body ← joinBody n
  return .joinSpec loc left right returns locals body

def sequentialSpec (n : Nat) : Rule Tree := do
  let loc ← here
  expect (.keyword .sequential) .sequentialKeyword
  expect (.mark .openParen) .openAfterSequential
  let args ← argumentList n
  expect (.mark .closeParen) .closeSequentialArguments
  let returns ← returnsClause n
  let locals ← localsClause n
  let body ← statement n
  return .sequentialSpec loc args returns locals body

/-- What follows a join specification of the program that starts at `loc`. -/
def programBehind (n : Nat) (loc : Location) (join : Tree) : Rule Tree := do
  let sequential ← sequentialSpec n
  if ← look Session.atEnd then return .program loc join sequential
  else failHere .endOfInput

/-- What is done after a fatal error in a join specification: the second specification is read for its errors,
    and then the first error counts. -/
def brokenProgram (n : Nat) (error : SyntaxError) : Rule Tree := do
  skipWith Recovery.skipToSequential
  match ← attempt (sequentialSpec n) with
  | .ok _ => fail error
  | .error second => do
    record second
    fail error

/-- A whole program, up to the end of input. -/
def program (n : Nat) : Rule Tree := do
  let loc ← here
  match ← attempt (joinSpec n) with
  | .ok join => programBehind n loc join
  | .error error => brokenProgram n error

end Grammar

end RoutineSpec
