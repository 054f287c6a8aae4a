import RoutineSpec.Diagnostic.Lexical
import RoutineSpec.Tree

/-! # Diagnostics

What is reported about a source: lexical errors and syntax errors. A syntax error says what the grammar
expected and names the token that it met instead.
-/

namespace RoutineSpec

/-- What the grammar expects at a place. -/
inductive Expectation where
  | joinKeyword
  | openAfterJoin
  | pipeBetweenArguments
  | closeJoinArguments
  | sequentialKeyword
  | openAfterSequential
  | closeSequentialArguments
  | returnsKeyword
  | openAfterReturns
  | closeReturns
  | localsKeyword
  | openAfterLocals
  | closeLocals
  | endOfInput
  | identifier
  | dataType
  | semicolonAfterAssignment
  | closeBlock
  | equalInAssignment
  | openAfterIf
  | closeIfCondition
  | openAfterFor
  | semicolonAfterInit
  | semicolonAfterGuard
  | closeForClauses
  | openForBody
  | colonInConditional
  | closeIndex
  | calledIdentifier
  | closeCallArguments
  | closeGroup
  | expression
  deriving Repr, DecidableEq

def Expectation.describe : Expectation → String
  | .joinKeyword => "Expected 'join' at start of program"
  | .openAfterJoin => "Expected '(' after 'join'"
  | .pipeBetweenArguments => "Expected '|' between left and right join arguments"
  | .closeJoinArguments => "Expected ')' after join arguments"
  | .sequentialKeyword => "Expected 'sequential' after join specification"
  | .openAfterSequential => "Expected '(' after 'sequential'"
  | .closeSequentialArguments => "Expected ')' after sequential arguments"
  | .returnsKeyword => "Expected 'returns'"
  | .openAfterReturns => "Expected '(' after 'returns'"
  | .closeReturns => "Expected ')' after returned identifiers"
  | .localsKeyword => "Expected 'locals'"
  | .openAfterLocals => "Expected '(' after 'locals'"
  | .closeLocals => "Expected ')' after local declarations"
  | .endOfInput => "Expected end of input after sequential specification"
  | .identifier => "Expected identifier"
  | .dataType => "Expected type"
  | .semicolonAfterAssignment => "Expected ';' after assignment"
  | .closeBlock => "Expected '\x7d' after block"
  | .equalInAssignment => "Expected '=' in assignment"
  | .openAfterIf => "Expected '(' after 'if'"
  | .closeIfCondition => "Expected ')' after if condition"
  | .openAfterFor => "Expected '(' after 'for'"
  | .semicolonAfterInit => "Expected ';' after for initializer"
  | .semicolonAfterGuard => "Expected ';' after for guard"
  | .closeForClauses => "Expected ')' after for clauses"
  | .openForBody => "Expected '\x7b' to open for body"
  | .colonInConditional => "Expected ':' in conditional expression"
  | .closeIndex => "Expected ']' after array index"
  | .calledIdentifier => "Function call must be on identifier"
  | .closeCallArguments => "Expected ')' after function arguments"
  | .closeGroup => "Expected ')' after expression"
  | .expression => "Expected expression"

/-- What is wrong with the syntax. -/
inductive Complaint where
  /-- The next token is not what the grammar expects. -/
  | expected (what : Expectation)
  /-- The guard of a loop is of another kind than a binary expression. -/
  | looseGuard (kind : Kind)
  /-- Something that a caller has put into words. -/
  | worded (text : String)
  deriving Repr, DecidableEq

/-- A complaint about a token, given by its description and its place. -/
structure SyntaxError where
  complaint : Complaint
  found : String
  loc : Location
  deriving Repr, DecidableEq

namespace SyntaxError

/-- What is wrong, the place aside. -/
def describe (error : SyntaxError) : String :=
  match error.complaint with
  | .expected what => s!"{what.describe}, found {error.found}"
  | .looseGuard kind => s!"Loop guard must be a binary expression, found {kind.name}"
  | .worded text => text

def message (error : SyntaxError) : String :=
  s!"Parse error at line {error.loc.line}, column {error.loc.column}: {error.describe}"

end SyntaxError

/-- An error that the reading of a source got over. -/
inductive Diagnostic where
  | lexical (error : LexicalError)
  | syntactic (error : SyntaxError)
  deriving Repr, DecidableEq

namespace Diagnostic

def loc : Diagnostic → Location
  | .lexical error => error.loc
  | .syntactic error => error.loc

def message : Diagnostic → String
  | .lexical error => error.message
  | .syntactic error => error.message

end Diagnostic

/-- The reading of a program that was given up: the error that ended it, and the diagnostics from before
    it ended. -/
structure ReadFailure where
  error : SyntaxError
  diagnostics : List Diagnostic
  deriving Repr, DecidableEq

end RoutineSpec
