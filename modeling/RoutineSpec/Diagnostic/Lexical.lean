import RoutineSpec.Location

/-! # Lexical errors

None of them stops the reading of a text: the offending part is skipped, or read as the integer that
comes closest.
-/

namespace RoutineSpec

/-- What is wrong with a piece of text. -/
inductive LexicalProblem where
  /-- A character that starts no lexeme. -/
  | illegalCharacter (c : Char)
  /-- A number with dots in it. -/
  | decimalLiteral (literal : String)
  /-- A number beyond the largest integer. -/
  | integerOverflow (literal : String)
  deriving Repr, DecidableEq

def LexicalProblem.describe : LexicalProblem → String
  | .illegalCharacter c => s!"illegal character '{c}'"
  | .decimalLiteral literal => s!"decimal literal '{literal}' truncated to an integer"
  | .integerOverflow literal => s!"integer literal '{literal}' is out of range"

/-- A lexical problem and where it starts. -/
structure LexicalError where
  problem : LexicalProblem
  loc : Location
  deriving Repr, DecidableEq

def LexicalError.message (error : LexicalError) : String :=
  s!"Lexer error at line {error.loc.line}, column {error.loc.column}: {error.problem.describe}"

end RoutineSpec
