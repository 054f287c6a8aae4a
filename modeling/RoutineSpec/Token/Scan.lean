import RoutineSpec.Diagnostic.Lexical
import RoutineSpec.Token.Piece

/-! # Scanning a source text

Scanning places the pieces of a text and keeps, in the order of the text, the lexeme that a piece
stands for and the errors that it gives rise to.
-/

namespace RoutineSpec

/-- What becomes of a number with dots in it. It is read as the integer before the dots either way. -/
inductive DecimalPolicy where
  /-- It is an error. -/
  | reject
  /-- It is accepted silently. -/
  | truncate
  deriving Repr, DecidableEq

/-- The largest 63-bit number, which is the largest that a literal denotes; any larger one is read as
    this one. -/
def maxInteger : Nat := 9223372036854775807

/-- A word is a keyword if it is reserved, and otherwise a name. -/
def Terminal.ofWord (text : String) : Terminal :=
  match Keyword.ofSpelling? text with
  | some word => .keyword word
  | none => .identifier text

namespace Piece

/-- The number that a run of digits denotes. -/
def decimalValue (digits : List Char) : Nat :=
  Nat.ofDigitChars 10 digits 0

/-- What a piece stands for in the grammar, if it stands for anything. -/
def terminal? : Piece → Option Terminal
  | .word text => some (.ofWord (String.ofList text))
  | .number digits _ _ => some (.integer (min (decimalValue digits) maxInteger : Nat))
  | .mark sign => some (.mark sign)
  | .blank _ | .illegal _ => none

/-- What is wrong with a piece. A number may be wrong twice over. -/
def problems (policy : DecimalPolicy) : Piece → List LexicalProblem
  | .illegal c => [.illegalCharacter c]
  | .number digits dots fraction =>
    let literal := String.ofList (digits ++ dots ++ fraction)
    (if dots ≠ [] ∧ policy = .reject then [.decimalLiteral literal] else []) ++
      if maxInteger < decimalValue digits then [.integerOverflow literal] else []
  | .blank _ | .word _ | .mark _ => []

/-- A piece at the place where it starts. -/
structure Placed where
  piece : Piece
  loc : Location

/-- Consecutive pieces, the first of them at `loc`. -/
def place (loc : Location) : List Piece → List Placed
  | [] => []
  | piece :: pieces => ⟨piece, loc⟩ :: place (loc.past piece.text) pieces

namespace Placed

def lexeme? (placed : Placed) : Option Lexeme :=
  placed.piece.terminal?.map fun terminal => ⟨terminal, placed.loc⟩

def errors (policy : DecimalPolicy) (placed : Placed) : List LexicalError :=
  (placed.piece.problems policy).map fun problem => ⟨problem, placed.loc⟩

end Placed

end Piece

/-- A scanned text: its lexemes, the place where it ends, and the errors in it. -/
structure Scan where
  lexemes : List Lexeme
  stop : Location
  errors : List LexicalError
  deriving Repr, DecidableEq

namespace Scan

/-- Scan a text. -/
def of (policy : DecimalPolicy) (source : String) : Scan :=
  let placed := Piece.place .start (Piece.split source.toList)
  { lexemes := placed.filterMap Piece.Placed.lexeme?
    stop := Location.start.past source.toList
    errors := placed.flatMap (Piece.Placed.errors policy) }

/-- The token stream of a scanned text, with one end of input, at its end. -/
def tokens (scan : Scan) : List Token :=
  scan.lexemes.map .lexeme ++ [.endOfInput scan.stop]

end Scan

end RoutineSpec
