import RoutineSpec.Grammar.Expression
import RoutineSpec.Grammar.Recovery

/-! # Statements

    statement  ::= assignment ";" | selection | iteration | block
    assignment ::= identifier "+" "+" | identifier "-" "-" | suffixed "=" expression
    selection  ::= "if" "(" expression ")" statement [ "else" statement ]
    iteration  ::= "for" "(" assignment ";" guard ";" assignment ")" block
    block      ::= "{" { statement } "}"

An `else` belongs to the nearest `if` that can take it. A statement of a block that fails is reported and
skipped, and the block goes on behind it.
-/

namespace RoutineSpec

/-- What an increment stands for: `x++` is read as `x = x + 0`, and `x--` as `x = x - 0`. The zero is at the
    place of the first sign. -/
def Tree.increment (loc : Location) (name : String) (op : BinaryOp) (sign : Location) : Tree :=
  .assignment loc (.var loc name none none)
    (.binary sign op (.var loc name none none) (.constant sign (.int 0)))

namespace Grammar

open Rule

/-- The operator that a doubled sign stands for. -/
def incrementOp? : Terminal → Option BinaryOp
  | .mark .plus => some .add
  | .mark .minus => some .sub
  | _ => none

/-- The increment at the start of some lexemes, if there is one: a name, a sign and the same sign in the next
    column, and then what ends an assignment. -/
def increment? : List Lexeme → Option Tree
  | ⟨.identifier name, loc⟩ :: first :: second :: behind :: _ =>
    if first.terminal = second.terminal ∧ first.loc.Touches second.loc ∧
        (behind.terminal = .mark .semicolon ∨ behind.terminal = .mark .closeParen) then
      (incrementOp? first.terminal).map fun op => .increment loc name op first.loc
    else none
  | _ => none

/-- Read an increment if there is one: its name and its two signs. -/
def increment : Rule (Option Tree) := ⟨fun session =>
  match increment? session.rest with
  | none => .done none session
  | some tree => .done (some tree) { session with rest := session.rest.drop 3 }⟩

theorem run_increment (session : Session) :
    increment.run session =
      match increment? session.rest with
      | none => .done none session
      | some tree => .done (some tree) { session with rest := session.rest.drop 3 } := rfl

/-- An assignment without the semicolon behind it. -/
def assignment (n : Nat) : Rule Tree := do
  match ← increment with
  | some tree => return tree
  | none => do
    let loc ← here
    let target ← suffixed n
    expect (.mark .equal) .equalInAssignment
    let value ← expression n
    return .assignment loc target value

/-- The statements of a block end here. -/
def atBlockEnd (session : Session) : Bool :=
  session.atEnd || session.follows [.mark .closeBrace, .keyword .sequential]

mutual

def statement : Nat → Rule Tree
  | 0 => exhausted
  | n + 1 => do
    match ← accept (.keyword .if_) with
    | some loc => selection n loc
    | none => do
      match ← accept (.keyword .for_) with
      | some loc => iteration n loc
      | none => do
        match ← accept (.mark .openBrace) with
        | some loc => block n loc
        | none => do
          let tree ← assignment n
          expect (.mark .semicolon) .semicolonAfterAssignment
          return tree

/-- What follows an `if` at `loc`. -/
def selection : Nat → Location → Rule Tree
  | 0, _ => exhausted
  | n + 1, loc => do
    expect (.mark .openParen) .openAfterIf
    let condition ← expression n
    expect (.mark .closeParen) .closeIfCondition
    let onTrue ← statement n
    match ← accept (.keyword .else_) with
    | none => return .ifThen loc condition onTrue
    | some _ => do
      let onFalse ← statement n
      return .ifThenElse loc condition onTrue onFalse

/-- What follows a `for` at `loc`. -/
def iteration : Nat → Location → Rule Tree
  | 0, _ => exhausted
  | n + 1, loc => do
    expect (.mark .openParen) .openAfterFor
    let init ← assignment n
    expect (.mark .semicolon) .semicolonAfterInit
    let test ← guard n
    expect (.mark .semicolon) .semicolonAfterGuard
    let update ← assignment n
    expect (.mark .closeParen) .closeForClauses
    match ← accept (.mark .openBrace) with
    | none => failHere .openForBody
    | some brace => do
      let body ← block n brace
      return .iteration loc init test update body

/-- What follows an opening brace at `loc`. -/
def block : Nat → Location → Rule Tree
  | 0, _ => exhausted
  | n + 1, loc => do
    let trees ← statements n
    expect (.mark .closeBrace) .closeBlock
    return .block loc trees

/-- The statements of a block, up to what ends them. -/
def statements : Nat → Rule (List Tree)
  | 0 => exhausted
  | n + 1 => do
    if ← look atBlockEnd then return []
    else do
      let first ← statementIfSound n
      let others ← statements n
      return first ++ others

/-- The statement at hand, unless it is malformed; then it is skipped. -/
def statementIfSound : Nat → Rule (List Tree)
  | 0 => exhausted
  | n + 1 => do
    let start ← look Session.rest
    match ← attempt (statement n) with
    | .ok tree => return [tree]
    | .error error => do
      report error
      skipWith (Recovery.resume start)
      return []

end

end Grammar

end RoutineSpec
