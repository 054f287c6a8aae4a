import RoutineSpec.Token

/-! # Recovery

What of the lexemes is left once a malformed part of a program is skipped. No skip passes `sequential`,
which starts the second specification, so that errors in the first never hide the second.
-/

namespace RoutineSpec

namespace Recovery

/-- What ends a malformed argument: what can follow an argument, or start the next clause. -/
def argumentEnds : List Terminal :=
  [.mark .comma, .mark .pipe, .mark .closeParen, .mark .openBrace, .keyword .returns, .keyword .locals,
    .keyword .sequential]

/-- Skip a malformed argument, up to what ends it. -/
def skipArgument (lexemes : List Lexeme) : List Lexeme :=
  lexemes.dropWhile fun lexeme => !argumentEnds.contains lexeme.terminal

/-- Skip a malformed assignment, through its semicolon, or up to the end of the block. -/
def skipAssignment : List Lexeme → List Lexeme
  | [] => []
  | lexeme :: rest =>
    match lexeme.terminal with
    | .mark .semicolon => rest
    | .mark .closeBrace | .keyword .sequential => lexeme :: rest
    | _ => skipAssignment rest

/-- Skip to the start of the second specification. -/
def skipToSequential (lexemes : List Lexeme) : List Lexeme :=
  lexemes.dropWhile fun lexeme => lexeme.terminal != .keyword .sequential

/-- How far the scan over a malformed statement has come. -/
structure Nesting where
  /-- How many parentheses are open. One that closes none is passed over. -/
  parens : Nat
  /-- How many braces are open. -/
  braces : Nat
  /-- The statement is over, unless an `else` follows. -/
  ended : Bool
  deriving Repr, DecidableEq

namespace Nesting

/-- Before the first lexeme of a statement. -/
def outermost : Nesting := ⟨0, 0, false⟩

/-- The nesting behind a lexeme, or nothing where the lexeme is no part of the statement. A semicolon or a
    closing brace outside of all parentheses and braces ends the statement; a closing brace that closes none
    belongs to the block around the statement. -/
def after? (nesting : Nesting) : Terminal → Option Nesting
  | .keyword .sequential => none
  | .keyword .else_ => some { nesting with ended := false }
  | terminal =>
    if nesting.ended then none
    else
      match terminal with
      | .mark .openParen => some { nesting with parens := nesting.parens + 1 }
      | .mark .closeParen => some { nesting with parens := nesting.parens - 1 }
      | .mark .openBrace => some { nesting with braces := nesting.braces + 1 }
      | .mark .closeBrace =>
        if nesting.braces = 0 then none
        else some ⟨nesting.parens, nesting.braces - 1, nesting.braces = 1 ∧ nesting.parens = 0⟩
      | .mark .semicolon => some { nesting with ended := nesting.braces = 0 ∧ nesting.parens = 0 }
      | _ => some nesting

end Nesting

/-- Skip the rest of a malformed statement. -/
def skipStatement (nesting : Nesting) : List Lexeme → List Lexeme
  | [] => []
  | lexeme :: rest =>
    match nesting.after? lexeme.terminal with
    | none => lexeme :: rest
    | some inner => skipStatement inner rest

/-- The terminal starts a selection, an iteration or a block. -/
def startsCompound : Terminal → Bool
  | .keyword .if_ | .keyword .for_ | .mark .openBrace => true
  | _ => false

/-- Where a block goes on when the statement that begins with `start` has failed and `rest` is unread. A
    compound statement is skipped from its start, so that semicolons and braces inside are not mistaken for
    its end. Of any other statement the unread part is skipped; a lexeme that starts no statement is skipped
    alone. -/
def resume (start rest : List Lexeme) : List Lexeme :=
  match start with
  | [] => []
  | first :: others =>
    if startsCompound first.terminal then skipStatement .outermost start
    else if rest.length = start.length then others
    else skipAssignment rest

theorem length_skipArgument_le (lexemes : List Lexeme) :
    (skipArgument lexemes).length ≤ lexemes.length :=
  (List.dropWhile_sublist _).length_le

theorem length_skipToSequential_le (lexemes : List Lexeme) :
    (skipToSequential lexemes).length ≤ lexemes.length :=
  (List.dropWhile_sublist _).length_le

theorem length_skipAssignment_le (lexemes : List Lexeme) :
    (skipAssignment lexemes).length ≤ lexemes.length := by
  fun_induction skipAssignment lexemes with
  | case1 => exact Nat.le_refl _
  | case2 => exact Nat.le_succ _
  | case3 => exact Nat.le_refl _
  | case4 => exact Nat.le_refl _
  | case5 lexeme rest _ _ _ ih => exact Nat.le_succ_of_le ih

theorem length_skipStatement_le (nesting : Nesting) (lexemes : List Lexeme) :
    (skipStatement nesting lexemes).length ≤ lexemes.length := by
  induction lexemes generalizing nesting with
  | nil => exact Nat.le_refl _
  | cons lexeme rest ih =>
    unfold skipStatement
    split
    · exact Nat.le_refl _
    · exact Nat.le_succ_of_le (ih _)

/-- A block goes on behind the first lexeme of the statement that failed. -/
theorem length_resume_lt {start rest : List Lexeme} (hstart : start ≠ [])
    (hrest : rest.length ≤ start.length) : (resume start rest).length < start.length := by
  cases start with
  | nil => exact absurd rfl hstart
  | cons first others =>
    simp only [resume]
    split
    · next compound =>
      have inside : ∃ inner, Nesting.outermost.after? first.terminal = some inner := by
        unfold startsCompound at compound
        split at compound <;> simp_all [Nesting.after?, Nesting.outermost]
      obtain ⟨inner, hinner⟩ := inside
      simp only [skipStatement, hinner, List.length_cons]
      exact Nat.lt_succ_of_le (length_skipStatement_le _ _)
    · split
      · exact Nat.lt_succ_self _
      · next unread =>
        have := length_skipAssignment_le rest
        omega

end Recovery

end RoutineSpec
