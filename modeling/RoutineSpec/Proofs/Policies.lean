import RoutineSpec.Analysis
import RoutineSpec.Proofs.Layout

/-! # Decimal policies

A number with dots in it stands for the same lexeme whether it is accepted or not, and a lexical error is never looked
at by the grammar. Two policies therefore tell apart nothing but the reports about such numbers.
-/

namespace RoutineSpec

/-- The number has dots in it. -/
def LexicalProblem.isDecimal : LexicalProblem → Bool
  | .decimalLiteral _ => true
  | .illegalCharacter _ | .integerOverflow _ => false

/-- The diagnostic is about a number with dots in it. -/
def Diagnostic.isDecimal : Diagnostic → Bool
  | .lexical error => error.problem.isDecimal
  | .syntactic _ => false

/-! ## Scanning -/

/-- Of all that is wrong with a piece, the dots are the only thing that can be overlooked. -/
theorem Piece.problems_truncate (piece : Piece) :
    piece.problems .truncate = (piece.problems .reject).filter fun problem => !problem.isDecimal := by
  cases piece with
  | blank | word | mark => rfl
  | illegal c => rfl
  | number digits dots fraction =>
    simp only [problems, List.filter_append, reduceCtorEq, and_false, and_true, ite_false]
    congr 1
    · split <;> rfl
    · split <;> rfl

theorem Piece.Placed.errors_truncate (placed : Placed) :
    placed.errors .truncate = (placed.errors .reject).filter fun error => !error.problem.isDecimal := by
  rw [errors, errors, Piece.problems_truncate, List.filter_map]
  rfl

namespace Scan

theorem tokens_truncate (source : String) : (of .truncate source).tokens = (of .reject source).tokens := rfl

theorem errors_truncate (source : String) :
    (of .truncate source).errors = (of .reject source).errors.filter fun error => !error.problem.isDecimal := by
  simp only [of, List.filter_flatMap]
  exact congrArg (List.flatMap · _) (funext Piece.Placed.errors_truncate)

theorem diagnostics_truncate (source : String) :
    (of .truncate source).errors.map Diagnostic.lexical =
      ((of .reject source).errors.map Diagnostic.lexical).filter fun diagnostic => !diagnostic.isDecimal := by
  rw [errors_truncate, List.filter_map]
  rfl

end Scan

/-! ## Reading -/

namespace Reading

/-- What a reading comes to, with diagnostics from before it. -/
def after (before : List Diagnostic) : Except ReadFailure Reading → Except ReadFailure Reading
  | .ok reading => .ok ⟨reading.program, before ++ reading.diagnostics⟩
  | .error failure => .error ⟨failure.error, before ++ failure.diagnostics⟩

theorem ofSource_eq_after (policy : DecimalPolicy) (source : String) :
    ofSource policy source =
      after ((Scan.of policy source).errors.map .lexical) (ofTokens (Scan.of policy source).tokens) := by
  rw [ofTokens, Scan.tokens, Session.ofTokens_lexemes, ofSource_eq_finish]
  rfl

/-- All that is reported about a stream of tokens is about its syntax. -/
theorem syntactic_of_ofTokens (tokens : List Token) :
    match ofTokens tokens with
    | .ok reading => ∃ errors : List SyntaxError, reading.diagnostics = errors.map .syntactic
    | .error failure => ∃ errors : List SyntaxError, failure.diagnostics = errors.map .syntactic := by
  let session := Session.ofTokens tokens
  have hfaithful := Grammar.program_faithful (Grammar.budget session) session
  unfold ofTokens Session.finish
  obtain ⟨program, next, hrun, hread⟩ | ⟨error, next, hrun, hread⟩ := session.readProgram_cases
  · rw [hrun] at hfaithful
    obtain ⟨errors, hdiagnostics, -⟩ := Session.ReportsTo.reports hfaithful
    rw [hread]
    exact ⟨errors, hdiagnostics⟩
  · rw [hrun] at hfaithful
    obtain ⟨errors, hdiagnostics, -⟩ := hfaithful.1.reports
    rw [hread]
    exact ⟨errors, hdiagnostics⟩

end Reading

theorem Diagnostic.filter_behind (before : List Diagnostic) (errors : List SyntaxError) :
    (before ++ errors.map Diagnostic.syntactic).filter (fun diagnostic => !diagnostic.isDecimal) =
      before.filter (fun diagnostic => !diagnostic.isDecimal) ++ errors.map Diagnostic.syntactic := by
  rw [List.filter_append]
  congr 1
  exact List.filter_eq_self.2 fun diagnostic hmem => by
    obtain ⟨error, -, rfl⟩ := List.mem_map.1 hmem
    rfl

namespace Analysis

/-- The policy decides over reports about dots, and over nothing else. The same tokens are scanned under both policies.
    The grammar reads them as it reads any stream, and the lexical errors are put in front of what it reports. So the
    analyses agree, or the same error ends both, up to the reports about dots, which are missing under one policy. -/
theorem policies_agree (source : String) :
    (Scan.of .truncate source).tokens = (Scan.of .reject source).tokens ∧
      (Scan.of .truncate source).errors =
        (Scan.of .reject source).errors.filter (fun error => !error.problem.isDecimal) ∧
      (∀ policy, Reading.ofSource policy source =
        Reading.after ((Scan.of policy source).errors.map .lexical) (Reading.ofTokens (Scan.of policy source).tokens)) ∧
      match ofSource .truncate source, ofSource .reject source with
      | .ok silent, .ok strict =>
        silent.program = strict.program ∧ silent.violations = strict.violations ∧
          silent.diagnostics = strict.diagnostics.filter fun diagnostic => !diagnostic.isDecimal
      | .error silent, .error strict =>
        silent.error = strict.error ∧
          silent.diagnostics = strict.diagnostics.filter fun diagnostic => !diagnostic.isDecimal
      | _, _ => False := by
  refine ⟨Scan.tokens_truncate source, Scan.errors_truncate source,
    fun policy => Reading.ofSource_eq_after policy source, ?_⟩
  have hsyntactic := Reading.syntactic_of_ofTokens (Scan.of .reject source).tokens
  rw [ofSource, ofSource, Reading.ofSource_eq_after, Reading.ofSource_eq_after, Scan.tokens_truncate,
    Scan.diagnostics_truncate]
  cases hread : Reading.ofTokens (Scan.of .reject source).tokens with
  | ok reading =>
    rw [hread] at hsyntactic
    obtain ⟨errors, herrors⟩ := hsyntactic
    refine ⟨rfl, rfl, ?_⟩
    simp only [ofReading, herrors, Diagnostic.filter_behind]
  | error failure =>
    rw [hread] at hsyntactic
    obtain ⟨errors, herrors⟩ := hsyntactic
    refine ⟨rfl, ?_⟩
    simp only [herrors, Diagnostic.filter_behind]

end Analysis

end RoutineSpec
