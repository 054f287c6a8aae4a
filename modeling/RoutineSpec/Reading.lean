import RoutineSpec.Grammar.Progress

/-! # Reading programs

Programs out of sessions, token streams and source texts. Reading always comes to an end: with a program
and the diagnostics of everything that was repaired on the way, or with the error that it could not get
over and the diagnostics before it.
-/

namespace RoutineSpec

/-- What a rule comes to, given that it is not exhausted. -/
def Outcome.result {α : Type} : (outcome : Outcome α) → outcome ≠ .exhausted →
    Except SyntaxError α × Session
  | .done value session, _ => (.ok value, session)
  | .failed error session, _ => (.error error, session)
  | .exhausted, h => absurd rfl h

theorem Outcome.result_eq_ok_iff {α : Type} {outcome : Outcome α} {h : outcome ≠ .exhausted} {value : α}
    {next : Session} : outcome.result h = (.ok value, next) ↔ outcome = .done value next := by
  cases outcome with
  | done | failed => simp [result]
  | exhausted => exact absurd rfl h

theorem Outcome.result_eq_error_iff {α : Type} {outcome : Outcome α} {h : outcome ≠ .exhausted}
    {error : SyntaxError} {next : Session} :
    outcome.result h = (.error error, next) ↔ outcome = .failed error next := by
  cases outcome with
  | done | failed => simp [result]
  | exhausted => exact absurd rfl h

/-- A program and the diagnostics of its source. -/
structure Reading where
  program : Tree
  diagnostics : List Diagnostic

/-- The source was not read without diagnostics. -/
def Reading.repaired (reading : Reading) : Bool :=
  !reading.diagnostics.isEmpty

namespace Session

/-- Read a program from where the session stands. A success keeps the diagnostics in the session; a failure
    hands all of them over and leaves the session with none, and where the reading stopped. -/
def readProgram (session : Session) : Except ReadFailure Tree × Session :=
  match ((Grammar.program (Grammar.budget session)).run session).result
      (Grammar.program_ne_exhausted session) with
  | (.ok program, next) => (.ok program, next)
  | (.error error, next) => (.error ⟨error, next.diagnostics⟩, { next with diagnostics := [] })

theorem readProgram_of_done {session next : Session} {program : Tree}
    (h : (Grammar.program (Grammar.budget session)).run session = .done program next) :
    session.readProgram = (.ok program, next) := by
  unfold readProgram
  rw [Outcome.result_eq_ok_iff.2 h]

theorem readProgram_of_failed {session next : Session} {error : SyntaxError}
    (h : (Grammar.program (Grammar.budget session)).run session = .failed error next) :
    session.readProgram = (.error ⟨error, next.diagnostics⟩, { next with diagnostics := [] }) := by
  unfold readProgram
  rw [Outcome.result_eq_error_iff.2 h]

/-- A reading either is done or has failed, and that says what it comes to. -/
theorem readProgram_cases (session : Session) :
    (∃ program next, (Grammar.program (Grammar.budget session)).run session = .done program next ∧
      session.readProgram = (.ok program, next)) ∨
    ∃ error next, (Grammar.program (Grammar.budget session)).run session = .failed error next ∧
      session.readProgram = (.error ⟨error, next.diagnostics⟩, { next with diagnostics := [] }) := by
  cases hrun : (Grammar.program (Grammar.budget session)).run session with
  | done program next => exact .inl ⟨program, next, rfl, readProgram_of_done hrun⟩
  | failed error next => exact .inr ⟨error, next, rfl, readProgram_of_failed hrun⟩
  | exhausted => exact absurd hrun (Grammar.program_ne_exhausted session)

/-- Read a program and finish the session, which hands over its diagnostics either way. -/
def finish (session : Session) : Except ReadFailure Reading :=
  match session.readProgram with
  | (.ok program, next) => .ok ⟨program, next.diagnostics⟩
  | (.error failure, _) => .error failure

theorem finish_of_done {session next : Session} {program : Tree}
    (h : (Grammar.program (Grammar.budget session)).run session = .done program next) :
    session.finish = .ok ⟨program, next.diagnostics⟩ := by
  simp [finish, readProgram_of_done h]

theorem finish_of_failed {session next : Session} {error : SyntaxError}
    (h : (Grammar.program (Grammar.budget session)).run session = .failed error next) :
    session.finish = .error ⟨error, next.diagnostics⟩ := by
  simp [finish, readProgram_of_failed h]

theorem finish_eq_ok_iff {session : Session} {reading : Reading} :
    session.finish = .ok reading ↔
      ∃ next, (Grammar.program (Grammar.budget session)).run session = .done reading.program next ∧
        next.diagnostics = reading.diagnostics := by
  have hresult := @Outcome.result_eq_ok_iff _ _ (Grammar.program_ne_exhausted session) reading.program
  simp only [← hresult]
  unfold finish readProgram
  obtain ⟨ended, last⟩ := ((Grammar.program (Grammar.budget session)).run session).result
    (Grammar.program_ne_exhausted session)
  cases ended with
  | error => simp
  | ok program =>
    obtain ⟨found, diagnostics⟩ := reading
    constructor
    · intro h
      cases h
      exact ⟨last, rfl, rfl⟩
    · rintro ⟨next, hend, rfl⟩
      cases hend
      rfl

end Session

namespace Reading

/-- Read the program of a token stream. -/
def ofTokens (tokens : List Token) : Except ReadFailure Reading :=
  (Session.ofTokens tokens).finish

/-- Scan a source text and read its program. -/
def ofSource (policy : DecimalPolicy) (source : String) : Except ReadFailure Reading :=
  (Session.ofSource policy source).finish

end Reading

end RoutineSpec
