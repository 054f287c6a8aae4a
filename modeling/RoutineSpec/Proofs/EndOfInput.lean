import RoutineSpec.Proofs.WholeVector

/-! # Nothing behind the end of input is seen

Whatever stands behind the first end of input of a token stream, the stream is read as it is without that: also by a
reader that keeps the whole vector.
-/

namespace RoutineSpec

/-! ## The first end of input -/

namespace Session

theorem readable_endOfInput (last loc : Location) (tokens behind : List Token) :
    readable last (tokens ++ .endOfInput loc :: behind) = readable last (tokens ++ [.endOfInput loc]) := by
  induction tokens generalizing last with
  | nil => rfl
  | cons token tokens ih =>
    cases token with
    | endOfInput => rfl
    | lexeme lexeme => simp [readable, ih]

/-- The lexemes of a session are in front of the first end of input. -/
theorem length_readable_le (last loc : Location) (tokens behind : List Token) :
    (readable last (tokens ++ .endOfInput loc :: behind)).1.length ≤ tokens.length := by
  induction tokens generalizing last with
  | nil => exact Nat.le_refl _
  | cons token tokens ih =>
    cases token with
    | endOfInput => exact Nat.zero_le _
    | lexeme lexeme => exact Nat.succ_le_succ (ih lexeme.loc)

theorem readable_supplied (last : Location) (tokens : List Token) :
    readable last tokens = readable last (tokens ++ [.endOfInput ((tokens.getLast?.map Token.loc).getD last)]) := by
  induction tokens generalizing last with
  | nil => rfl
  | cons token tokens ih =>
    cases token with
    | endOfInput => rfl
    | lexeme lexeme =>
      have hlast : (((Token.lexeme lexeme :: tokens).getLast?.map Token.loc).getD last) =
          (tokens.getLast?.map Token.loc).getD lexeme.loc := by
        rw [List.getLast?_cons]
        cases tokens.getLast? <;> rfl
      rw [hlast]
      simp only [List.cons_append, readable]
      rw [← ih]

/-- Where a session stands, the tokens of the vector are its own and those behind the end of input. -/
theorem StandsAt.drop_eq {vector : List Token} {position ending : Nat} {session : Session}
    (h : session.StandsAt vector position ending) :
    vector.drop position = session.uncut (vector.drop (ending + 1)) := by
  obtain ⟨behind, hbehind⟩ := h.tokens
  have hlength : session.tokens.length = session.rest.length + 1 := by simp [Session.tokens]
  have hunseen : vector.drop (ending + 1) = behind := by
    rw [← h.length, Nat.add_assoc, ← List.drop_drop, ← hbehind]
    exact List.drop_left' hlength
  rw [uncut, hunseen, hbehind]

end Session

namespace Uncut

/-- A reader that keeps the whole vector starts where a new session starts. -/
theorem along_ofTokens (tokens : List Token) :
    let start := Session.ofTokens tokens
    let vector := Session.supplied .start tokens
    start.along (vector.drop (start.rest.length + 1)) = ⟨vector, []⟩ := by
  intro start vector
  have hvector : vector = start.uncut (vector.drop (start.rest.length + 1)) :=
    (Session.standsAt_ofTokens tokens).drop_eq
  rw [Session.along, ← hvector]
  rfl

theorem reading?_program {session : Session} {n : Nat} (h : Grammar.budget session ≤ n) (behind : List Token) :
    (((Grammar.program n).run session).along behind).reading? = some session.finish := by
  rw [Session.run_program_of_budget h]
  obtain ⟨program, next, hrun, -⟩ | ⟨error, next, hrun, -⟩ := session.readProgram_cases
  · rw [hrun, Session.finish_of_done hrun]
    rfl
  · rw [hrun, Session.finish_of_failed hrun]
    rfl

/-- A reading along the whole vector comes to what is read of the stream. -/
theorem comesTo_iff (tokens : List Token) (reading : Except ReadFailure Reading) :
    ComesTo tokens reading ↔ Reading.ofTokens tokens = reading := by
  have hstart := along_ofTokens tokens
  simp only at hstart
  unfold ComesTo
  rw [← hstart]
  constructor
  · rintro ⟨n, passed, result, hreads, hreading⟩
    cases reads_program_iff.1 ⟨passed, hreads⟩
    -- Whatever the budget is, it is as good as a larger one, because it has not run out.
    have hne : (Grammar.program n).run (Session.ofTokens tokens) ≠ .exhausted := by
      intro hexhausted
      rw [hexhausted] at hreading
      cases hreading
    have hlarge := reading?_program (Nat.le_max_right n (Grammar.budget (Session.ofTokens tokens)))
      ((Session.supplied .start tokens).drop ((Session.ofTokens tokens).rest.length + 1))
    rw [Grammar.program_extends (Nat.le_max_left n _) _ hne, hreading] at hlarge
    exact (Option.some.inj hlarge).symm
  · rintro rfl
    obtain ⟨passed, hreads⟩ := reads_program_iff.2 rfl
    exact ⟨_, passed, _, hreads, reading?_program (Nat.le_refl _) _⟩

end Uncut

namespace Reading

/-- Nothing behind the first end of input is seen: a reading comes to the same program, diagnostics and error whatever
    stands there, and where there is no end of input, one at the last token is as good. A reader that keeps the whole
    vector and looks ahead and skips along it comes to the same as well. It passes what a session comes through, and at
    each step it goes on as the session does. -/
theorem ofTokens_endOfInput (tokens behind : List Token) (loc : Location) :
    ofTokens (tokens ++ .endOfInput loc :: behind) = ofTokens (tokens ++ [.endOfInput loc]) ∧
      ofTokens tokens = ofTokens (tokens ++ [.endOfInput ((tokens.getLast?.map Token.loc).getD .start)]) ∧
      (∀ reading, Uncut.ComesTo (tokens ++ .endOfInput loc :: behind) reading ↔
        ofTokens (tokens ++ [.endOfInput loc]) = reading) ∧
      let start := Session.ofTokens (tokens ++ .endOfInput loc :: behind)
      let vector := Session.supplied .start (tokens ++ .endOfInput loc :: behind)
      let ending := start.rest.length
      ending ≤ tokens.length ∧
      (∀ n passed result, Uncut.Reads (Grammar.program n) ⟨vector, []⟩ passed result →
        ∀ state ∈ passed, ∃ session, start.Reaches session ∧ state = session.along (vector.drop (ending + 1))) ∧
      ∀ session, start.Reaches session → ∃ position, session.StandsAt vector position ending ∧
        Uncut.Shows (vector.drop (ending + 1)) session (vector.drop position) := by
  have hcut : ofTokens (tokens ++ .endOfInput loc :: behind) = ofTokens (tokens ++ [.endOfInput loc]) := by
    rw [ofTokens, ofTokens, Session.ofTokens, Session.ofTokens, Session.readable_endOfInput]
  refine ⟨hcut, ?_, fun reading => ?_, ?_, fun n passed result hreads => ?_, fun session hreaches => ?_⟩
  · rw [ofTokens, Session.ofTokens, Session.readable_supplied]
    rfl
  · rw [← hcut]
    exact Uncut.comesTo_iff _ reading
  · exact Session.length_readable_le .start loc tokens behind
  · exact (hreads.agrees (Uncut.along_ofTokens _).symm).passed
  · obtain ⟨position, -, hstands⟩ := (Session.standsAt_ofTokens _).of_reaches hreaches
    refine ⟨position, hstands, ?_⟩
    rw [hstands.drop_eq]
    exact Uncut.shows_uncut _ session

end Reading

end RoutineSpec
