import RoutineSpec.Proofs.Acceptance
import RoutineSpec.Proofs.LocationOrder
import RoutineSpec.Proofs.Prompt

/-! # Complaints come early

No token is blamed that stands behind the first one that cannot continue a program: the lexemes in front of the
first place that is complained about can be completed to a program that is read without diagnostics.
-/

namespace RoutineSpec

/-- A beginning of a beginning is a beginning. -/
theorem Begins.of_prefix {Whole : List Lexeme → Prop} {span part : List Lexeme} (h : Begins Whole span)
    (hpart : part <+: span) : Begins Whole part := by
  obtain ⟨rest, rfl⟩ := hpart
  obtain ⟨more, hmore⟩ := h
  exact ⟨rest ++ more, by simpa using hmore⟩

namespace Reading

/-- What is complained about in a source, the error that ended its reading at the end. -/
def complaints : Except ReadFailure Reading → List Diagnostic
  | .ok reading => reading.diagnostics
  | .error failure => failure.diagnostics ++ [.syntactic failure.error]

end Reading

theorem Session.complaints_finish (session : Session) :
    Reading.complaints session.finish = ((Grammar.program (Grammar.budget session)).run session).complaints := by
  cases hrun : (Grammar.program (Grammar.budget session)).run session with
  | done program next => simp [finish_of_done hrun, Reading.complaints, Outcome.complaints]
  | failed error next => simp [finish_of_failed hrun, Reading.complaints, Outcome.complaints]
  | exhausted => exact absurd hrun (Grammar.program_ne_exhausted session)

namespace Reading

/-- In a stream whose places increase, what comes before the first place that is complained about begins a program
    that is read without diagnostics. -/
theorem exists_program_of_first_complaint (lexemes : List Lexeme) (stop first : Location)
    (hincreasing : Increasing lexemes stop)
    (hfirst : first ∈ (complaints (ofTokens (lexemes.map .lexeme ++ [.endOfInput stop]))).map Diagnostic.loc)
    (hleast : ∀ loc ∈ (complaints (ofTokens (lexemes.map .lexeme ++ [.endOfInput stop]))).map Diagnostic.loc,
      first ≤ loc) :
    ∃ more end_ program,
      ofTokens ((lexemes.filter (fun lexeme => lexeme.loc < first) ++ more).map .lexeme ++ [.endOfInput end_]) =
        .ok ⟨program, []⟩ := by
  unfold ofTokens at hfirst hleast
  rw [Session.ofTokens_lexemes, Session.complaints_finish] at hfirst hleast
  have hsome : ((Grammar.program (Grammar.budget ⟨lexemes, stop, []⟩)).run ⟨lexemes, stop, []⟩).complaints ≠ [] := by
    intro hnone
    simp [hnone] at hfirst
  obtain ⟨complaint, hmem, span, next, hsession, hloc, hspan⟩ := Grammar.program_begins _ rfl hsome
  have hbefore : lexemes.filter (fun lexeme => lexeme.loc < first) <+: span := by
    have hle : first ≤ next.next.loc := hloc ▸ hleast _ (List.mem_map_of_mem hmem)
    have hincreases : Session.Increases ⟨lexemes, stop, []⟩ := hincreasing
    rw [hsession] at hincreases
    have hrest : lexemes = (next.unread span).rest := congrArg Session.rest hsession
    exact hrest ▸ Session.filter_isPrefix_of_unread hincreases hle
  obtain ⟨more, @⟨program, phrase⟩⟩ := hspan.of_prefix hbefore
  refine ⟨more, .start, program, ?_⟩
  unfold ofTokens
  rw [Session.ofTokens_lexemes]
  exact (Session.finish_eq_ok_nil_iff rfl).2 phrase

/-- The first join argument is left out, and no second specification follows. What comes before the place of the
    misplaced integer begins a program all the same. -/
theorem exists_program_before_misplaced_integer :
    let lexemes : List Lexeme := List.mapIdx (fun i terminal => ⟨terminal, ⟨1, i + 1⟩⟩)
      [.keyword .join, .mark .openParen, .keyword .int, .integer 3, .mark .comma, .keyword .bool,
        .identifier "b", .mark .pipe, .mark .closeParen,
        .keyword .returns, .mark .openParen, .mark .closeParen,
        .keyword .locals, .mark .openParen, .mark .closeParen,
        .mark .openBrace, .identifier "x", .mark .equal, .mark .semicolon, .mark .closeBrace]
    Increasing lexemes ⟨1, 21⟩ ∧
      (complaints (ofTokens (lexemes.map .lexeme ++ [.endOfInput ⟨1, 21⟩]))).map Diagnostic.loc =
        [⟨1, 4⟩, ⟨1, 19⟩, ⟨1, 21⟩] ∧
      ∃ more end_ program,
        ofTokens ((lexemes.filter (fun lexeme => lexeme.loc < ⟨1, 4⟩) ++ more).map .lexeme ++ [.endOfInput end_]) =
          .ok ⟨program, []⟩ := by
  intro lexemes
  have hincreasing : Increasing lexemes ⟨1, 21⟩ := by decide
  have hcomplaints : (complaints (ofTokens (lexemes.map .lexeme ++ [.endOfInput ⟨1, 21⟩]))).map Diagnostic.loc =
      [⟨1, 4⟩, ⟨1, 19⟩, ⟨1, 21⟩] := rfl
  refine ⟨hincreasing, hcomplaints, exists_program_of_first_complaint lexemes _ _ hincreasing ?_ ?_⟩
  · rw [hcomplaints]
    simp
  · rw [hcomplaints]
    simp [Location.le_iff]

end Reading

end RoutineSpec
