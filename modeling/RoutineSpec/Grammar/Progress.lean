import RoutineSpec.Grammar.Program
import RoutineSpec.Grammar.Within

/-! # Progress

No rule leaves more to read than it found, and a rule that is done with an operand, a statement or an
argument has read something. So a budget that grows with what is left to read is never exhausted:
`program_ne_exhausted` says it of a whole program.
-/

namespace RoutineSpec

namespace Grammar

open Rule

mutual

theorem expression_within : ∀ (n : Nat) (session : Session), 16 * session.rest.length + 11 ≤ n →
    (expression n).Within session session.rest.length (session.rest.length + 1)
  | 0, _, h => by omega
  | n + 1, session, h => by
    rw [expression]
    refine (binary_within n Precedence.ladder (by decide) session (by simp [Precedence.ladder]; omega)).bind
      (Nat.le_refl _) fun condition next _ => within_bind_accept (within_pure ‹_›) fun loc next _ => ?_
    refine (expression_within n next (by omega)).bind (by omega) fun onTrue next _ => ?_
    refine (within_expect _ _ next).bind (by omega) fun _ next _ => ?_
    refine (expression_within n next (by omega)).bind (by omega) fun onFalse next _ => ?_
    exact within_pure (by omega)

theorem binary_within : ∀ (n : Nat) (levels : List Precedence), levels.length ≤ 6 → ∀ session : Session,
    16 * session.rest.length + 4 + levels.length ≤ n →
    (binary n levels).Within session session.rest.length (session.rest.length + 1)
  | 0, _, _, _, h => by omega
  | n + 1, [], _, session, h => by
    rw [binary]
    exact unary_within n session (by simp at h; omega)
  | n + 1, level :: tighter, hlevels, session, h => by
    rw [binary]
    simp only [List.length_cons] at hlevels h
    refine (binary_within n tighter (by omega) session (by omega)).bind (Nat.le_refl _)
      fun left next _ => ?_
    exact (chain_within n level tighter (by omega) left next (by omega)).mono (by omega) (by omega)

theorem chain_within : ∀ (n : Nat) (level : Precedence) (tighter : List Precedence), tighter.length ≤ 6 →
    ∀ (left : Tree) (session : Session), 16 * session.rest.length + 1 ≤ n →
    (chain n level tighter left).Within session (session.rest.length + 1) (session.rest.length + 1)
  | 0, _, _, _, _, _, h => by omega
  | n + 1, level, tighter, htighter, left, session, h => by
    rw [chain]
    refine within_bind_take? (within_pure (by omega)) fun ⟨op, loc⟩ next _ => ?_
    refine (binary_within n tighter htighter next (by omega)).bind (by omega) fun right next _ => ?_
    exact (chain_within n level tighter htighter _ next (by omega)).mono (by omega) (by omega)

theorem unary_within : ∀ (n : Nat) (session : Session), 16 * session.rest.length + 3 ≤ n →
    (unary n).Within session session.rest.length (session.rest.length + 1)
  | 0, _, h => by omega
  | n + 1, session, h => by
    rw [unary]
    refine within_bind_take? (suffixed_within n session (by omega)) fun ⟨op, loc⟩ next _ => ?_
    refine (unary_within n next (by omega)).bind (by omega) fun operand next _ => ?_
    exact within_pure (by omega)

theorem suffixed_within : ∀ (n : Nat) (session : Session), 16 * session.rest.length + 2 ≤ n →
    (suffixed n).Within session session.rest.length (session.rest.length + 1)
  | 0, _, h => by omega
  | n + 1, session, h => by
    rw [suffixed]
    refine (primary_within n session (by omega)).bind (Nat.le_refl _) fun operand next _ => ?_
    exact (suffixes_within n operand next (by omega)).mono (by omega) (by omega)

theorem suffixes_within : ∀ (n : Nat) (operand : Tree) (session : Session),
    16 * session.rest.length + 1 ≤ n →
    (suffixes n operand).Within session (session.rest.length + 1) (session.rest.length + 1)
  | 0, _, _, h => by omega
  | n + 1, operand, session, h => by
    rw [suffixes]
    refine within_bind_accept (within_bind_look ?_) fun loc next _ => ?_
    · split
      · split
        · exact within_failHere (by omega)
        · refine (within_expect _ _ session).bind (by omega) fun _ next _ => ?_
          refine (callArguments_within n next (by omega)).bind (by omega) fun args next _ => ?_
          refine (within_expect _ _ next).bind (by omega) fun _ next _ => ?_
          exact (suffixes_within n _ next (by omega)).mono (by omega) (by omega)
      · exact within_pure (by omega)
    · refine (expression_within n next (by omega)).bind (by omega) fun subscript next _ => ?_
      refine (within_expect _ _ next).bind (by omega) fun _ next _ => ?_
      exact (suffixes_within n _ next (by omega)).mono (by omega) (by omega)

theorem callArguments_within : ∀ (n : Nat) (session : Session), 16 * session.rest.length + 13 ≤ n →
    (callArguments n).Within session (session.rest.length + 1) (session.rest.length + 1)
  | 0, _, h => by omega
  | n + 1, session, h => by
    rw [callArguments]
    refine within_bind_look ?_
    split
    · exact within_pure (by omega)
    · exact (expressions_within n session (by omega)).mono (by omega) (by omega)

theorem expressions_within : ∀ (n : Nat) (session : Session), 16 * session.rest.length + 12 ≤ n →
    (expressions n).Within session session.rest.length (session.rest.length + 1)
  | 0, _, h => by omega
  | n + 1, session, h => by
    rw [expressions]
    refine (expression_within n session (by omega)).bind (Nat.le_refl _) fun first next _ =>
      within_bind_accept (within_pure ‹_›) fun loc next _ => ?_
    refine (expressions_within n next (by omega)).bind (by omega) fun others next _ => ?_
    exact within_pure (by omega)

theorem primary_within : ∀ (n : Nat) (session : Session), 16 * session.rest.length + 1 ≤ n →
    (primary n).Within session session.rest.length (session.rest.length + 1)
  | 0, _, h => by omega
  | n + 1, session, h => by
    rw [primary]
    refine within_bind_take? ?_ fun ⟨leaf, loc⟩ next _ => within_pure (by omega)
    refine (within_expect _ _ session).bind (by omega) fun _ next _ => ?_
    refine (expression_within n next (by omega)).bind (by omega) fun inner next _ => ?_
    refine (within_expect _ _ next).bind (by omega) fun _ next _ => ?_
    exact within_pure (by omega)

end

theorem guard_within (n : Nat) (session : Session) (h : 16 * session.rest.length + 10 ≤ n) :
    (guard n).Within session session.rest.length (session.rest.length + 1) := by
  refine within_bind_look ?_
  refine (binary_within n Precedence.ladder (by decide) session (by simpa [Precedence.ladder])).bind
    (Nat.le_refl _) fun tree next _ => ?_
  split
  · exact within_pure (by omega)
  · exact within_fail (by omega)

theorem length_of_increment? {lexemes : List Lexeme} {tree : Tree} (h : increment? lexemes = some tree) :
    3 < lexemes.length := by
  unfold increment? at h
  split at h
  · simp only [List.length_cons]
    omega
  · simp at h

theorem within_bind_increment {β : Type} {session : Session} {d f : Nat} {follow : Option Tree → Rule β}
    (hnone : (follow none).Within session d f)
    (hsome : ∀ tree next, next.rest.length < session.rest.length →
      (follow (some tree)).Within next d f) :
    (increment >>= follow).Within session d f := by
  rw [Rule.Within, run_bind, run_increment]
  cases hincrement : increment? session.rest with
  | none => exact hnone
  | some tree =>
    have := length_of_increment? hincrement
    exact hsome tree _ (by simp only [List.length_drop]; omega)

theorem assignment_within (n : Nat) (session : Session) (h : 16 * session.rest.length + 2 ≤ n) :
    (assignment n).Within session session.rest.length (session.rest.length + 1) := by
  refine within_bind_increment (within_bind_look ?_) fun tree next _ => within_pure (by omega)
  refine (suffixed_within n session h).bind (Nat.le_refl _) fun target next _ => ?_
  refine (within_expect _ _ next).bind (by omega) fun _ next _ => ?_
  refine (expression_within n next (by omega)).bind (by omega) fun value next _ => ?_
  exact within_pure (by omega)

theorem rest_ne_nil_of_not_atBlockEnd {session : Session} (h : ¬ atBlockEnd session = true) :
    session.rest ≠ [] := by
  intro hrest
  simp [atBlockEnd, Session.atEnd, hrest] at h

mutual

theorem statement_within : ∀ (n : Nat) (session : Session), 16 * session.rest.length + 3 ≤ n →
    (statement n).Within session session.rest.length (session.rest.length + 1)
  | 0, _, h => by omega
  | n + 1, session, h => by
    rw [statement]
    refine within_bind_accept (within_bind_accept (within_bind_accept ?_ ?_) ?_) ?_
    · refine (assignment_within n session (by omega)).bind (Nat.le_refl _) fun tree next _ => ?_
      refine (within_expect _ _ next).bind (by omega) fun _ next _ => ?_
      exact within_pure (by omega)
    · exact fun loc next _ => (block_within n loc next (by omega)).mono (by omega) (by omega)
    · exact fun loc next _ => (iteration_within n loc next (by omega)).mono (by omega) (by omega)
    · exact fun loc next _ => (selection_within n loc next (by omega)).mono (by omega) (by omega)

theorem selection_within : ∀ (n : Nat) (loc : Location) (session : Session),
    16 * session.rest.length + 1 ≤ n →
    (selection n loc).Within session session.rest.length (session.rest.length + 1)
  | 0, _, _, h => by omega
  | n + 1, loc, session, h => by
    rw [selection]
    refine (within_expect _ _ session).bind (Nat.le_refl _) fun _ next _ => ?_
    refine (expression_within n next (by omega)).bind (by omega) fun condition next _ => ?_
    refine (within_expect _ _ next).bind (by omega) fun _ next _ => ?_
    refine (statement_within n next (by omega)).bind (by omega) fun onTrue next _ =>
      within_bind_accept (within_pure (by omega)) fun _ next _ => ?_
    refine (statement_within n next (by omega)).bind (by omega) fun onFalse next _ => ?_
    exact within_pure (by omega)

theorem iteration_within : ∀ (n : Nat) (loc : Location) (session : Session),
    16 * session.rest.length + 1 ≤ n →
    (iteration n loc).Within session session.rest.length (session.rest.length + 1)
  | 0, _, _, h => by omega
  | n + 1, loc, session, h => by
    rw [iteration]
    refine (within_expect _ _ session).bind (Nat.le_refl _) fun _ next _ => ?_
    refine (assignment_within n next (by omega)).bind (by omega) fun init next _ => ?_
    refine (within_expect _ _ next).bind (by omega) fun _ next _ => ?_
    refine (guard_within n next (by omega)).bind (by omega) fun test next _ => ?_
    refine (within_expect _ _ next).bind (by omega) fun _ next _ => ?_
    refine (assignment_within n next (by omega)).bind (by omega) fun update next _ => ?_
    refine (within_expect _ _ next).bind (by omega) fun _ next _ =>
      within_bind_accept (within_failHere (by omega)) fun brace next _ => ?_
    refine (block_within n brace next (by omega)).bind (by omega) fun body next _ => ?_
    exact within_pure (by omega)

theorem block_within : ∀ (n : Nat) (loc : Location) (session : Session),
    16 * session.rest.length + 6 ≤ n →
    (block n loc).Within session session.rest.length (session.rest.length + 1)
  | 0, _, _, h => by omega
  | n + 1, loc, session, h => by
    rw [block]
    refine (statements_within n session (by omega)).bind (Nat.le_refl _) fun trees next _ => ?_
    refine (within_expect _ _ next).bind (by omega) fun _ next _ => ?_
    exact within_pure (by omega)

theorem statements_within : ∀ (n : Nat) (session : Session), 16 * session.rest.length + 5 ≤ n →
    (statements n).Within session (session.rest.length + 1) (session.rest.length + 1)
  | 0, _, h => by omega
  | n + 1, session, h => by
    rw [statements]
    refine within_bind_look ?_
    split
    · exact within_pure (Nat.lt_succ_self _)
    · next hend =>
      refine (statementIfSound_within n session (by omega) (rest_ne_nil_of_not_atBlockEnd hend)).bind
        (Nat.le_refl _) fun first next _ => ?_
      refine (statements_within n next (by omega)).bind (by omega) fun others next _ => ?_
      exact within_pure (by omega)

theorem statementIfSound_within : ∀ (n : Nat) (session : Session), 16 * session.rest.length + 4 ≤ n →
    session.rest ≠ [] →
    (statementIfSound n).Within session session.rest.length (session.rest.length + 1)
  | 0, _, h, _ => by omega
  | n + 1, session, h, hne => by
    rw [statementIfSound]
    refine within_bind_look (within_bind_attempt (statement_within n session (by omega)) ?_ ?_)
    · exact fun tree next _ => within_pure (by omega)
    · intro error next _
      refine within_bind_report fun next hreport => within_bind_skipWith fun last hlast => within_pure ?_
      rw [hlast]
      exact Recovery.length_resume_lt hne (by rw [hreport]; omega)

end

theorem dataType_within (session : Session) :
    dataType.Within session session.rest.length (session.rest.length + 1) := by
  refine within_bind_take? (within_failHere (Nat.lt_succ_self _)) fun ⟨base, loc⟩ next _ => ?_
  exact within_bind_accept (within_pure (by omega)) fun _ _ _ => within_pure (by omega)

theorem argument_within (session : Session) :
    argument.Within session session.rest.length (session.rest.length + 1) := by
  refine within_bind_look ?_
  refine (dataType_within session).bind (Nat.le_refl _) fun type next _ => ?_
  refine (within_identifier next).bind (by omega) fun ⟨name, loc⟩ next _ => ?_
  exact within_pure (by omega)

theorem argumentIfSound_within (session : Session) :
    argumentIfSound.Within session (session.rest.length + 1) (session.rest.length + 1) := by
  refine within_bind_attempt (argument_within session) (fun tree next _ => within_pure (by omega)) ?_
  intro error next _
  refine within_bind_report fun next hreport => within_bind_skipWith fun last hlast => ?_
  have := Recovery.length_skipArgument_le next.rest
  exact within_pure (by rw [hlast]; rw [hreport] at *; omega)

theorem arguments_within : ∀ (n : Nat) (session : Session), session.rest.length < n →
    (arguments n).Within session (session.rest.length + 1) (session.rest.length + 1)
  | 0, _, h => by omega
  | n + 1, session, h => by
    rw [arguments]
    refine (argumentIfSound_within session).bind (Nat.le_refl _) fun first next _ =>
      within_bind_accept (within_pure ‹_›) fun _ next _ => ?_
    refine (arguments_within n next (by omega)).bind (by omega) fun others next _ => ?_
    exact within_pure (by omega)

theorem argumentList_within (n : Nat) (session : Session) (h : session.rest.length < n) :
    (argumentList n).Within session (session.rest.length + 1) (session.rest.length + 1) := by
  refine within_bind_look ?_
  split
  · exact within_pure (Nat.lt_succ_self _)
  · exact arguments_within n session h

theorem identifiers_within : ∀ (n : Nat) (session : Session), session.rest.length < n →
    (identifiers n).Within session (session.rest.length + 1) (session.rest.length + 1)
  | 0, _, h => by omega
  | n + 1, session, h => by
    rw [identifiers]
    refine (within_identifier session).bind (Nat.le_refl _) fun ⟨name, loc⟩ next _ =>
      within_bind_accept (within_pure (by omega)) fun _ next _ => ?_
    refine (identifiers_within n next (by omega)).bind (by omega) fun others next _ => ?_
    exact within_pure (by omega)

theorem identifierList_within (n : Nat) (session : Session) (h : session.rest.length < n) :
    (identifierList n).Within session (session.rest.length + 1) (session.rest.length + 1) := by
  refine within_bind_look ?_
  split
  · exact within_pure (Nat.lt_succ_self _)
  · exact identifiers_within n session h

theorem returnsClause_within (n : Nat) (session : Session) (h : session.rest.length < n) :
    (returnsClause n).Within session session.rest.length (session.rest.length + 1) := by
  refine (within_expect _ _ session).bind (Nat.le_refl _) fun _ next _ => ?_
  refine (within_expect _ _ next).bind (by omega) fun _ next _ => ?_
  refine (identifierList_within n next (by omega)).bind (by omega) fun names next _ => ?_
  refine (within_expect _ _ next).bind (by omega) fun _ next _ => ?_
  exact within_pure (by omega)

theorem localsClause_within (n : Nat) (session : Session) (h : session.rest.length < n) :
    (localsClause n).Within session session.rest.length (session.rest.length + 1) := by
  refine (within_expect _ _ session).bind (Nat.le_refl _) fun _ next _ => ?_
  refine (within_expect _ _ next).bind (by omega) fun _ next _ => ?_
  refine (argumentList_within n next (by omega)).bind (by omega) fun args next _ => ?_
  refine (within_expect _ _ next).bind (by omega) fun _ next _ => ?_
  exact within_pure (by omega)

theorem joinBody_within (n : Nat) (session : Session) (h : 16 * session.rest.length + 3 ≤ n) :
    (joinBody n).Within session (session.rest.length + 1) (session.rest.length + 1) := by
  refine within_bind_look ?_
  refine within_bind_attempt (statement_within n session h) (fun tree next _ => within_pure (by omega)) ?_
  intro error next _
  refine within_bind_report fun next hreport => within_bind_skipWith fun last hlast => ?_
  have := Recovery.length_skipToSequential_le next.rest
  exact within_pure (by rw [hlast]; rw [hreport] at *; omega)

theorem joinSpec_within (n : Nat) (session : Session) (h : 16 * session.rest.length + 3 ≤ n) :
    (joinSpec n).Within session session.rest.length (session.rest.length + 1) := by
  refine within_bind_look ?_
  refine (within_expect _ _ session).bind (Nat.le_refl _) fun _ next _ => ?_
  refine (within_expect _ _ next).bind (by omega) fun _ next _ => ?_
  refine (argumentList_within n next (by omega)).bind (by omega) fun left next _ => ?_
  refine (within_expect _ _ next).bind (by omega) fun _ next _ => ?_
  refine (argumentList_within n next (by omega)).bind (by omega) fun right next _ => ?_
  refine (within_expect _ _ next).bind (by omega) fun _ next _ => ?_
  refine (returnsClause_within n next (by omega)).bind (by omega) fun returns next _ => ?_
  refine (localsClause_within n next (by omega)).bind (by omega) fun locals next _ => ?_
  refine (joinBody_within n next (by omega)).bind (by omega) fun body next _ => ?_
  exact within_pure (by omega)

theorem sequentialSpec_within (n : Nat) (session : Session) (h : 16 * session.rest.length + 3 ≤ n) :
    (sequentialSpec n).Within session session.rest.length (session.rest.length + 1) := by
  refine within_bind_look ?_
  refine (within_expect _ _ session).bind (Nat.le_refl _) fun _ next _ => ?_
  refine (within_expect _ _ next).bind (by omega) fun _ next _ => ?_
  refine (argumentList_within n next (by omega)).bind (by omega) fun args next _ => ?_
  refine (within_expect _ _ next).bind (by omega) fun _ next _ => ?_
  refine (returnsClause_within n next (by omega)).bind (by omega) fun returns next _ => ?_
  refine (localsClause_within n next (by omega)).bind (by omega) fun locals next _ => ?_
  refine (statement_within n next (by omega)).bind (by omega) fun body next _ => ?_
  exact within_pure (by omega)

/-- A budget of sixteen steps for each lexeme, and three more, is enough for a program. -/
theorem program_within (n : Nat) (session : Session) (h : 16 * session.rest.length + 3 ≤ n) :
    (program n).Within session (session.rest.length + 1) (session.rest.length + 1) := by
  refine within_bind_look (within_bind_attempt (joinSpec_within n session h) ?_ ?_)
  · intro join next _
    refine (sequentialSpec_within n next (by omega)).bind (by omega) fun sequential next _ => ?_
    refine within_bind_look ?_
    split
    · exact within_pure (by omega)
    · exact within_failHere (by omega)
  · intro error next _
    refine within_bind_skipWith fun last hskip => ?_
    have := Recovery.length_skipToSequential_le next.rest
    rw [← hskip] at this
    refine within_bind_attempt (sequentialSpec_within n last (by omega))
      (fun _ _ _ => within_fail (by omega)) fun second behind _ => ?_
    exact within_bind_record fun final hfinal => within_fail (by rw [hfinal]; omega)

/-- Steps enough to read a program from a session. -/
def budget (session : Session) : Nat :=
  16 * session.rest.length + 3

theorem program_ne_exhausted (session : Session) : (program (budget session)).run session ≠ .exhausted :=
  (program_within (budget session) session (Nat.le_refl _)).ne_exhausted

end Grammar

end RoutineSpec
