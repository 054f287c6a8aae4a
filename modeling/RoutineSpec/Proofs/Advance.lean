import RoutineSpec.Proofs.Unread

/-! # Reading only advances

Whether a rule is done or fails, what it leaves of the lexemes is a suffix of what it found, the end of input
stays where it is, and nothing that has been reported is taken back. Recovery goes back to where a statement
began, but never to before it.
-/

namespace RoutineSpec

/-- A session that reading can come to from another one. -/
structure Session.AdvancesTo (session next : Session) : Prop where
  rest : next.rest <:+ session.rest
  stop : next.stop = session.stop
  diagnostics : session.diagnostics <+: next.diagnostics

namespace Session.AdvancesTo

variable {session mid next : Session}

theorem refl (session : Session) : session.AdvancesTo session :=
  ⟨List.suffix_refl _, rfl, List.prefix_refl _⟩

theorem trans (h : session.AdvancesTo mid) (h' : mid.AdvancesTo next) : session.AdvancesTo next :=
  ⟨h'.rest.trans h.rest, h'.stop.trans h.stop, h.diagnostics.trans h'.diagnostics⟩

theorem unread (session : Session) (span : List Lexeme) : (session.unread span).AdvancesTo session :=
  ⟨List.suffix_append _ _, rfl, List.prefix_refl _⟩

theorem skip {rest : List Lexeme} (h : rest <:+ session.rest) :
    session.AdvancesTo { session with rest := rest } :=
  ⟨h, rfl, List.prefix_refl _⟩

theorem record (session : Session) (diagnostic : Diagnostic) :
    session.AdvancesTo (session.record diagnostic) :=
  ⟨List.suffix_refl _, rfl, List.prefix_append _ _⟩

theorem report (session : Session) (error : SyntaxError) : session.AdvancesTo (session.report error) := by
  unfold Session.report
  split
  · exact refl session
  · exact record session _

end Session.AdvancesTo

/-- However the rule ends, it has advanced. -/
structure Rule.Advances {α : Type} (rule : Rule α) : Prop where
  done : ∀ {session value next}, rule.run session = .done value next → session.AdvancesTo next
  failed : ∀ {session error next}, rule.run session = .failed error next → session.AdvancesTo next

namespace Rule

variable {α β : Type} {rule : Rule α} {follow : α → Rule β}

theorem Advances.bind (h : rule.Advances) (hfollow : ∀ value, (follow value).Advances) :
    (rule >>= follow).Advances where
  done {session value next} hdone := by
    obtain ⟨first, mid, hrule, hrest⟩ := done_of_bind hdone
    exact (h.done hrule).trans ((hfollow first).done hrest)
  failed {session error next} hfailed := by
    rw [run_bind] at hfailed
    cases hrule : rule.run session with
    | done first mid =>
      rw [hrule] at hfailed
      exact (h.done hrule).trans ((hfollow first).failed hfailed)
    | failed early mid =>
      rw [hrule] at hfailed
      cases hfailed
      exact h.failed hrule
    | exhausted => simp [hrule] at hfailed

theorem advances_pure (value : α) : (pure value : Rule α).Advances where
  done h := by cases h; exact .refl _
  failed h := by cases h

theorem advances_exhausted : (exhausted : Rule α).Advances where
  done h := by cases h
  failed h := by cases h

theorem advances_fail (error : SyntaxError) : (fail error : Rule α).Advances where
  done h := by cases h
  failed h := by cases h; exact .refl _

theorem advances_failHere (what : Expectation) : (failHere what : Rule α).Advances where
  done h := by cases h
  failed h := by cases h; exact .refl _

theorem advances_look (view : Session → α) : (look view).Advances where
  done h := by cases h; exact .refl _
  failed h := by cases h

theorem advances_update {change : Session → Session} (h : ∀ session : Session, session.AdvancesTo (change session)) :
    (update change).Advances where
  done hdone := by cases hdone; exact h _
  failed hfailed := by cases hfailed

theorem advances_report (error : SyntaxError) : (report error).Advances :=
  advances_update fun session => .report session error

theorem advances_record (error : SyntaxError) : (record error).Advances :=
  advances_update fun session => .record session _

theorem advances_skipWith {skip : List Lexeme → List Lexeme} (h : ∀ lexemes, skip lexemes <:+ lexemes) :
    (skipWith skip).Advances :=
  advances_update fun session => .skip (h session.rest)

theorem advances_take? (select : Terminal → Option α) : (take? select).Advances where
  done {session value next} h := by
    rw [run_take?] at h
    cases htake : session.take? select with
    | none => rw [htake] at h; cases h; exact .refl _
    | some taken =>
      obtain ⟨⟨found, loc⟩, mid⟩ := taken
      obtain ⟨terminal, -, rfl⟩ := Session.eq_unread_of_take? htake
      rw [htake] at h
      cases h
      exact .unread _ _
  failed {session error next} h := by
    rw [run_take?] at h
    cases htake : session.take? select with
    | none | some => simp [htake] at h

/-- To accept a terminal is to take it and keep its place. -/
theorem accept_eq (terminal : Terminal) :
    accept terminal = take? terminal.same? >>= fun found => pure (found.map Prod.snd) := by
  unfold accept
  congr
  funext session
  simp only [take?]
  cases session.take? terminal.same? <;> rfl

theorem advances_accept (terminal : Terminal) : (accept terminal).Advances := by
  rw [accept_eq]
  exact (advances_take? _).bind fun _ => advances_pure _

theorem advances_expect (terminal : Terminal) (what : Expectation) : (expect terminal what).Advances := by
  refine (advances_accept terminal).bind fun found => ?_
  cases found with
  | none => exact advances_failHere what
  | some => exact advances_pure ()

theorem advances_identifier : identifier.Advances :=
  (advances_take? _).bind fun
    | none => advances_failHere _
    | some _ => advances_pure _

theorem Advances.attempt (h : rule.Advances) : (attempt rule).Advances where
  done {session value next} hdone := by
    rw [run_attempt] at hdone
    cases hrule : rule.run session with
    | done first mid => rw [hrule] at hdone; cases hdone; exact h.done hrule
    | failed error mid => rw [hrule] at hdone; cases hdone; exact h.failed hrule
    | exhausted => simp [hrule] at hdone
  failed {session error next} hfailed := by
    rw [run_attempt] at hfailed
    cases hrule : rule.run session with
    | done | failed | exhausted => simp [hrule] at hfailed

theorem advances_ite {condition : Prop} [Decidable condition] {rule other : Rule α} (h : rule.Advances)
    (h' : other.Advances) : (if condition then rule else other).Advances := by
  split
  · exact h
  · exact h'

end Rule

namespace Recovery

theorem skipArgument_suffix (lexemes : List Lexeme) : skipArgument lexemes <:+ lexemes :=
  List.dropWhile_suffix _

theorem skipToSequential_suffix (lexemes : List Lexeme) : skipToSequential lexemes <:+ lexemes :=
  List.dropWhile_suffix _

theorem skipAssignment_suffix (lexemes : List Lexeme) : skipAssignment lexemes <:+ lexemes := by
  fun_induction skipAssignment lexemes with
  | case1 => exact List.suffix_refl _
  | case2 => exact List.suffix_cons _ _
  | case3 => exact List.suffix_refl _
  | case4 => exact List.suffix_refl _
  | case5 lexeme rest _ _ _ ih => exact ih.trans (List.suffix_cons _ _)

theorem skipStatement_suffix (nesting : Nesting) (lexemes : List Lexeme) :
    skipStatement nesting lexemes <:+ lexemes := by
  induction lexemes generalizing nesting with
  | nil => exact List.suffix_refl _
  | cons lexeme rest ih =>
    unfold skipStatement
    split
    · exact List.suffix_refl _
    · exact (ih _).trans (List.suffix_cons _ _)

/-- A block goes on behind the start of the statement that failed. -/
theorem resume_suffix {start rest : List Lexeme} (h : rest <:+ start) : resume start rest <:+ start := by
  cases start with
  | nil => exact List.suffix_refl _
  | cons first others =>
    simp only [resume]
    split
    · exact skipStatement_suffix _ _
    · split
      · exact List.suffix_cons _ _
      · exact (skipAssignment_suffix rest).trans h

end Recovery

namespace Grammar

open Rule

mutual

theorem expression_advances : ∀ n, (expression n).Advances
  | 0 => advances_exhausted
  | n + 1 => by
    rw [expression]
    exact (binary_advances n _).bind fun _ => (advances_accept _).bind fun
      | none => advances_pure _
      | some _ => (expression_advances n).bind fun _ => (advances_expect _ _).bind fun _ =>
          (expression_advances n).bind fun _ => advances_pure _

theorem binary_advances : ∀ n levels, (binary n levels).Advances
  | 0, _ => advances_exhausted
  | n + 1, [] => by
    rw [binary]
    exact unary_advances n
  | n + 1, level :: tighter => by
    rw [binary]
    exact (binary_advances n tighter).bind fun _ => chain_advances n level tighter _

theorem chain_advances : ∀ n level tighter left, (chain n level tighter left).Advances
  | 0, _, _, _ => advances_exhausted
  | n + 1, level, tighter, left => by
    rw [chain]
    exact (advances_take? _).bind fun
      | none => advances_pure _
      | some (_, _) => (binary_advances n tighter).bind fun _ => chain_advances n level tighter _

theorem unary_advances : ∀ n, (unary n).Advances
  | 0 => advances_exhausted
  | n + 1 => by
    rw [unary]
    exact (advances_take? _).bind fun
      | none => suffixed_advances n
      | some (_, _) => (unary_advances n).bind fun _ => advances_pure _

theorem suffixed_advances : ∀ n, (suffixed n).Advances
  | 0 => advances_exhausted
  | n + 1 => by
    rw [suffixed]
    exact (primary_advances n).bind fun _ => suffixes_advances n _

theorem suffixes_advances : ∀ n operand, (suffixes n operand).Advances
  | 0, _ => advances_exhausted
  | n + 1, operand => by
    rw [suffixes]
    refine (advances_accept _).bind fun
      | none => (advances_look _).bind fun _ => advances_ite ?_ (advances_pure _)
      | some _ => (expression_advances n).bind fun _ => (advances_expect _ _).bind fun _ =>
          suffixes_advances n _
    cases operand.callee? with
    | none => exact advances_failHere _
    | some callee =>
      exact (advances_expect _ _).bind fun _ => (callArguments_advances n).bind fun _ =>
        (advances_expect _ _).bind fun _ => suffixes_advances n _

theorem callArguments_advances : ∀ n, (callArguments n).Advances
  | 0 => advances_exhausted
  | n + 1 => by
    rw [callArguments]
    exact (advances_look _).bind fun _ => advances_ite (advances_pure _) (expressions_advances n)

theorem expressions_advances : ∀ n, (expressions n).Advances
  | 0 => advances_exhausted
  | n + 1 => by
    rw [expressions]
    exact (expression_advances n).bind fun _ => (advances_accept _).bind fun
      | none => advances_pure _
      | some _ => (expressions_advances n).bind fun _ => advances_pure _

theorem primary_advances : ∀ n, (primary n).Advances
  | 0 => advances_exhausted
  | n + 1 => by
    rw [primary]
    exact (advances_take? _).bind fun
      | some (_, _) => advances_pure _
      | none => (advances_expect _ _).bind fun _ => (expression_advances n).bind fun _ =>
          (advances_expect _ _).bind fun _ => advances_pure _

end

theorem guard_advances (n : Nat) : (guard n).Advances :=
  (advances_look _).bind fun _ => (binary_advances n _).bind fun _ =>
    advances_ite (advances_pure _) (advances_fail _)

theorem increment_advances : increment.Advances where
  done {session value next} h := by
    rw [run_increment] at h
    cases hincrement : increment? session.rest with
    | none => rw [hincrement] at h; cases h; exact .refl _
    | some tree => rw [hincrement] at h; cases h; exact .skip (List.drop_suffix _ _)
  failed {session error next} h := by
    rw [run_increment] at h
    cases hincrement : increment? session.rest with
    | none | some => simp [hincrement] at h

theorem assignment_advances (n : Nat) : (assignment n).Advances :=
  increment_advances.bind fun
    | some _ => advances_pure _
    | none => (advances_look _).bind fun _ => (suffixed_advances n).bind fun _ =>
        (advances_expect _ _).bind fun _ => (expression_advances n).bind fun _ => advances_pure _

mutual

theorem statement_advances : ∀ n, (statement n).Advances
  | 0 => advances_exhausted
  | n + 1 => by
    rw [statement]
    exact (advances_accept _).bind fun
      | some _ => selection_advances n _
      | none => (advances_accept _).bind fun
        | some _ => iteration_advances n _
        | none => (advances_accept _).bind fun
          | some _ => block_advances n _
          | none => (assignment_advances n).bind fun _ => (advances_expect _ _).bind fun _ =>
              advances_pure _

theorem selection_advances : ∀ n loc, (selection n loc).Advances
  | 0, _ => advances_exhausted
  | n + 1, loc => by
    rw [selection]
    exact (advances_expect _ _).bind fun _ => (expression_advances n).bind fun _ =>
      (advances_expect _ _).bind fun _ => (statement_advances n).bind fun _ =>
        (advances_accept _).bind fun
          | none => advances_pure _
          | some _ => (statement_advances n).bind fun _ => advances_pure _

theorem iteration_advances : ∀ n loc, (iteration n loc).Advances
  | 0, _ => advances_exhausted
  | n + 1, loc => by
    rw [iteration]
    exact (advances_expect _ _).bind fun _ => (assignment_advances n).bind fun _ =>
      (advances_expect _ _).bind fun _ => (guard_advances n).bind fun _ =>
        (advances_expect _ _).bind fun _ => (assignment_advances n).bind fun _ =>
          (advances_expect _ _).bind fun _ => (advances_accept _).bind fun
            | none => advances_failHere _
            | some _ => (block_advances n _).bind fun _ => advances_pure _

theorem block_advances : ∀ n loc, (block n loc).Advances
  | 0, _ => advances_exhausted
  | n + 1, loc => by
    rw [block]
    exact (statements_advances n).bind fun _ => (advances_expect _ _).bind fun _ => advances_pure _

theorem statements_advances : ∀ n, (statements n).Advances
  | 0 => advances_exhausted
  | n + 1 => by
    rw [statements]
    exact (advances_look _).bind fun _ => advances_ite (advances_pure _)
      ((statementIfSound_advances n).bind fun _ => (statements_advances n).bind fun _ => advances_pure _)

theorem statementIfSound_advances : ∀ n, (statementIfSound n).Advances
  | 0 => advances_exhausted
  | n + 1 => by
    rw [statementIfSound]
    constructor
    case done =>
      intro session value next h
      obtain ⟨tree, mid, hstatement, hfollow⟩ | ⟨error, mid, hstatement, hfollow⟩ :=
        done_of_attempt (done_of_look h)
      · obtain ⟨-, rfl⟩ := done_of_pure hfollow
        exact (statement_advances n).done hstatement
      · -- The skip may go back, but only to where the statement began.
        have early := (statement_advances n).failed hstatement
        have reported := early.trans (.report mid error)
        cases hfollow
        exact ⟨Recovery.resume_suffix reported.rest, reported.stop, reported.diagnostics⟩
    case failed =>
      intro session error next h
      rw [run_bind] at h
      simp only [look, run_bind, run_attempt] at h
      cases hstatement : (statement n).run session with
      | done | exhausted => simp [hstatement] at h
      | failed early mid => rw [hstatement] at h; cases h

end

theorem dataType_advances : dataType.Advances :=
  (advances_take? _).bind fun
    | none => advances_failHere _
    | some (_, _) => (advances_accept _).bind fun _ => advances_pure _

theorem argument_advances : argument.Advances :=
  (advances_look _).bind fun _ => dataType_advances.bind fun _ => advances_identifier.bind fun (_, _) =>
    advances_pure _

theorem argumentIfSound_advances : argumentIfSound.Advances :=
  argument_advances.attempt.bind fun
    | .ok _ => advances_pure _
    | .error _ => (advances_report _).bind fun _ =>
        (advances_skipWith Recovery.skipArgument_suffix).bind fun _ => advances_pure _

theorem arguments_advances : ∀ n, (arguments n).Advances
  | 0 => advances_exhausted
  | n + 1 => by
    rw [arguments]
    exact argumentIfSound_advances.bind fun _ => (advances_accept _).bind fun
      | none => advances_pure _
      | some _ => (arguments_advances n).bind fun _ => advances_pure _

theorem argumentList_advances (n : Nat) : (argumentList n).Advances :=
  (advances_look _).bind fun _ => advances_ite (advances_pure _) (arguments_advances n)

theorem identifiers_advances : ∀ n, (identifiers n).Advances
  | 0 => advances_exhausted
  | n + 1 => by
    rw [identifiers]
    exact advances_identifier.bind fun (_, _) => (advances_accept _).bind fun
      | none => advances_pure _
      | some _ => (identifiers_advances n).bind fun _ => advances_pure _

theorem identifierList_advances (n : Nat) : (identifierList n).Advances :=
  (advances_look _).bind fun _ => advances_ite (advances_pure _) (identifiers_advances n)

theorem returnsClause_advances (n : Nat) : (returnsClause n).Advances :=
  (advances_expect _ _).bind fun _ => (advances_expect _ _).bind fun _ =>
    (identifierList_advances n).bind fun _ => (advances_expect _ _).bind fun _ => advances_pure _

theorem localsClause_advances (n : Nat) : (localsClause n).Advances :=
  (advances_expect _ _).bind fun _ => (advances_expect _ _).bind fun _ =>
    (argumentList_advances n).bind fun _ => (advances_expect _ _).bind fun _ => advances_pure _

theorem joinBody_advances (n : Nat) : (joinBody n).Advances :=
  (advances_look _).bind fun _ => (statement_advances n).attempt.bind fun
    | .ok _ => advances_pure _
    | .error _ => (advances_report _).bind fun _ =>
        (advances_skipWith Recovery.skipToSequential_suffix).bind fun _ => advances_pure _

theorem joinSpec_advances (n : Nat) : (joinSpec n).Advances :=
  (advances_look _).bind fun _ => (advances_expect _ _).bind fun _ => (advances_expect _ _).bind fun _ =>
    (argumentList_advances n).bind fun _ => (advances_expect _ _).bind fun _ =>
      (argumentList_advances n).bind fun _ => (advances_expect _ _).bind fun _ =>
        (returnsClause_advances n).bind fun _ => (localsClause_advances n).bind fun _ =>
          (joinBody_advances n).bind fun _ => advances_pure _

theorem sequentialSpec_advances (n : Nat) : (sequentialSpec n).Advances :=
  (advances_look _).bind fun _ => (advances_expect _ _).bind fun _ => (advances_expect _ _).bind fun _ =>
    (argumentList_advances n).bind fun _ => (advances_expect _ _).bind fun _ =>
      (returnsClause_advances n).bind fun _ => (localsClause_advances n).bind fun _ =>
        (statement_advances n).bind fun _ => advances_pure _

theorem programBehind_advances (n : Nat) (loc : Location) (join : Tree) : (programBehind n loc join).Advances :=
  (sequentialSpec_advances n).bind fun _ => (advances_look _).bind fun _ =>
    advances_ite (advances_pure _) (advances_failHere _)

theorem brokenProgram_advances (n : Nat) (error : SyntaxError) : (brokenProgram n error).Advances :=
  (advances_skipWith Recovery.skipToSequential_suffix).bind fun _ =>
    (sequentialSpec_advances n).attempt.bind fun
      | .ok _ => advances_fail _
      | .error _ => (advances_record _).bind fun _ => advances_fail _

/-- Reading a program only advances. -/
theorem program_advances (n : Nat) : (program n).Advances :=
  (advances_look _).bind fun _ => (joinSpec_advances n).attempt.bind fun
    | .ok _ => programBehind_advances n _ _
    | .error _ => brokenProgram_advances n _

end Grammar

end RoutineSpec
