import RoutineSpec.Proofs.Acceptance
import RoutineSpec.Proofs.Surroundings

/-! # Repairs in a block

Where reading gets over what is wrong in a block, so that the statements of the block are those that it would have
without what is wrong, the whole program is the one without it as well. All that comes of the repair outside of the
block is what has been reported.
-/

namespace RoutineSpec

namespace Session

/-- The session with some more errors reported. -/
def reporting (session : Session) (errors : List SyntaxError) : Session :=
  { session with diagnostics := session.diagnostics ++ errors.map .syntactic }

@[simp] theorem rest_reporting (session : Session) (errors : List SyntaxError) :
    (session.reporting errors).rest = session.rest := rfl

/-- The first error is reported, wherever it is. -/
theorem report_of_clean {session : Session} (h : session.diagnostics = []) (error : SyntaxError) :
    session.report error = session.reporting [error] := by
  simp [report, justReportedAt, record, reporting, h]

theorem reporting_unread (session : Session) (span : List Lexeme) (errors : List SyntaxError) :
    (session.unread span).reporting errors = (session.reporting errors).unread span := rfl

end Session

/-- Unless its budget runs out, the rule reads the lexemes, comes to the value, and reports errors of which `Reported`
    holds. -/
def Rule.Mends {α : Type} (rule : Rule α) (span : List Lexeme) (next : Session) (value : α)
    (Reported : List SyntaxError → Prop) : Prop :=
  rule.Succeeds (next.unread span) fun found last =>
    found = value ∧ ∃ errors, Reported errors ∧ last = next.reporting errors

namespace Rule

variable {α β : Type} {rule : Rule α} {follow : α → Rule β} {span more : List Lexeme} {next : Session} {first : α}
  {value : β} {terminal : Terminal} {loc : Location} {Reported : List SyntaxError → Prop}

theorem Reads.bind_mends (h : rule.Reads span (next.unread more) first)
    (hfollow : (follow first).Mends more next value Reported) :
    (rule >>= follow).Mends (span ++ more) next value Reported := by
  unfold Mends
  rw [Session.unread_append]
  exact h.bind_succeeds hfollow

theorem Mends.bind_reads (h : rule.Mends span (next.unread more) first Reported)
    (hfollow : ∀ errors, (follow first).Reads more (next.reporting errors) value) :
    (rule >>= follow).Mends (span ++ more) next value Reported := by
  unfold Mends at *
  rw [Session.unread_append]
  refine h.bind fun {found last} ⟨hfound, errors, hreported, hlast⟩ => ?_
  subst hfound hlast
  exact (hfollow errors).succeeds.mono fun ⟨hvalue, hlast⟩ => ⟨hvalue, errors, hreported, hlast⟩

/-- The last part of a rule may read nothing more. -/
theorem Mends.bind_nil (h : rule.Mends span next first Reported)
    (hfollow : ∀ errors, (follow first).Reads [] (next.reporting errors) value) :
    (rule >>= follow).Mends span next value Reported := by
  have hwhole : (rule >>= follow).Mends (span ++ []) next value Reported := h.bind_reads hfollow
  rwa [List.append_nil] at hwhole

theorem Mends.attempt (h : rule.Mends span next first Reported) : (attempt rule).Mends span next (.ok first) Reported :=
  (Succeeds.attempt h).mono fun ⟨_, hended, hvalue, hlast⟩ => ⟨hended.trans (congrArg _ hvalue), hlast⟩

theorem mends_exhausted : (exhausted : Rule α).Mends span next first Reported := trivial

theorem mends_bind_look {γ : Type} {view : Session → γ} {follow : γ → Rule β}
    (h : (follow (view (next.unread span))).Mends span next value Reported) :
    (look view >>= follow).Mends span next value Reported := succeeds_bind_look h

theorem mends_bind_accept_other {other : Terminal} {follow : Option Location → Rule β} (hother : other ≠ terminal)
    (h : (follow none).Mends (⟨other, loc⟩ :: span) next value Reported) :
    (accept terminal >>= follow).Mends (⟨other, loc⟩ :: span) next value Reported := by
  refine succeeds_bind_accept_none (fun lexeme hmem => ?_) h
  cases hmem
  exact hother

theorem mends_bind_accept_some {follow : Option Location → Rule β}
    (h : (follow (some loc)).Mends span next value Reported) :
    (accept terminal >>= follow).Mends (⟨terminal, loc⟩ :: span) next value Reported := succeeds_bind_accept_some h

theorem mends_bind_expect {what : Expectation} {follow : Unit → Rule β}
    (h : (follow ()).Mends span next value Reported) :
    (expect terminal what >>= follow).Mends (⟨terminal, loc⟩ :: span) next value Reported := succeeds_bind_expect h

end Rule

namespace Grammar

open Rule Phrase

variable {Reported : List SyntaxError → Prop}

/-! ## Statements -/

theorem statementIfSound_mends {n : Nat} {span : List Lexeme} {tree : Tree} {next : Session}
    (h : ∀ m, (statement m).Mends span next tree Reported) : (statementIfSound n).Mends span next [tree] Reported := by
  cases n with
  | zero => rw [statementIfSound]; exact mends_exhausted
  | succ n =>
    rw [statementIfSound]
    apply mends_bind_look
    apply (h n).attempt.bind_nil
    exact fun _ => reads_pure

/-- What is repaired is in the first of the statements. -/
theorem statements_mends_first {n : Nat} {first others : List Lexeme} {tree : Tree} {trees : List Tree}
    {next : Session} (hstart : StartsStatement first)
    (h : ∀ m, (statement m).Mends first (next.unread others) tree Reported)
    (hothers : ∀ m errors, (statements m).Reads others (next.reporting errors) trees) :
    (statements n).Mends (first ++ others) next (tree :: trees) Reported := by
  cases n with
  | zero => rw [statements]; exact mends_exhausted
  | succ n =>
    rw [statements]
    apply mends_bind_look
    rw [Session.unread_append, atBlockEnd_unread hstart]
    apply (statementIfSound_mends h).bind_reads
    intro errors
    apply (hothers n errors).bind_nil
    exact reads_pure

/-- What is repaired is behind some statements. -/
theorem statements_mends_behind {span : List Lexeme} {trees : List Tree} {next : Session}
    (hnext : ∀ lexeme ∈ (span ++ next.rest).head?, lexeme.terminal ≠ .keyword .else_)
    (h : ∀ n, (statements n).Mends span next trees Reported) :
    ∀ {early earlyTrees}, Statements Location.Touches early earlyTrees →
      ∀ {n}, (statements n).Mends (early ++ span) next (earlyTrees ++ trees) Reported
  | _, _, .none, n => h n
  | _, _, .more _ _, 0 => by rw [statements]; exact mends_exhausted
  | _, _, .more phrase others, n + 1 => by
    rw [statements]
    apply mends_bind_look
    rw [List.append_assoc, Session.unread_append, atBlockEnd_unread phrase.starts]
    refine (statementIfSound_complete fun m => statement_complete phrase ?_).bind_mends ?_
    · rw [Session.unread_append]
      exact elseSettled_unread others hnext
    · apply (statements_mends_behind hnext h others).bind_nil
      exact fun _ => reads_pure

theorem block_mends {n : Nat} {span : List Lexeme} {trees : List Tree} {brace close : Location} {next : Session}
    (h : ∀ m, (statements m).Mends span (next.unread [⟨.mark .closeBrace, close⟩]) trees Reported) :
    (block n brace).Mends (span ++ [⟨.mark .closeBrace, close⟩]) next (.block brace trees) Reported := by
  cases n with
  | zero => rw [block]; exact mends_exhausted
  | succ n =>
    rw [block]
    apply (h n).bind_reads
    intro errors
    apply reads_bind_expect
    exact reads_pure

/-- What follows the condition of a selection. -/
def branches (n : Nat) (loc : Location) (condition : Tree) : Rule Tree := do
  let onTrue ← statement n
  match ← accept (.keyword .else_) with
  | none => return .ifThen loc condition onTrue
  | some _ => do
    let onFalse ← statement n
    return .ifThenElse loc condition onTrue onFalse

/-- What is repaired in the branches of a selection is repaired in the selection. -/
theorem statement_mends_of_branches {n : Nat} {condition span : List Lexeme} {conditionTree tree : Tree}
    {loc paren close : Location} {next : Session} (conditionPhrase : Expression condition conditionTree)
    (h : ∀ m, (branches m loc conditionTree).Mends span next tree Reported) :
    (statement n).Mends
      (⟨.keyword .if_, loc⟩ :: ⟨.mark .openParen, paren⟩ :: (condition ++ ⟨.mark .closeParen, close⟩ :: span))
      next tree Reported := by
  cases n with
  | zero => rw [statement]; exact mends_exhausted
  | succ n =>
    rw [statement]
    apply mends_bind_accept_some
    show (selection n loc).Mends _ _ _ _
    cases n with
    | zero => rw [selection]; exact mends_exhausted
    | succ n =>
      rw [selection]
      apply mends_bind_expect
      apply (expression_complete conditionPhrase (Session.endsExpression_unread_cons (by decide))).bind_mends
      apply mends_bind_expect
      exact h n

section

variable {middle : List Lexeme} {held : List Tree} {brace : Location}

/-- What is wrong between the statements that a block holds is got over. -/
def MendsBlock (middle : List Lexeme) (held : List Tree) (Reported : List SyntaxError → Prop) : Prop :=
  ∀ (n : Nat) (next : Session) (close : Location) (more : List Lexeme), next.diagnostics = [] →
    (statements n).Mends middle (next.unread (⟨.mark .closeBrace, close⟩ :: more)) held Reported

/-- The same in front of `next`, where it may not be got over in front of what else could follow. -/
def MendsAt (middle : List Lexeme) (next : Session) (held : List Tree) (Reported : List SyntaxError → Prop) : Prop :=
  ∀ n, (statements n).Mends middle next held Reported

mutual

theorem statement_mends : ∀ {before behind tree},
    Around Location.Touches (.block brace held) before behind tree → ∀ {n next},
      MendsAt middle (next.unread behind) held Reported → ElseSettled tree next →
      (statement n).Mends (before ++ middle ++ behind) next tree Reported
  | _, _, _, .onlyBranch conditionPhrase around, n, next, hmiddle, hsettled => by
    simp only [List.append_assoc, List.cons_append]
    refine statement_mends_of_branches conditionPhrase fun m => ?_
    rw [← List.append_assoc]
    apply (statement_mends around hmiddle fun _ => hsettled rfl).bind_nil
    intro errors
    apply reads_bind_accept_none
    · exact hsettled rfl
    exact reads_pure
  | _, _, _, .firstBranch conditionPhrase around htakes falsePhrase, n, next, hmiddle, hsettled => by
    rw [Session.unread_append] at hmiddle
    simp only [List.append_assoc, List.cons_append]
    refine statement_mends_of_branches conditionPhrase fun m => ?_
    rw [← List.append_assoc, ← List.append_assoc]
    refine (statement_mends around hmiddle (elseSettled_of_takesElse htakes)).bind_reads fun errors => ?_
    apply reads_bind_accept_some
    apply (statement_complete falsePhrase ?_).bind_nil
    · exact reads_pure
    · exact hsettled
  | _, _, _, .secondBranch conditionPhrase truePhrase htakes around, n, next, hmiddle, hsettled => by
    simp only [List.append_assoc, List.cons_append]
    refine statement_mends_of_branches conditionPhrase fun m => ?_
    apply (statement_complete truePhrase (elseSettled_of_takesElse htakes)).bind_mends
    apply mends_bind_accept_some
    rw [← List.append_assoc]
    apply (statement_mends around hmiddle hsettled).bind_nil
    exact fun _ => reads_pure
  | _, _, _, .body _ _ _ _, 0, _, _, _ | _, _, _, .block _, 0, _, _, _ => by
    rw [statement]
    exact mends_exhausted
  | _, _, _, .body initPhrase guardPhrase updatePhrase among, n + 1, next, hmiddle, _ => by
    rw [statement]
    simp only [List.append_assoc, List.cons_append]
    apply mends_bind_accept_other (by decide)
    apply mends_bind_accept_some
    show (iteration n _).Mends _ _ _ _
    cases n with
    | zero => rw [iteration]; exact mends_exhausted
    | succ n =>
      rw [iteration]
      apply mends_bind_expect
      apply (assignment_complete initPhrase (.inl rfl)).bind_mends
      apply mends_bind_expect
      apply (guard_complete guardPhrase (Session.endsOperand_unread_cons (by decide))).bind_mends
      apply mends_bind_expect
      apply (assignment_complete updatePhrase (.inr rfl)).bind_mends
      apply mends_bind_expect
      apply mends_bind_accept_some
      rw [← List.append_assoc, ← List.append_assoc]
      rw [Session.unread_append] at hmiddle
      apply (block_mends (statements_mends among rfl hmiddle)).bind_nil
      exact fun _ => reads_pure
  | _, _, _, .block among, n + 1, next, hmiddle, _ => by
    rw [statement]
    simp only [List.append_assoc, List.cons_append]
    apply mends_bind_accept_other (by decide)
    apply mends_bind_accept_other (by decide)
    apply mends_bind_accept_some
    rw [← List.append_assoc, ← List.append_assoc]
    rw [Session.unread_append] at hmiddle
    exact block_mends (statements_mends among rfl hmiddle)

theorem statements_mends : ∀ {before behind tree},
    Among Location.Touches (.block brace held) before behind tree →
    ∀ {loc trees}, tree = .block loc trees → ∀ {close} {next : Session},
      MendsAt middle (Session.unread (next.unread [⟨.mark .closeBrace, close⟩]) behind) held Reported →
      MendsAt (before ++ middle ++ behind) (next.unread [⟨.mark .closeBrace, close⟩]) trees Reported
  | _, _, _, .all, _, _, htree, _, _, hmiddle => by
    cases htree
    rwa [List.nil_append, List.append_nil]
  | _, _, _, @Among.member _ _ early _ before behind _ late _ _ earlyPhrase around latePhrase, _, _, htree, close, next,
    hmiddle => by
    cases htree
    intro n
    rw [Session.unread_append] at hmiddle
    -- The early statements, then the one with the block, then the late ones.
    rw [show early ++ before ++ middle ++ (behind ++ late) = early ++ ((before ++ (middle ++ behind)) ++ late) by simp]
    refine statements_mends_behind ?_ (fun m => ?_) earlyPhrase
    · rw [List.append_assoc]
      exact (around.starts _).not_else
    · refine statements_mends_first (around.starts _) (fun m => ?_) fun m errors => ?_
      · rw [← List.append_assoc]
        exact statement_mends around hmiddle (elseSettled_block latePhrase)
      · rw [Session.reporting_unread]
        exact statements_complete latePhrase

end

variable {content before behind rest more span : List Lexeme} {close : Location} {tree : Tree}

/-! ## Programs -/

/-- What is repaired in the body of a specification is repaired in the specification. -/
theorem Heads.mends {rule body : Nat → Rule Tree} {header bodySpan : List Lexeme} {build : Tree → Tree}
    (h : Heads rule body header build)
    (hread : ∀ {n session Post}, (statement n).Succeeds session Post → (body n).Succeeds session Post)
    (hbody : Statement Location.Touches bodySpan tree) (hcontent : Statements Location.Touches content held)
    (hspan : header ++ bodySpan = before ++ ⟨.mark .openBrace, brace⟩ :: rest)
    (hrest : rest ++ more = content ++ ⟨.mark .closeBrace, close⟩ :: behind) :
    ∃ after, behind = after ++ more ∧ tree.Contains (.block brace held) ∧
      ∀ {middle Reported n next}, MendsAt middle (next.unread (⟨.mark .closeBrace, close⟩ :: after)) held Reported →
        (∀ lexeme ∈ next.rest.head?, lexeme.terminal ≠ .keyword .else_) →
        (rule n).Mends (before ++ braced brace close middle ++ after) next (build tree) Reported := by
  obtain ⟨inside, rfl, hinside⟩ := h.unbraced.eq_append hspan
  obtain ⟨after, rfl, around⟩ := hbody.around hcontent hinside hrest
  refine ⟨after, rfl, around.contains, fun {middle Reported n next} hmiddle hnext => ?_⟩
  have hread' : (statement n).Mends _ next tree Reported := statement_mends around hmiddle fun _ => hnext
  have hstatement : (statement n).Mends (inside ++ braced brace close middle ++ after) next tree Reported := by
    simpa [braced] using hread'
  have hrule :
      (rule n).Mends (header ++ (inside ++ braced brace close middle ++ after)) next (build tree) Reported := by
    unfold Mends
    rw [Session.unread_append]
    exact (h.succeeds (hread hstatement)).mono fun ⟨inner, hinner, htree⟩ =>
      ⟨htree.trans (congrArg build hinner.1), hinner.2⟩
  simpa using hrule

theorem joinSpec_mends (h : JoinSpec Location.Touches span tree) (hcontent : Statements Location.Touches content held)
    (hspan : span = before ++ ⟨.mark .openBrace, brace⟩ :: rest)
    (hrest : rest ++ more = content ++ ⟨.mark .closeBrace, close⟩ :: behind) :
    ∃ after, behind = after ++ more ∧ tree.Contains (.block brace held) ∧
      ∀ {middle Reported n next}, MendsAt middle (next.unread (⟨.mark .closeBrace, close⟩ :: after)) held Reported →
        (∀ lexeme ∈ next.rest.head?, lexeme.terminal ≠ .keyword .else_) →
        (joinSpec n).Mends (before ++ braced brace close middle ++ after) next tree Reported := by
  obtain ⟨loc, left, right, returned, locals, body, rfl⟩ := h.eq_joinSpec
  obtain ⟨header, bodySpan, rfl, bodyPhrase, hheads⟩ := joinSpec_heads h
  obtain ⟨after, rfl, hcontains, hmends⟩ := hheads.mends joinBody_of_statement bodyPhrase hcontent hspan hrest
  exact ⟨after, rfl, hcontains.of_child (by simp [Tree.children]), hmends⟩

theorem sequentialSpec_mends (h : SequentialSpec Location.Touches span tree)
    (hcontent : Statements Location.Touches content held) (hspan : span = before ++ ⟨.mark .openBrace, brace⟩ :: rest)
    (hrest : rest ++ more = content ++ ⟨.mark .closeBrace, close⟩ :: behind) :
    ∃ after, behind = after ++ more ∧ tree.Contains (.block brace held) ∧
      ∀ {middle Reported n next}, MendsAt middle (next.unread (⟨.mark .closeBrace, close⟩ :: after)) held Reported →
        (∀ lexeme ∈ next.rest.head?, lexeme.terminal ≠ .keyword .else_) →
        (sequentialSpec n).Mends (before ++ braced brace close middle ++ after) next tree Reported := by
  obtain ⟨loc, args, returned, locals, body, rfl⟩ := h.eq_sequentialSpec
  obtain ⟨header, bodySpan, rfl, bodyPhrase, hheads⟩ := sequentialSpec_heads h
  obtain ⟨after, rfl, hcontains, hmends⟩ := hheads.mends id bodyPhrase hcontent hspan hrest
  exact ⟨after, rfl, hcontains.of_child (by simp [Tree.children]), hmends⟩

theorem programBehind_mends {n : Nat} {loc : Location} {join : Tree} {next : Session}
    (h : (sequentialSpec n).Mends span next tree Reported) (hend : next.rest = []) :
    (programBehind n loc join).Mends span next (.program loc join tree) Reported := by
  apply h.bind_nil
  intro errors
  apply reads_bind_look
  simp only [Session.atEnd, Session.unread_nil, Session.rest_reporting, hend, List.isEmpty_nil, if_true]
  exact reads_pure

/-- What is repaired in a block of a program is repaired in the program. -/
theorem program_mends (h : Program Location.Touches (before ++ braced brace close content ++ behind) tree)
    (hcontent : Statements Location.Touches content held) :
    tree.Contains (.block brace held) ∧ ∀ {middle Reported n next}, next.rest = [] →
      MendsAt middle (next.unread (⟨.mark .closeBrace, close⟩ :: behind)) held Reported →
      (program n).Mends (before ++ braced brace close middle ++ behind) next tree Reported := by
  generalize hspan : before ++ braced brace close content ++ behind = span at h
  cases h with
  | @program join sequential joinTree sequentialTree joinPhrase sequentialPhrase =>
    have hfound : join ++ sequential =
        before ++ ⟨.mark .openBrace, brace⟩ :: (content ++ ⟨.mark .closeBrace, close⟩ :: behind) := by
      simpa [braced] using hspan.symm
    obtain ⟨rest, hjoin, hrest⟩ | ⟨inside, rfl, hsequential⟩ := append_eq_append_cons hfound
    · obtain ⟨after, rfl, hcontains, hmends⟩ := joinSpec_mends joinPhrase hcontent hjoin hrest.symm
      refine ⟨hcontains.of_child (by simp [Tree.children]), fun {middle Reported n next} hend hmiddle => ?_⟩
      have hloc : (next.unread (join ++ [])).next.loc = joinTree.loc := loc_next_unread_joinSpec joinPhrase
      have hsame :
          (next.unread (before ++ braced brace close middle ++ (after ++ sequential))).next.loc = joinTree.loc := by
        rw [← hloc, hjoin]
        cases before <;> rfl
      apply mends_bind_look
      rw [hsame, ← List.append_assoc]
      rw [← List.cons_append, Session.unread_append] at hmiddle
      apply (hmends hmiddle (not_else_of_sequentialSpec sequentialPhrase)).attempt.bind_reads
      exact fun errors => programBehind_complete sequentialPhrase hend
    · obtain ⟨after, hafter, hcontains, hmends⟩ := sequentialSpec_mends sequentialPhrase hcontent hsequential
        (List.append_nil _)
      rw [List.append_nil] at hafter
      subst hafter
      refine ⟨hcontains.of_child (by simp [Tree.children]), fun {middle Reported n next} hend hmiddle => ?_⟩
      have hnext : ∀ lexeme ∈ (next.unread (inside ++ braced brace close middle ++ behind)).rest.head?,
          lexeme.terminal ≠ .keyword .else_ := by
        have hnotElse := @not_else_of_sequentialSpec _ _ next sequentialPhrase
        rw [hsequential] at hnotElse
        cases inside <;> exact hnotElse
      apply mends_bind_look
      rw [show join ++ inside ++ braced brace close middle ++ behind =
        join ++ (inside ++ braced brace close middle ++ behind) by simp, loc_next_unread_joinSpec joinPhrase]
      apply (joinSpec_complete joinPhrase hnext).attempt.bind_mends
      exact programBehind_mends (hmends hmiddle (by simp [hend])) hend

end

end Grammar

namespace Reading

open Grammar

variable {before content middle behind : List Lexeme} {held : List Tree} {brace close stop : Location} {tree : Tree}
  {Reported : List SyntaxError → Prop}

/-- What is repaired in a block leaves the reading of the program as it is without what is repaired, but for what is
    reported. -/
theorem ofTokens_mended_at
    (h : ofTokens ((before ++ braced brace close content ++ behind).map .lexeme ++ [.endOfInput stop]) = .ok ⟨tree, []⟩)
    (hcontent : Phrase.Statements Location.Touches content held)
    (hmiddle : MendsAt middle ⟨⟨.mark .closeBrace, close⟩ :: behind, stop, []⟩ held Reported) :
    ∃ errors, Reported errors ∧
      ofTokens ((before ++ braced brace close middle ++ behind).map .lexeme ++ [.endOfInput stop]) =
        .ok ⟨tree, errors.map .syntactic⟩ ∧
      ∃ visit ∈ tree.visits, visit.node = .block brace held := by
  unfold ofTokens at *
  rw [Session.ofTokens_lexemes, Session.finish_eq_ok_nil_iff rfl] at h
  obtain ⟨hcontains, hmends⟩ := program_mends h hcontent
  let session : Session := ⟨before ++ braced brace close middle ++ behind, stop, []⟩
  have hplace : Session.unread ⟨[], stop, []⟩ (⟨.mark .closeBrace, close⟩ :: behind) =
      ⟨⟨.mark .closeBrace, close⟩ :: behind, stop, []⟩ := by
    simp [Session.unread]
  have hrun : (Grammar.program (budget session)).Mends session.rest ⟨[], stop, []⟩ tree Reported :=
    hmends rfl (hplace ▸ hmiddle)
  have hsession : Session.unread ⟨[], stop, []⟩ session.rest = session := by simp [Session.unread, session]
  rw [Rule.Mends, hsession] at hrun
  obtain ⟨found, last, hdone, rfl, errors, hreported, rfl⟩ := hrun.exists_done (program_ne_exhausted session)
  rw [Session.ofTokens_lexemes]
  exact ⟨errors, hreported, Session.finish_of_done hdone, hcontains []⟩

/-- The same of what is repaired in front of whatever follows. -/
theorem ofTokens_mended
    (h : ofTokens ((before ++ braced brace close content ++ behind).map .lexeme ++ [.endOfInput stop]) = .ok ⟨tree, []⟩)
    (hcontent : Phrase.Statements Location.Touches content held) (hmiddle : MendsBlock middle held Reported) :
    ∃ errors, Reported errors ∧
      ofTokens ((before ++ braced brace close middle ++ behind).map .lexeme ++ [.endOfInput stop]) =
        .ok ⟨tree, errors.map .syntactic⟩ ∧
      ∃ visit ∈ tree.visits, visit.node = .block brace held :=
  ofTokens_mended_at h hcontent fun n => hmiddle n ⟨behind, stop, []⟩ close [] rfl

end Reading

end RoutineSpec
