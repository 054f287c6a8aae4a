import RoutineSpec.Proofs.Mending
import RoutineSpec.Proofs.Nesting
import RoutineSpec.Proofs.Viable

/-! # A malformed assignment

Where lexemes that begin like an assignment are none, reading complains about one of them or about the semicolon
behind them, and goes on behind that semicolon. Nothing of a malformed assignment gets past its semicolon, because no
part of an assignment has one; and something of it is read, so that it is not taken for a stray lexeme and skipped bit
by bit.
-/

namespace RoutineSpec

theorem Terminal.startsCompound_of_startsOperand {terminal : Terminal} (h : terminal.startsOperand = true) :
    Recovery.startsCompound terminal = false := by
  unfold startsOperand at h
  split at h
  case h_6 => cases h
  all_goals rfl

namespace Recovery

/-- Where the scan over a malformed assignment stops. -/
def assignmentEnds : List Terminal :=
  [.mark .semicolon, .mark .closeBrace, .keyword .sequential]

end Recovery

/-- Lexemes that begin like an assignment but are none. They go up to the first end of an assignment. -/
structure Phrase.MalformedAssignment (junk : List Lexeme) : Prop where
  starts : ∃ first others, junk = first :: others ∧ first.terminal.startsOperand = true
  unended : ∀ lexeme ∈ junk, lexeme.terminal ∉ Recovery.assignmentEnds
  malformed : ∀ tree, ¬ Phrase.Assignment Location.Touches junk tree

theorem Phrase.MalformedAssignment.not_semicolon {junk : List Lexeme} (h : MalformedAssignment junk) :
    ∀ lexeme ∈ junk, lexeme.terminal ≠ .mark .semicolon := by
  intro lexeme hmem hsemicolon
  exact h.unended lexeme hmem (by simp [hsemicolon, Recovery.assignmentEnds])

theorem Phrase.MalformedAssignment.startsStatement {junk : List Lexeme} (h : MalformedAssignment junk) :
    StartsStatement junk := by
  obtain ⟨first, others, rfl, hstart⟩ := h.starts
  exact ⟨first, others, rfl, by simp [Terminal.startsStatement, hstart]⟩

/-- However the rule ends, it has read the first lexeme. -/
structure Rule.Takes {α : Type} (rule : Rule α) (first : Lexeme) : Prop where
  done : ∀ {session : Session} {value next}, rule.run (session.unread [first]) = .done value next →
    session.AdvancesTo next
  failed : ∀ {session : Session} {error next}, rule.run (session.unread [first]) = .failed error next →
    session.AdvancesTo next

namespace Rule

variable {α β : Type} {rule : Rule α} {follow : α → Rule β} {first : Lexeme}

theorem Takes.bind (h : rule.Takes first) (hfollow : ∀ value, (follow value).Advances) :
    (rule >>= follow).Takes first where
  done hdone := by
    obtain ⟨value, mid, hrule, hrest⟩ := done_of_bind hdone
    exact (h.done hrule).trans ((hfollow value).done hrest)
  failed hfailed := by
    obtain hrule | ⟨value, mid, hrule, hrest⟩ := failed_of_bind hfailed
    · exact h.failed hrule
    · exact (h.done hrule).trans ((hfollow value).failed hrest)

theorem takes_exhausted : (exhausted : Rule α).Takes first where
  done h := by cases h
  failed h := by cases h

theorem takes_bind_look {γ : Type} {view : Session → γ} {follow : γ → Rule β}
    (h : ∀ value, (follow value).Takes first) : (look view >>= follow).Takes first where
  done hdone := (h _).done hdone
  failed hfailed := (h _).failed hfailed

theorem takes_bind_take? {γ : Type} {select : Terminal → Option γ} {follow : Option (γ × Location) → Rule β}
    (hnone : select first.terminal = none → (follow none).Takes first)
    (hsome : ∀ {found}, select first.terminal = some found → (follow (some (found, first.loc))).Advances) :
    (take? select >>= follow).Takes first := by
  have hrun : ∀ session : Session, (take? select >>= follow).run (session.unread [first]) =
      match select first.terminal with
      | none => (follow none).run (session.unread [first])
      | some found => (follow (some (found, first.loc))).run session := by
    intro session
    rw [run_bind, run_take?]
    cases hselect : select first.terminal <;> simp [Session.take?, Session.unread, hselect]
  cases hselect : select first.terminal with
  | none =>
    simp only [hselect] at hrun
    exact ⟨fun h => (hnone hselect).done (hrun _ ▸ h), fun h => (hnone hselect).failed (hrun _ ▸ h)⟩
  | some found =>
    simp only [hselect] at hrun
    exact ⟨fun h => (hsome hselect).done (hrun _ ▸ h), fun h => (hsome hselect).failed (hrun _ ▸ h)⟩

end Rule

namespace Grammar

open Rule Phrase

variable {first : Lexeme}

theorem primary_takes (hstart : first.terminal.startsOperand = true) (n : Nat) : (primary n).Takes first := by
  cases n with
  | zero => exact takes_exhausted
  | succ n =>
    rw [primary]
    refine takes_bind_take? (fun hleaf => ?_) fun _ => advances_pure _
    rw [expect_bind, accept_bind]
    refine takes_bind_take? (fun hparen => ?_) fun _ =>
      (expression_advances n).bind fun _ => (advances_expect _ _).bind fun _ => advances_pure _
    -- What neither is a word nor opens a group starts no operand.
    unfold Terminal.startsOperand at hstart
    split at hstart
    case h_6 => cases hstart
    all_goals simp_all [Terminal.leaf?, Terminal.same?]

theorem suffixed_takes (hstart : first.terminal.startsOperand = true) (n : Nat) : (suffixed n).Takes first := by
  cases n with
  | zero => exact takes_exhausted
  | succ n =>
    rw [suffixed]
    exact (primary_takes hstart n).bind fun _ => suffixes_advances n _

/-- An assignment that is no increment. -/
def equation (n : Nat) : Rule Tree := do
  let loc ← here
  let target ← suffixed n
  expect (.mark .equal) .equalInAssignment
  let value ← expression n
  return .assignment loc target value

theorem run_assignment (n : Nat) (session : Session) : (assignment n).run session =
    match increment? session.rest with
    | none => (equation n).run session
    | some tree => .done tree { session with rest := session.rest.drop 3 } := by
  rw [assignment, run_bind, run_increment]
  cases increment? session.rest <;> rfl

theorem assignment_takes (hstart : first.terminal.startsOperand = true) (n : Nat) : (assignment n).Takes first := by
  have hequation : (equation n).Takes first :=
    takes_bind_look fun _ => (suffixed_takes hstart n).bind fun _ => (advances_expect _ _).bind fun _ =>
      (expression_advances n).bind fun _ => advances_pure _
  constructor
  case done =>
    intro session value next hdone
    rw [run_assignment] at hdone
    cases hfound : increment? (session.unread [first]).rest with
    | none =>
      rw [hfound] at hdone
      exact hequation.done hdone
    | some tree =>
      rw [hfound] at hdone
      cases hdone
      exact .skip (List.drop_suffix 2 session.rest)
  case failed =>
    intro session error next hfailed
    rw [run_assignment] at hfailed
    cases hfound : increment? (session.unread [first]).rest with
    | none =>
      rw [hfound] at hfailed
      exact hequation.failed hfailed
    | some tree =>
      rw [hfound] at hfailed
      cases hfailed

/-! ## What comes of the assignment -/

theorem assignmentStatement_viable (n : Nat) : (assignmentStatement n).Viable Unbroken :=
  (assignment_viable n).bind assignment_sound (fun phrase => ⟨[], by simpa using phrase.unbroken⟩) fun phrase =>
    viable_bind_expect ⟨[], by simpa using phrase.unbroken⟩ fun _ => viable_pure

theorem assignmentStatement_takes {first : Lexeme} (hstart : first.terminal.startsOperand = true) (n : Nat) :
    (assignmentStatement n).Takes first :=
  (assignment_takes hstart n).bind fun _ => (advances_expect _ _).bind fun _ => advances_pure _

variable {n : Nat} {first : Lexeme} {semicolon : Location} {next : Session}

/-- What is read in front of a semicolon as an assignment is all that stands in front of it. -/
theorem assignment_of_done {junk : List Lexeme} {tree : Tree} {last : Session}
    (hends : ∀ lexeme ∈ junk, lexeme.terminal ≠ .mark .semicolon)
    (h : (assignmentStatement n).run (next.unread (junk ++ [⟨.mark .semicolon, semicolon⟩])) = .done tree last) :
    ∃ tree, Assignment Location.Touches junk tree := by
  obtain ⟨found, mid, hassignment, hrest⟩ := done_of_bind h
  obtain ⟨span, hsession, phrase⟩ := assignment_sound hassignment
  obtain ⟨loc, behind, rfl, -⟩ := done_of_expect hrest
  have hlexemes : junk ++ ⟨.mark .semicolon, semicolon⟩ :: next.rest =
      span ++ ⟨.mark .semicolon, loc⟩ :: behind.rest := by
    simpa using congrArg Session.rest hsession
  obtain ⟨more, hjunk, -⟩ | ⟨more, rfl, hmore⟩ := append_eq_append_cons hlexemes
  · exact absurd rfl (hends ⟨.mark .semicolon, loc⟩ (by simp [hjunk]))
  · cases more with
    | nil => exact ⟨found, by simpa using phrase⟩
    | cons second more =>
      obtain ⟨rfl, -⟩ := List.cons.inj hmore
      exact absurd rfl (phrase.unbroken.not_semicolon ⟨.mark .semicolon, semicolon⟩ (by simp))

/-- Where an assignment in front of a semicolon is not done, it has failed at what stands in front of the semicolon,
    or at the semicolon. -/
theorem exists_left_of_failed {junk : List Lexeme} {error : SyntaxError} {last : Session}
    (h : (assignmentStatement n).run (next.unread (junk ++ [⟨.mark .semicolon, semicolon⟩])) = .failed error last) :
    ∃ span left, junk = span ++ left ∧ last = next.unread (left ++ [⟨.mark .semicolon, semicolon⟩]) ∧
      error.loc = last.next.loc := by
  obtain ⟨span, hsession, hloc, ⟨more, hunbroken⟩⟩ := (assignmentStatement_viable n).failed h
  have hlexemes : span ++ last.rest = junk ++ ⟨.mark .semicolon, semicolon⟩ :: next.rest := by
    simpa using (congrArg Session.rest hsession).symm
  obtain ⟨left, hjunk, hrest⟩ := append_eq_append_cons_of_not_mem hlexemes fun hmem =>
    hunbroken.not_semicolon _ (List.mem_append_left _ hmem) rfl
  refine ⟨span, left, hjunk, ?_, hloc⟩
  obtain ⟨rest, stop, diagnostics⟩ := last
  simp_all [Session.unread]

end Grammar

namespace Recovery

theorem resume_eq_skipAssignment {first : Lexeme} {others rest : List Lexeme}
    (hfirst : startsCompound first.terminal = false) (hrest : rest.length ≤ others.length) :
    resume (first :: others) rest = skipAssignment rest := by
  have hshorter : rest.length ≠ (first :: others).length := by
    rw [List.length_cons]
    omega
  simp only [resume, hfirst, hshorter, Bool.false_eq_true, if_false]

theorem skipAssignment_append {left rest : List Lexeme} {semicolon : Location}
    (h : ∀ lexeme ∈ left, lexeme.terminal ∉ assignmentEnds) :
    skipAssignment (left ++ ⟨.mark .semicolon, semicolon⟩ :: rest) = rest := by
  induction left with
  | nil => rfl
  | cons lexeme left ih =>
    obtain ⟨hlexeme, hleft⟩ := List.forall_mem_cons.1 h
    rw [List.cons_append, skipAssignment]
    split
    · next hsemicolon => simp [assignmentEnds, hsemicolon] at hlexeme
    · next hbrace => simp [assignmentEnds, hbrace] at hlexeme
    · next hword => simp [assignmentEnds, hword] at hlexeme
    · exact ih hleft

end Recovery

/-- The errors are one error, at the place of one of the lexemes. -/
def ReportsOneOf (span : List Lexeme) (errors : List SyntaxError) : Prop :=
  ∃ error, errors = [error] ∧ ∃ lexeme ∈ span, error.loc = lexeme.loc

namespace Grammar

open Rule Phrase

variable {junk first second : List Lexeme} {trees₁ trees₂ : List Tree} {semicolon : Location} {next : Session}

/-- A malformed assignment is skipped with its semicolon. -/
theorem statementIfSound_of_malformed {n : Nat} (h : MalformedAssignment junk) (hclean : next.diagnostics = []) :
    (statementIfSound n).Mends (junk ++ [⟨.mark .semicolon, semicolon⟩]) next []
      (ReportsOneOf (junk ++ [⟨.mark .semicolon, semicolon⟩])) := by
  obtain ⟨lexeme, others, rfl, hstart⟩ := h.starts
  have hcompound := Terminal.startsCompound_of_startsOperand hstart
  match n with
  | 0 | 1 => exact mends_exhausted
  | n + 2 =>
    rw [statementIfSound_eq, Mends, Succeeds, run_look, run_recovering, run_statement rfl hcompound]
    cases hrun : (assignmentStatement n).run (next.unread (lexeme :: others ++ [⟨.mark .semicolon, semicolon⟩])) with
    | exhausted => trivial
    | done tree last =>
      obtain ⟨tree, phrase⟩ := assignment_of_done h.not_semicolon hrun
      exact absurd phrase (h.malformed tree)
    | failed error last =>
      have htakes := hrun
      rw [List.cons_append, Session.unread_cons] at htakes
      have hshorter := ((assignmentStatement_takes hstart n).failed htakes).rest.length_le
      obtain ⟨span, left, hjunk, rfl, hloc⟩ := exists_left_of_failed hrun
      have hleft : ∀ lexeme ∈ left, lexeme.terminal ∉ Recovery.assignmentEnds :=
        fun lexeme hmem => h.unended lexeme (hjunk ▸ List.mem_append_right _ hmem)
      have hresume : Recovery.resume (next.unread (lexeme :: others ++ [⟨.mark .semicolon, semicolon⟩])).rest
          (next.unread (left ++ [⟨.mark .semicolon, semicolon⟩])).rest = next.rest := by
        refine (Recovery.resume_eq_skipAssignment hcompound hshorter).trans ?_
        rw [Session.rest_unread, List.append_assoc]
        exact Recovery.skipAssignment_append hleft
      refine ⟨rfl, [error], ⟨error, rfl, ?_⟩, ?_⟩
      · cases left with
        | nil => exact ⟨_, List.mem_append_right _ List.mem_cons_self, hloc⟩
        | cons first left => exact ⟨first, by simp [hjunk], hloc⟩
      · rw [rest_report, hresume, Session.report_of_clean (by exact hclean)]
        rfl

/-- A malformed assignment between statements is got over. -/
theorem mendsBlock_of_malformed (hfirst : Statements Location.Touches first trees₁)
    (hsecond : Statements Location.Touches second trees₂) (h : MalformedAssignment junk) :
    MendsBlock (first ++ (junk ++ ⟨.mark .semicolon, semicolon⟩ :: second)) (trees₁ ++ trees₂)
      (ReportsOneOf (junk ++ [⟨.mark .semicolon, semicolon⟩])) := by
  intro n next close more hclean
  refine statements_mends_behind ?_ (fun m => ?_) hfirst
  · rw [List.append_assoc]
    exact h.startsStatement.not_else
  · cases m with
    | zero => rw [statements]; exact mends_exhausted
    | succ m =>
      rw [statements]
      apply mends_bind_look
      rw [Session.unread_append, atBlockEnd_unread h.startsStatement, List.append_cons]
      apply (statementIfSound_of_malformed h ?_).bind_reads
      · intro errors
        rw [Session.reporting_unread]
        apply (statements_complete hsecond).bind_nil
        exact reads_pure
      · exact hclean

end Grammar

namespace Reading

open Phrase Grammar

/-- A malformed assignment is dropped alone. Where a program is read without diagnostics and has the statements of
    `first` and `second` in a block, lexemes between them that begin like an assignment but are none, and a semicolon
    behind these, change nothing of the program. They are reported once, at one of them. -/
theorem ofTokens_of_malformed_assignment {before first junk second behind : List Lexeme} {trees₁ trees₂ : List Tree}
    {brace semicolon close stop : Location} {tree : Tree} (hfirst : Statements Location.Touches first trees₁)
    (hsecond : Statements Location.Touches second trees₂)
    (hclean : ofTokens ((before ++ braced brace close (first ++ second) ++ behind).map .lexeme ++ [.endOfInput stop]) =
      .ok ⟨tree, []⟩)
    (hjunk : MalformedAssignment junk) :
    (∃ visit ∈ tree.visits, visit.node = .block brace (trees₁ ++ trees₂)) ∧
      ∃ error,
        ofTokens ((before ++ braced brace close (first ++ (junk ++ ⟨.mark .semicolon, semicolon⟩ :: second)) ++
            behind).map .lexeme ++ [.endOfInput stop]) = .ok ⟨tree, [.syntactic error]⟩ ∧
          ∃ lexeme ∈ junk ++ [⟨.mark .semicolon, semicolon⟩], error.loc = lexeme.loc := by
  have hmiddle := @mendsBlock_of_malformed junk first second trees₁ trees₂ semicolon hfirst hsecond hjunk
  obtain ⟨errors, ⟨error, rfl, hloc⟩, hread, hblock⟩ := ofTokens_mended hclean (hfirst.append hsecond) hmiddle
  exact ⟨hblock, error, hread, hloc⟩

/-- An increment whose signs stand apart is dropped behind a statement that would take an `else`. -/
theorem ofTokens_of_spread_increment :
    let before : List Lexeme := List.mapIdx (fun i terminal => ⟨terminal, ⟨1, i + 1⟩⟩)
      [.keyword .join, .mark .openParen, .mark .pipe, .mark .closeParen,
        .keyword .returns, .mark .openParen, .mark .closeParen, .keyword .locals, .mark .openParen, .mark .closeParen]
    let first : List Lexeme := List.mapIdx (fun i terminal => ⟨terminal, ⟨2, i + 1⟩⟩)
      [.keyword .if_, .mark .openParen, .keyword .true_, .mark .closeParen,
        .identifier "x", .mark .plus, .mark .plus, .mark .semicolon]
    let junk : List Lexeme := [⟨.identifier "x", ⟨3, 1⟩⟩, ⟨.mark .plus, ⟨3, 2⟩⟩, ⟨.mark .plus, ⟨3, 4⟩⟩]
    let second : List Lexeme := List.mapIdx (fun i terminal => ⟨terminal, ⟨4, i + 1⟩⟩)
      [.identifier "x", .mark .equal, .integer 2, .mark .semicolon]
    let behind : List Lexeme := List.mapIdx (fun i terminal => ⟨terminal, ⟨5, i + 2⟩⟩)
      [.keyword .sequential, .mark .openParen, .mark .closeParen,
        .keyword .returns, .mark .openParen, .mark .closeParen, .keyword .locals, .mark .openParen, .mark .closeParen,
        .mark .openBrace, .mark .closeBrace]
    let branch : Tree := .ifThen ⟨2, 1⟩ (.constant ⟨2, 3⟩ (.bool true)) (.increment ⟨2, 5⟩ "x" .add ⟨2, 6⟩)
    let equation : Tree := .assignment ⟨4, 1⟩ (.var ⟨4, 1⟩ "x" none none) (.constant ⟨4, 3⟩ (.int 2))
    let tree : Tree := .program ⟨1, 1⟩ (.joinSpec ⟨1, 1⟩ [] [] [] [] (.block ⟨1, 11⟩ [branch, equation]))
      (.sequentialSpec ⟨5, 2⟩ [] [] [] (.block ⟨5, 11⟩ []))
    (∃ visit ∈ tree.visits, visit.node = .block ⟨1, 11⟩ [branch, equation]) ∧
      ∃ error,
        ofTokens ((before ++ braced ⟨1, 11⟩ ⟨5, 1⟩ (first ++ (junk ++ ⟨.mark .semicolon, ⟨3, 5⟩⟩ :: second)) ++
            behind).map .lexeme ++ [.endOfInput ⟨5, 13⟩]) = .ok ⟨tree, [.syntactic error]⟩ ∧
          ∃ lexeme ∈ junk ++ [⟨.mark .semicolon, ⟨3, 5⟩⟩], error.loc = lexeme.loc := by
  intro before first junk second behind branch equation tree
  have hfirst : Statements Location.Touches (first ++ []) [branch] :=
    .more (.ifThen (Suffixed.expression (.primary .true_)) (.assignment (.increment (.inl rfl) (by decide)))) .none
  have hsecond : Statements Location.Touches (second ++ []) [equation] :=
    .more (.assignment (.equation (.primary .name) (Suffixed.expression (.primary .integer)))) .none
  have hclean : ofTokens ((before ++ braced ⟨1, 11⟩ ⟨5, 1⟩ (first ++ second) ++ behind).map .lexeme ++
      [.endOfInput ⟨5, 13⟩]) = .ok ⟨tree, []⟩ := rfl
  have hmalformed : ∀ tree, ¬ Assignment Location.Touches junk tree := by
    intro tree phrase
    generalize hjunk : junk = span at phrase
    cases phrase with
    | increment _ htouch =>
      simp only [junk, List.cons.injEq, Lexeme.mk.injEq] at hjunk
      obtain ⟨-, ⟨-, rfl⟩, ⟨-, rfl⟩, -⟩ := hjunk
      exact absurd htouch (by decide)
    | @equation _ _ _ _ _ equal =>
      have hmem : (⟨.mark .equal, equal⟩ : Lexeme) ∈ junk := by simp [hjunk]
      simp [junk] at hmem
  exact ofTokens_of_malformed_assignment hfirst hsecond hclean
    ⟨⟨_, _, rfl, rfl⟩, by decide, hmalformed⟩

end Reading

end RoutineSpec
