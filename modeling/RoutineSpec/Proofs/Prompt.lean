import RoutineSpec.Proofs.Viable

/-! # The first complaint

Reading complains as soon as it can: what stands in front of the first token that it complains about begins a
phrase. The lexemes that complete the phrase close what is open, and stand for what is missing.
-/

namespace RoutineSpec

/-- The diagnostics of a reading, with the error that ended it at the end. -/
def Outcome.complaints {α : Type} : Outcome α → List Diagnostic
  | .done _ next => next.diagnostics
  | .failed error next => next.diagnostics ++ [.syntactic error]
  | .exhausted => []

/-- What the session reads in front of the token at `loc` begins a whole. -/
def Session.BeginsUpTo (session : Session) (Whole : List Lexeme → Prop) (loc : Location) : Prop :=
  ∃ (span : List Lexeme) (next : Session), session = next.unread span ∧ next.next.loc = loc ∧ Begins Whole span

theorem Session.BeginsUpTo.unread {session : Session} {Whole : List Lexeme → Prop} {loc : Location}
    {span : List Lexeme} (h : session.BeginsUpTo (fun more => Whole (span ++ more)) loc) :
    (session.unread span).BeginsUpTo Whole loc := by
  obtain ⟨rest, next, rfl, hloc, ⟨more, hmore⟩⟩ := h
  exact ⟨span ++ rest, next, (unread_append _ _ _).symm, hloc, more, by simpa using hmore⟩

/-- The rule takes nothing back, and if it starts without diagnostics, it reads the beginning of a whole up to
    the place of its first complaint. -/
structure Rule.Prompt {α : Type} (rule : Rule α) (Whole : List Lexeme → Prop) : Prop extends rule.Advances where
  begins : ∀ {session first}, session.diagnostics = [] → (rule.run session).complaints.head? = some first →
    session.BeginsUpTo Whole first.loc

/-- Where the rule is done, there is a part, which is what it has read if nothing has been reported. -/
def Rule.Yields {α : Type} (rule : Rule α) (Part : List Lexeme → Prop) : Prop :=
  ∀ {session value next}, rule.run session = .done value next →
    ∃ span, Part span ∧ (next.diagnostics = [] → session = next.unread span)

namespace Rule

open Phrase

variable {α β : Type} {rule : Rule α} {follow : α → Rule β} {Item : List Lexeme → α → Prop}
  {Part Whole : List Lexeme → Prop} {terminal : Terminal} {what : Expectation}

theorem yields_of_reads (h : ∀ {session value next}, rule.run session = .done value next →
    ∃ span, session = next.unread span ∧ Item span value) : rule.Yields (Of Item) := by
  intro session value next hdone
  obtain ⟨span, hsession, hspan⟩ := h hdone
  exact ⟨span, ⟨hspan⟩, fun _ => hsession⟩

theorem Advances.keeps_diagnostics (h : rule.Advances) {session : Session}
    (hrun : rule.run session ≠ .exhausted) : session.diagnostics <+: (rule.run session).complaints := by
  cases hrule : rule.run session with
  | done value next => exact (h.done hrule).diagnostics
  | failed error next => exact (h.failed hrule).diagnostics.trans (List.prefix_append _ _)
  | exhausted => exact absurd hrule hrun

theorem Prompt.mono (h : rule.Prompt Part)
    (hpart : ∀ {span}, Part span → Begins Whole span) : rule.Prompt Whole where
  toAdvances := h.toAdvances
  begins hclean hfirst := by
    obtain ⟨span, next, rfl, hloc, ⟨more, hmore⟩⟩ := h.begins hclean hfirst
    obtain ⟨rest, hrest⟩ := hpart hmore
    exact ⟨span, next, rfl, hloc, more ++ rest, by simpa using hrest⟩

/-- A rule that reports nothing complains where it fails. -/
theorem Viable.prompt (h : rule.Viable Whole) (hadvances : rule.Advances)
    (hreads : ∀ {session value next}, rule.run session = .done value next →
      ∃ span, session = next.unread span ∧ Item span value) : rule.Prompt Whole where
  toAdvances := hadvances
  begins {session first} hclean hfirst := by
    cases hrule : rule.run session with
    | done value next =>
      obtain ⟨span, rfl, -⟩ := hreads hrule
      simp_all [Outcome.complaints]
    | failed error next =>
      obtain ⟨span, rfl, hloc, hspan⟩ := h.failed hrule
      have : first = .syntactic error := by simp_all [Outcome.complaints]
      exact ⟨span, next, rfl, this ▸ hloc.symm, hspan⟩
    | exhausted => simp [hrule, Outcome.complaints] at hfirst

/-- The first complaint is one of the first rule, unless that rule has been done without any. -/
theorem Prompt.bind (h : rule.Prompt Part) (hyields : rule.Yields Part)
    (hpart : ∀ {span}, Part span → Begins Whole span)
    (hfollow : ∀ {span}, Part span → ∀ value, (follow value).Prompt fun more => Whole (span ++ more)) :
    (rule >>= follow).Prompt Whole where
  done hdone := by
    obtain ⟨value, mid, hrule, hrest⟩ := done_of_bind hdone
    obtain ⟨span, hspan, -⟩ := hyields hrule
    exact (h.done hrule).trans ((hfollow hspan value).done hrest)
  failed hfailed := by
    obtain hrule | ⟨value, mid, hrule, hrest⟩ := failed_of_bind hfailed
    · exact h.failed hrule
    · obtain ⟨span, hspan, -⟩ := hyields hrule
      exact (h.done hrule).trans ((hfollow hspan value).failed hrest)
  begins {session first} hclean hfirst := by
    have early : (rule.run session).complaints.head? = some first → session.BeginsUpTo Whole first.loc :=
      (h.mono hpart).begins hclean
    rw [run_bind] at hfirst
    cases hrule : rule.run session with
    | failed error mid => simp_all [Outcome.complaints]
    | exhausted => simp_all [Outcome.complaints]
    | done value mid =>
      rw [hrule] at hfirst early
      obtain ⟨span, hspan, hreads⟩ := hyields hrule
      cases hmid : mid.diagnostics with
      | nil =>
        rw [hreads hmid]
        exact ((hfollow hspan value).begins hmid hfirst).unread
      | cons report others =>
        have hrun : ((follow value).run mid) ≠ .exhausted := by
          intro hrun
          simp [hrun, Outcome.complaints] at hfirst
        obtain ⟨more, hmore⟩ := (hfollow hspan value).keeps_diagnostics hrun
        have : report = first := by simpa [← hmore, hmid] using hfirst
        exact early (by simp [Outcome.complaints, hmid, this])

theorem prompt_exhausted : (exhausted : Rule α).Prompt Whole where
  toAdvances := advances_exhausted
  begins _ hfirst := by cases hfirst

theorem prompt_pure {value : α} : (pure value : Rule α).Prompt Whole where
  toAdvances := advances_pure value
  begins hclean hfirst := by simp [Outcome.complaints, hclean] at hfirst

theorem prompt_failHere (h : Begins Whole []) : (failHere what : Rule α).Prompt Whole where
  toAdvances := advances_failHere what
  begins {session first} hclean hfirst := by
    simp only [failHere, Outcome.complaints, hclean] at hfirst
    cases hfirst
    exact ⟨[], session, rfl, rfl, h⟩

theorem prompt_bind_look {γ : Type} {view : Session → γ} {follow : γ → Rule β}
    (h : ∀ value, (follow value).Prompt Whole) : (look view >>= follow).Prompt Whole where
  toAdvances := (advances_look view).bind fun value => (h value).toAdvances
  begins hclean hfirst := (h _).begins hclean hfirst

theorem prompt_bind_accept {follow : Option Location → Rule β} (hnone : (follow none).Prompt Whole)
    (hsome : ∀ loc, (follow (some loc)).Prompt fun more => Whole (⟨terminal, loc⟩ :: more)) :
    (accept terminal >>= follow).Prompt Whole where
  toAdvances := by
    refine (advances_accept terminal).bind fun found => ?_
    cases found with
    | none => exact hnone.toAdvances
    | some loc => exact (hsome loc).toAdvances
  begins {session first} hclean hfirst := by
    rw [run_bind, run_accept] at hfirst
    cases htake : session.take? terminal.same? with
    | none =>
      rw [htake] at hfirst
      exact hnone.begins hclean hfirst
    | some taken =>
      obtain ⟨⟨found, loc⟩, mid⟩ := taken
      obtain ⟨other, hsame, rfl⟩ := Session.eq_unread_of_take? htake
      cases Terminal.same?_eq_some_iff.1 hsame
      rw [htake] at hfirst
      have behind : mid.BeginsUpTo (fun more => Whole ([⟨terminal, loc⟩] ++ more)) first.loc :=
        (hsome loc).begins hclean hfirst
      exact behind.unread

theorem prompt_bind_expect {follow : Unit → Rule β} (h : Begins Whole [])
    (hfollow : ∀ loc, (follow ()).Prompt fun more => Whole (⟨terminal, loc⟩ :: more)) :
    (expect terminal what >>= follow).Prompt Whole := by
  rw [expect_bind]
  exact prompt_bind_accept (prompt_failHere h) hfollow

/-- What stands in front of a terminal that has to follow begins a whole, whether the terminal follows or not. -/
theorem Prompt.bind_expect {follow : α → Unit → Rule β} (h : rule.Prompt Part) (hyields : rule.Yields Part)
    (hpart : ∀ {span}, Part span → Begins Whole span)
    (hfollow : ∀ {span}, Part span → ∀ value loc,
      (follow value ()).Prompt fun more => Whole (span ++ ⟨terminal, loc⟩ :: more)) :
    (rule >>= fun value => expect terminal what >>= follow value).Prompt Whole := by
  refine h.bind hyields hpart fun hspan value => prompt_bind_expect ?_ (hfollow hspan value)
  obtain ⟨more, hmore⟩ := hpart hspan
  exact ⟨more, hmore⟩

/-- A repair comes after the complaint. -/
theorem Prompt.begins_recovering {skip : List Lexeme → List Lexeme} {kept : α → β} {left : β}
    (h : rule.Prompt Whole) {session : Session} {first : Diagnostic} (hclean : session.diagnostics = [])
    (hfirst : ((recovering rule skip kept left).run session).complaints.head? = some first) :
    session.BeginsUpTo Whole first.loc := by
  refine h.begins hclean ?_
  rw [run_recovering] at hfirst
  cases hrule : rule.run session with
  | done value next => simpa [hrule, Outcome.complaints] using hfirst
  | exhausted => simp [hrule, Outcome.complaints] at hfirst
  | failed error next =>
    rw [hrule] at hfirst
    cases hnext : next.diagnostics with
    | nil => simpa [Outcome.complaints, hnext, Session.report, Session.justReportedAt, Session.record] using hfirst
    | cons report others =>
      obtain ⟨more, hmore⟩ := (Session.AdvancesTo.report next error).diagnostics
      simpa [Outcome.complaints, ← hmore, hnext] using hfirst

end Rule

namespace Grammar

open Rule Phrase

theorem expression_prompt (n : Nat) : (expression n).Prompt (Of Expression) :=
  (expression_viable n).prompt (expression_advances n) expression_sound

theorem assignment_prompt (n : Nat) : (assignment n).Prompt (Of (Assignment Location.Touches)) :=
  (assignment_viable n).prompt (assignment_advances n) assignment_sound

/-- Nothing is read of a guard that is complained about as a whole. -/
theorem guard_prompt (n : Nat) : (guard n).Prompt Guard where
  toAdvances := guard_advances n
  begins {session first} hclean hfirst := by
    have early : (binary n Precedence.ladder).Prompt Guard :=
      ((binary_viable n _).mono Operand.guard).prompt (binary_advances n _) binary_sound
    rw [run_guard] at hfirst
    cases hbinary : (binary n Precedence.ladder).run session with
    | failed error mid =>
      rw [hbinary] at hfirst
      exact early.begins hclean (by rw [hbinary]; exact hfirst)
    | exhausted => simp [hbinary, Outcome.complaints] at hfirst
    | done tree mid =>
      obtain ⟨span, rfl, -⟩ := binary_sound hbinary
      rw [hbinary] at hfirst
      by_cases hkind : tree.kind = .binary
      · simp_all [Outcome.complaints]
      · simp only [hkind, if_false, Outcome.complaints, Session.diagnostics_unread] at hfirst hclean
        rw [hclean] at hfirst
        cases hfirst
        exact ⟨[], mid.unread span, rfl, rfl, _, guard_filler⟩

theorem guard_yields {n : Nat} : (guard n).Yields Guard := by
  intro session tree next hdone
  obtain ⟨span, loc, op, left, right, rfl, rfl, phrase⟩ := guard_sound hdone
  exact ⟨span, .binary phrase, fun _ => rfl⟩

theorem statement_yields {n : Nat} : (statement n).Yields (Of (Statement Location.Touches)) := by
  intro session tree next hdone
  obtain ⟨span, hreads, phrase, -⟩ := statement_sound hdone
  exact ⟨span, ⟨phrase⟩, hreads.clean⟩

theorem statements_yields {n : Nat} : (statements n).Yields (Of (Statements Location.Touches)) := by
  intro session trees next hdone
  obtain ⟨span, hreads, phrase⟩ := statements_sound hdone
  exact ⟨span, ⟨phrase⟩, hreads.clean⟩

theorem block_yields {n : Nat} {loc : Location} : (block n loc).Yields (Braced Location.Touches) := by
  intro session tree next hdone
  obtain ⟨trees, span, close, rfl, hreads, phrase⟩ := block_sound hdone
  exact ⟨_, .statements phrase, hreads.clean⟩

theorem statementIfSound_yields {n : Nat} :
    (statementIfSound n).Yields (Of (Statements Location.Touches)) := by
  intro session trees next hdone
  obtain ⟨rfl, hreads⟩ | ⟨tree, span, rfl, hreads, phrase⟩ := statementIfSound_sound hdone
  · exact ⟨[], ⟨.none⟩, hreads.clean⟩
  · exact ⟨span, ⟨by simpa using Statements.more phrase .none⟩, hreads.clean⟩

mutual

theorem statement_prompt : ∀ n, (statement n).Prompt (Of (Statement Location.Touches))
  | 0 => prompt_exhausted
  | n + 1 => by
    rw [statement]
    refine prompt_bind_accept (prompt_bind_accept (prompt_bind_accept ?_ fun loc => ?_)
      fun loc => iteration_prompt n loc) fun loc => selection_prompt n loc
    · refine (assignment_prompt n).bind_expect (yields_of_reads assignment_sound) ?_ fun _ _ _ => prompt_pure
      exact fun ⟨phrase⟩ => ⟨[closer .semicolon], ⟨.assignment phrase⟩⟩
    · exact (block_prompt n loc).mono fun phrase => ⟨[], by simpa using phrase.block loc⟩

theorem selection_prompt : ∀ n loc,
    (selection n loc).Prompt fun more => Of (Statement Location.Touches) (⟨.keyword .if_, loc⟩ :: more)
  | 0, _ => prompt_exhausted
  | n + 1, loc => by
    rw [selection]
    refine prompt_bind_expect ?_ fun paren => ?_
    · exact ⟨[closer .openParen, filler, closer .closeParen, closer .openBrace, closer .closeBrace],
        ⟨.ifThen expression_filler statement_filler⟩⟩
    refine (expression_prompt n).bind_expect (yields_of_reads expression_sound) ?_
      fun ⟨conditionPhrase⟩ _ close => ?_
    · exact fun ⟨phrase⟩ => ⟨[closer .closeParen, closer .openBrace, closer .closeBrace],
        ⟨by simpa using Statement.ifThen phrase statement_filler⟩⟩
    refine (statement_prompt n).bind statement_yields ?_ fun ⟨truePhrase⟩ _ =>
      prompt_bind_accept prompt_pure fun other => ?_
    · exact fun ⟨phrase⟩ => ⟨[], ⟨by simpa using Statement.ifThen conditionPhrase phrase⟩⟩
    refine (statement_prompt n).bind statement_yields ?_ fun _ _ => prompt_pure
    exact fun ⟨phrase⟩ => ⟨[], by simpa using statement_of_else conditionPhrase truePhrase phrase⟩

theorem iteration_prompt : ∀ n loc,
    (iteration n loc).Prompt fun more => Of (Statement Location.Touches) (⟨.keyword .for_, loc⟩ :: more)
  | 0, _ => prompt_exhausted
  | n + 1, loc => by
    rw [iteration]
    refine prompt_bind_expect ?_ fun paren => ?_
    · exact ⟨closer .openParen :: filler :: closer .equal :: filler :: closer .semicolon :: filler ::
        closer BinaryOp.or.mark :: filler :: closer .semicolon :: filler :: closer .equal :: filler :: emptyBody,
        statement_of_for assignment_filler guard_filler assignment_filler braced_filler⟩
    refine (assignment_prompt n).bind_expect (yields_of_reads assignment_sound) ?_
      fun initPhrase _ first => ?_
    · exact fun phrase => ⟨closer .semicolon :: filler :: closer BinaryOp.or.mark :: filler ::
        closer .semicolon :: filler :: closer .equal :: filler :: emptyBody,
        by simpa using statement_of_for phrase guard_filler assignment_filler braced_filler⟩
    refine (guard_prompt n).bind_expect guard_yields ?_ fun guardPhrase _ second => ?_
    · exact fun phrase => ⟨closer .semicolon :: filler :: closer .equal :: filler :: emptyBody,
        by simpa using statement_of_for initPhrase phrase assignment_filler braced_filler⟩
    refine (assignment_prompt n).bind_expect (yields_of_reads assignment_sound) ?_
      fun updatePhrase _ close => ?_
    · exact fun phrase => ⟨emptyBody, by simpa using statement_of_for initPhrase guardPhrase phrase braced_filler⟩
    refine prompt_bind_accept (prompt_failHere ?_) fun brace => ?_
    · exact ⟨[closer .openBrace, closer .closeBrace],
        by simpa using statement_of_for initPhrase guardPhrase updatePhrase braced_filler⟩
    refine (block_prompt n brace).bind block_yields ?_ fun _ _ => prompt_pure
    exact fun phrase => ⟨[], by simpa using statement_of_for initPhrase guardPhrase updatePhrase phrase⟩

theorem block_prompt : ∀ n loc, (block n loc).Prompt (Braced Location.Touches)
  | 0, _ => prompt_exhausted
  | n + 1, loc => by
    rw [block]
    refine (statements_prompt n).bind_expect statements_yields ?_ fun _ _ _ => prompt_pure
    exact fun ⟨phrase⟩ => ⟨[closer .closeBrace], .statements phrase⟩

theorem statements_prompt : ∀ n, (statements n).Prompt (Of (Statements Location.Touches))
  | 0 => prompt_exhausted
  | n + 1 => by
    rw [statements]
    refine prompt_bind_look fun ended => ?_
    split
    · exact prompt_pure
    · refine (statementIfSound_prompt n).bind statementIfSound_yields ?_ fun ⟨firstPhrase⟩ _ => ?_
      · exact fun phrase => ⟨[], by simpa using phrase⟩
      · refine (statements_prompt n).bind statements_yields ?_ fun _ _ => prompt_pure
        exact fun ⟨phrase⟩ => ⟨[], ⟨by simpa using firstPhrase.append phrase⟩⟩

theorem statementIfSound_prompt : ∀ n, (statementIfSound n).Prompt (Of (Statements Location.Touches))
  | 0 => prompt_exhausted
  | n + 1 => by
    have h : (statement n).Prompt (Of (Statements Location.Touches)) :=
      (statement_prompt n).mono fun ⟨phrase⟩ => ⟨[], ⟨.more (by simpa using phrase) .none⟩⟩
    refine ⟨statementIfSound_advances (n + 1), fun hclean hfirst => ?_⟩
    rw [statementIfSound_eq] at hfirst
    exact h.begins_recovering hclean hfirst

end

theorem dataType_viable : dataType.Viable (Of DeclaredType) := by
  refine viable_bind_take? (viable_failHere ?_) fun hbase _ => viable_bind_accept viable_pure fun _ => viable_pure
  exact ⟨[⟨.keyword BaseType.int.keyword, .start⟩], ⟨.base⟩⟩

theorem argument_viable : argument.Viable (Of Argument) := by
  refine viable_bind_look fun loc => dataType_viable.bind dataType_sound ?_ fun phrase => ?_
  · exact fun phrase => ⟨[⟨.identifier "x", .start⟩], phrase.declares "x" .start⟩
  · exact viable_bind_identifier ⟨[⟨.identifier "x", .start⟩], phrase.declares "x" .start⟩ fun _ _ => viable_pure

/-- For an argument that is left out, there is always one that could stand in its place. -/
theorem argumentIfSound_yields : argumentIfSound.Yields (Of Argument) := by
  intro session trees next hdone
  obtain ⟨-, -, hreport⟩ | ⟨tree, span, -, rfl, phrase⟩ := argumentIfSound_sound hdone
  · exact ⟨_, argument_filler, fun hclean => absurd hclean hreport⟩
  · exact ⟨span, ⟨phrase⟩, fun _ => rfl⟩

theorem argumentIfSound_prompt : argumentIfSound.Prompt (Of Argument) where
  toAdvances := argumentIfSound_advances
  begins hclean hfirst := by
    rw [argumentIfSound_eq] at hfirst
    exact (argument_viable.prompt argument_advances argument_sound).begins_recovering hclean hfirst

theorem arguments_yields {n : Nat} : (arguments n).Yields (Of (Listed Argument)) := by
  intro session trees next hdone
  obtain ⟨span, hreads, phrase, hreport⟩ := arguments_sound hdone
  cases phrase with
  | some phrase => exact ⟨span, ⟨phrase⟩, hreads.clean⟩
  | none =>
    obtain ⟨phrase⟩ := argument_filler
    exact ⟨_, ⟨.last phrase⟩, fun hclean => absurd hclean (hreport rfl)⟩

theorem arguments_prompt : ∀ n, (arguments n).Prompt (Of (Listed Argument))
  | 0 => prompt_exhausted
  | n + 1 => by
    rw [arguments]
    refine argumentIfSound_prompt.bind argumentIfSound_yields ?last fun first _ =>
      prompt_bind_accept prompt_pure fun comma => ?more
    case last =>
      rintro span ⟨phrase⟩
      exact ⟨[], ⟨.last (by simpa using phrase)⟩⟩
    case more =>
      obtain ⟨firstPhrase⟩ := first
      refine (arguments_prompt n).bind arguments_yields ?_ fun _ _ => prompt_pure
      rintro span ⟨phrase⟩
      exact ⟨[], ⟨by simpa using Listed.more firstPhrase phrase⟩⟩

theorem argumentList_yields {n : Nat} : (argumentList n).Yields (Of (AnyListed Argument)) := by
  intro session trees next hdone
  obtain ⟨span, hreads, phrase⟩ := argumentList_sound hdone
  exact ⟨span, ⟨phrase⟩, hreads.clean⟩

theorem argumentList_prompt (n : Nat) : (argumentList n).Prompt (Of (AnyListed Argument)) := by
  refine prompt_bind_look fun ended => ?_
  split
  · exact prompt_pure
  · exact (arguments_prompt n).mono fun ⟨phrase⟩ => ⟨[], ⟨.some (by simpa using phrase)⟩⟩

theorem identifiers_viable : ∀ n, (identifiers n).Viable (Of (Listed Returned))
  | 0 => viable_exhausted
  | n + 1 => by
    rw [identifiers]
    refine viable_bind_identifier ⟨[⟨.identifier "x", .start⟩], ⟨.last .name⟩⟩ fun name loc =>
      viable_bind_accept viable_pure fun comma => ?_
    refine (identifiers_viable n).bind identifiers_sound ?_ fun _ => viable_pure
    exact fun phrase => ⟨[], ⟨by simpa using Listed.more .name phrase⟩⟩

theorem identifierList_viable (n : Nat) : (identifierList n).Viable (Of (AnyListed Returned)) := by
  refine viable_bind_look fun ended => ?_
  split
  · exact viable_pure
  · exact (identifiers_viable n).mono fun phrase => ⟨[], ⟨.some (by simpa using phrase)⟩⟩

theorem returnsClause_viable (n : Nat) : (returnsClause n).Viable (Of (Clause .returns Returned)) := by
  refine viable_bind_expect ⟨_, clause_filler⟩ fun returns => ?_
  refine viable_bind_expect ⟨[closer .openParen, closer .closeParen], ⟨.listed .none⟩⟩ fun paren => ?_
  refine (identifierList_viable n).bind_expect identifierList_sound ?_ fun _ _ => viable_pure
  exact fun phrase => ⟨[closer .closeParen], ⟨by simpa using Clause.listed phrase⟩⟩

theorem localsClause_prompt (n : Nat) : (localsClause n).Prompt (Of (Clause .locals Argument)) := by
  refine prompt_bind_expect ⟨_, clause_filler⟩ fun locals => ?_
  refine prompt_bind_expect ⟨[closer .openParen, closer .closeParen], ⟨.listed .none⟩⟩ fun paren => ?_
  refine (argumentList_prompt n).bind_expect argumentList_yields ?_ fun _ _ _ => prompt_pure
  exact fun ⟨phrase⟩ => ⟨[closer .closeParen], ⟨by simpa using Clause.listed phrase⟩⟩

theorem returnsClause_reads {n : Nat} {session next : Session} {trees : List Tree}
    (h : (returnsClause n).run session = .done trees next) :
    ∃ span, session = next.unread span ∧ Clause .returns Returned span trees := by
  obtain ⟨returns, paren, span, close, phrase, hsession⟩ := returnsClause_sound h
  exact ⟨_, hsession, .listed phrase⟩

theorem localsClause_yields {n : Nat} : (localsClause n).Yields (Of (Clause .locals Argument)) := by
  intro session trees next hdone
  obtain ⟨locals, paren, span, close, phrase, hreads⟩ := localsClause_sound hdone
  exact ⟨_, ⟨.listed phrase⟩, hreads.clean⟩

/-- What follows the arguments of a specification is read promptly if its body is. -/
theorem details_prompt {α : Type} {wrap : List Tree → List Tree → Tree → α} {body : Rule Tree} (n : Nat)
    (hbody : body.Prompt (Of (Statement Location.Touches)))
    (hyields : body.Yields (Of (Statement Location.Touches))) :
    (returnsClause n >>= fun returned => localsClause n >>= fun locals => body >>= fun tree =>
      pure (wrap returned locals tree)).Prompt (Details Location.Touches) := by
  have block : Of (Statement Location.Touches) [closer .openBrace, closer .closeBrace] := ⟨statement_filler⟩
  refine ((returnsClause_viable n).prompt (returnsClause_advances n) returnsClause_reads).bind
    (yields_of_reads returnsClause_reads) ?_ fun returnedPhrase _ => ?_
  · exact fun phrase => ⟨emptyClause .locals ++ [closer .openBrace, closer .closeBrace],
      by simpa using details_of_clauses phrase clause_filler block⟩
  refine (localsClause_prompt n).bind localsClause_yields ?_ fun localPhrase _ => ?_
  · exact fun phrase => ⟨[closer .openBrace, closer .closeBrace],
      by simpa using details_of_clauses returnedPhrase phrase block⟩
  refine hbody.bind hyields ?_ fun _ _ => prompt_pure
  exact fun phrase => ⟨[], by simpa using details_of_clauses returnedPhrase localPhrase phrase⟩

theorem joinBody_yields {n : Nat} : (joinBody n).Yields (Of (Statement Location.Touches)) := by
  intro session tree next hdone
  obtain ⟨span, hreads, phrase⟩ := joinBody_sound hdone
  exact ⟨span, ⟨phrase⟩, hreads.clean⟩

theorem joinBody_prompt (n : Nat) : (joinBody n).Prompt (Of (Statement Location.Touches)) where
  toAdvances := joinBody_advances n
  begins hclean hfirst := by
    rw [joinBody_eq] at hfirst
    exact (statement_prompt n).begins_recovering hclean hfirst

theorem joinSpec_prompt (n : Nat) : (joinSpec n).Prompt (Of (JoinSpec Location.Touches)) := by
  refine prompt_bind_look fun loc => prompt_bind_expect ?_ fun join => prompt_bind_expect ?_ fun paren => ?_
  · exact ⟨_, joinSpec_filler⟩
  · exact ⟨closer .openParen :: closer .pipe :: closer .closeParen :: emptyDetails,
      joinSpec_of_details arguments_filler arguments_filler details_filler⟩
  refine (argumentList_prompt n).bind_expect argumentList_yields ?_ fun leftPhrase _ pipe => ?_
  · exact fun phrase => ⟨closer .pipe :: closer .closeParen :: emptyDetails,
      by simpa using joinSpec_of_details phrase arguments_filler details_filler⟩
  refine (argumentList_prompt n).bind_expect argumentList_yields ?_ fun rightPhrase _ close => ?_
  · exact fun phrase => ⟨closer .closeParen :: emptyDetails,
      by simpa using joinSpec_of_details leftPhrase phrase details_filler⟩
  refine (details_prompt n (joinBody_prompt n) joinBody_yields).mono fun phrase => ⟨[], ?_⟩
  simpa using joinSpec_of_details leftPhrase rightPhrase phrase

theorem sequentialSpec_prompt (n : Nat) : (sequentialSpec n).Prompt (Of (SequentialSpec Location.Touches)) := by
  refine prompt_bind_look fun loc => prompt_bind_expect ?_ fun sequential => prompt_bind_expect ?_ fun paren => ?_
  · exact ⟨_, sequentialSpec_filler⟩
  · exact ⟨closer .openParen :: closer .closeParen :: emptyDetails,
      sequentialSpec_of_details arguments_filler details_filler⟩
  refine (argumentList_prompt n).bind_expect argumentList_yields ?_ fun argPhrase _ close => ?_
  · exact fun phrase => ⟨closer .closeParen :: emptyDetails,
      by simpa using sequentialSpec_of_details phrase details_filler⟩
  refine (details_prompt n (statement_prompt n) statement_yields).mono fun phrase => ⟨[], ?_⟩
  simpa using sequentialSpec_of_details argPhrase phrase

theorem programBehind_prompt (n : Nat) {loc : Location} {join tree : Tree} {span : List Lexeme}
    (h : Phrase.JoinSpec Location.Touches span tree) :
    (programBehind n loc join).Prompt fun more => Of (Program Location.Touches) (span ++ more) := by
  have hyields : (sequentialSpec n).Yields (Of (SequentialSpec Location.Touches)) := by
    intro session tree next hdone
    obtain ⟨span, hreads, phrase⟩ := sequentialSpec_sound hdone
    exact ⟨span, ⟨phrase⟩, hreads.clean⟩
  have hwhole : ∀ {more}, Of (SequentialSpec Location.Touches) more →
      Of (Program Location.Touches) (span ++ more) := fun ⟨phrase⟩ => ⟨.program h phrase⟩
  refine (sequentialSpec_prompt n).bind hyields (fun phrase => ⟨[], by simpa using hwhole phrase⟩)
    fun phrase _ => prompt_bind_look fun ended => ?_
  split
  · exact prompt_pure
  · exact prompt_failHere ⟨[], by simpa using hwhole phrase⟩

/-- What has been complained about before a fatal error in the join specification, and that error, stay. -/
theorem complaints_brokenProgram {n : Nat} {error : SyntaxError} {session : Session}
    (h : ((brokenProgram n error).run session).complaints ≠ []) :
    session.diagnostics ++ [.syntactic error] ⊆ ((brokenProgram n error).run session).complaints := by
  have hfailed : ∃ next, (brokenProgram n error).run session = .failed error next := by
    rw [run_brokenProgram] at h ⊢
    cases hsequential : (sequentialSpec n).run { session with rest := Recovery.skipToSequential session.rest } with
    | done tree next => exact ⟨next, rfl⟩
    | failed second next => exact ⟨_, rfl⟩
    | exhausted => simp [hsequential, Outcome.complaints] at h
  obtain ⟨next, hfailed⟩ := hfailed
  obtain ⟨more, hmore⟩ := ((brokenProgram_advances n error).failed hfailed).diagnostics
  simp [hfailed, Outcome.complaints, ← hmore]

/-- Up to the place of one of its complaints, a program that is complained about begins well. -/
theorem program_begins (n : Nat) {session : Session} (hclean : session.diagnostics = [])
    (hcomplaints : ((program n).run session).complaints ≠ []) :
    ∃ complaint ∈ ((program n).run session).complaints,
      session.BeginsUpTo (Of (Program Location.Touches)) complaint.loc := by
  have hjoins : (joinSpec n).Yields (Of (Phrase.JoinSpec Location.Touches)) := by
    intro session tree next hdone
    obtain ⟨span, hreads, phrase, -⟩ := joinSpec_sound hdone
    exact ⟨span, ⟨phrase⟩, hreads.clean⟩
  rw [run_program] at hcomplaints ⊢
  cases hjoin : (joinSpec n).run session with
  | exhausted => simp [hjoin, Outcome.complaints] at hcomplaints
  | done join mid =>
    simp only [hjoin] at hcomplaints ⊢
    have whole : (joinSpec n >>= programBehind n session.next.loc).Prompt (Of (Program Location.Touches)) := by
      refine (joinSpec_prompt n).bind hjoins ?_ ?_
      · rintro span ⟨phrase⟩
        exact phrase.begins_program
      · rintro span ⟨phrase⟩ _
        exact programBehind_prompt n phrase
    refine ⟨_, List.head_mem hcomplaints, whole.begins hclean ?_⟩
    rw [run_bind, hjoin]
    exact List.head?_eq_some_head hcomplaints
  | failed error mid =>
    simp only [hjoin] at hcomplaints ⊢
    have whole : (joinSpec n).Prompt (Of (Program Location.Touches)) := by
      refine (joinSpec_prompt n).mono ?_
      rintro span ⟨phrase⟩
      exact phrase.begins_program
    have hne : mid.diagnostics ++ [.syntactic error] ≠ [] := by simp
    refine ⟨_, complaints_brokenProgram hcomplaints (List.head_mem hne), whole.begins hclean ?_⟩
    rw [hjoin]
    exact List.head?_eq_some_head hne

end Grammar

end RoutineSpec
