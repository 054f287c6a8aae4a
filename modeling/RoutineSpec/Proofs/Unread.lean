import RoutineSpec.Grammar.Program

/-! # What a rule has read

Where a rule is done, the session it started from is the one it leaves with the lexemes it has read put back.
Each way to build a rule has an inversion lemma: how the parts of the rule went, given that the whole is done.
-/

namespace RoutineSpec

namespace Session

/-- The session with some lexemes put back in front of what is left. -/
def unread (session : Session) (span : List Lexeme) : Session :=
  { session with rest := span ++ session.rest }

variable (session : Session)

@[simp] theorem unread_nil : session.unread [] = session := rfl

theorem unread_append (span more : List Lexeme) :
    session.unread (span ++ more) = (session.unread more).unread span := by
  simp [unread]

theorem unread_cons (lexeme : Lexeme) (span : List Lexeme) :
    session.unread (lexeme :: span) = (session.unread span).unread [lexeme] := rfl

@[simp] theorem rest_unread (span : List Lexeme) : (session.unread span).rest = span ++ session.rest := rfl

@[simp] theorem next_unread_cons (lexeme : Lexeme) (span : List Lexeme) :
    (session.unread (lexeme :: span)).next = .lexeme lexeme := rfl

@[simp] theorem stop_unread (span : List Lexeme) : (session.unread span).stop = session.stop := rfl

@[simp] theorem diagnostics_unread (span : List Lexeme) :
    (session.unread span).diagnostics = session.diagnostics := rfl

theorem unread_of_rest {session : Session} {span behind : List Lexeme} (h : session.rest = span ++ behind) :
    unread { session with rest := behind } span = session := by
  simp [unread, ← h]

theorem take?_unread {α : Type} {select : Terminal → Option α} {terminal : Terminal} {loc : Location}
    {value : α} (h : select terminal = some value) :
    (session.unread [⟨terminal, loc⟩]).take? select = some ((value, loc), session) := by
  simp [take?, unread, h]

theorem take?_eq_none_iff {α : Type} {select : Terminal → Option α} :
    session.take? select = none ↔ ∀ lexeme ∈ session.rest.head?, select lexeme.terminal = none := by
  unfold take?
  cases session.rest with
  | nil => simp
  | cons lexeme rest => simp

variable {session}

theorem eq_unread_of_take? {α : Type} {select : Terminal → Option α} {next : Session} {value : α}
    {loc : Location} (h : session.take? select = some ((value, loc), next)) :
    ∃ terminal, select terminal = some value ∧ session = next.unread [⟨terminal, loc⟩] := by
  obtain ⟨terminal, rest, hrest, hvalue, rfl⟩ := take?_eq_some_iff.1 h
  refine ⟨terminal, hvalue, ?_⟩
  simp [unread, ← hrest]

end Session

theorem Terminal.same?_eq_none_iff {terminal other : Terminal} :
    terminal.same? other = none ↔ other ≠ terminal := by
  simp [same?]

theorem Terminal.same?_eq_some_iff {terminal other : Terminal} {found : Unit} :
    terminal.same? other = some found ↔ other = terminal := by
  simp [same?]

namespace Rule

variable {α β : Type} {rule : Rule α} {follow : α → Rule β} {session next : Session} {value : β}

theorem done_of_bind (h : (rule >>= follow).run session = .done value next) :
    ∃ first mid, rule.run session = .done first mid ∧ (follow first).run mid = .done value next := by
  rw [run_bind] at h
  cases hrule : rule.run session with
  | done first mid => exact ⟨first, mid, rfl, by simpa only [hrule] using h⟩
  | failed | exhausted => simp [hrule] at h

theorem done_of_pure {first : β} (h : (pure first : Rule β).run session = .done value next) :
    value = first ∧ session = next := by
  simpa [eq_comm] using h

theorem done_of_look {γ : Type} {view : Session → γ} {follow : γ → Rule β}
    (h : (look view >>= follow).run session = .done value next) :
    (follow (view session)).run session = .done value next := h

/-- Either the next lexeme is not selected, and stays, or it is read. -/
theorem done_of_take? {γ : Type} {select : Terminal → Option γ} {follow : Option (γ × Location) → Rule β}
    (h : (take? select >>= follow).run session = .done value next) :
    (∀ lexeme ∈ session.rest.head?, select lexeme.terminal = none) ∧
        (follow none).run session = .done value next ∨
      ∃ found terminal loc mid, select terminal = some found ∧
        session = mid.unread [⟨terminal, loc⟩] ∧
        (follow (some (found, loc))).run mid = .done value next := by
  rw [run_bind, run_take?] at h
  cases htake : session.take? select with
  | none =>
    rw [htake] at h
    exact .inl ⟨(session.take?_eq_none_iff).1 htake, h⟩
  | some taken =>
    obtain ⟨⟨found, loc⟩, mid⟩ := taken
    obtain ⟨terminal, hselect, hsession⟩ := Session.eq_unread_of_take? htake
    rw [htake] at h
    exact .inr ⟨found, terminal, loc, mid, hselect, hsession, h⟩

theorem done_of_accept {terminal : Terminal} {follow : Option Location → Rule β}
    (h : (accept terminal >>= follow).run session = .done value next) :
    (∀ lexeme ∈ session.rest.head?, lexeme.terminal ≠ terminal) ∧
        (follow none).run session = .done value next ∨
      ∃ loc mid, session = mid.unread [⟨terminal, loc⟩] ∧
        (follow (some loc)).run mid = .done value next := by
  rw [run_bind, run_accept] at h
  cases htake : session.take? terminal.same? with
  | none =>
    rw [htake] at h
    have absent := (session.take?_eq_none_iff).1 htake
    exact .inl ⟨fun lexeme hmem => Terminal.same?_eq_none_iff.1 (absent lexeme hmem), h⟩
  | some taken =>
    obtain ⟨⟨found, loc⟩, mid⟩ := taken
    obtain ⟨other, hsame, hsession⟩ := Session.eq_unread_of_take? htake
    rw [htake] at h
    cases Terminal.same?_eq_some_iff.1 hsame
    exact .inr ⟨loc, mid, hsession, h⟩

theorem done_of_expect {terminal : Terminal} {what : Expectation} {follow : Unit → Rule β}
    (h : (expect terminal what >>= follow).run session = .done value next) :
    ∃ loc mid, session = mid.unread [⟨terminal, loc⟩] ∧ (follow ()).run mid = .done value next := by
  obtain ⟨⟨⟩, mid, hexpect, hfollow⟩ := done_of_bind h
  obtain ⟨-, hnone⟩ | ⟨loc, behind, hsession, hsome⟩ := done_of_accept hexpect
  · cases hnone
  · obtain ⟨-, rfl⟩ := done_of_pure hsome
    exact ⟨loc, behind, hsession, hfollow⟩

theorem done_of_identifier {follow : String × Location → Rule β}
    (h : (identifier >>= follow).run session = .done value next) :
    ∃ name loc mid, session = mid.unread [⟨.identifier name, loc⟩] ∧
      (follow (name, loc)).run mid = .done value next := by
  obtain ⟨⟨name, loc⟩, mid, hidentifier, hfollow⟩ := done_of_bind h
  obtain ⟨-, hnone⟩ | ⟨found, terminal, loc', behind, hname, hsession, hsome⟩ := done_of_take? hidentifier
  · cases hnone
  · obtain ⟨hpair, rfl⟩ := done_of_pure hsome
    cases hpair
    cases terminal with
    | identifier other => cases hname; exact ⟨_, _, _, hsession, hfollow⟩
    | integer | keyword | mark => cases hname

/-- Either the first of two rules has failed, or it was done and the second one has failed. -/
theorem failed_of_bind {error : SyntaxError} (h : (rule >>= follow).run session = .failed error next) :
    rule.run session = .failed error next ∨
      ∃ first mid, rule.run session = .done first mid ∧ (follow first).run mid = .failed error next := by
  rw [run_bind] at h
  cases hrule : rule.run session with
  | done first mid => exact .inr ⟨first, mid, rfl, by simpa only [hrule] using h⟩
  | failed early mid => rw [hrule] at h; cases h; exact .inl rfl
  | exhausted => simp [hrule] at h

/-- A rule whose failure is handed over either was done or has failed. -/
theorem done_of_attempt {follow : Except SyntaxError α → Rule β}
    (h : (attempt rule >>= follow).run session = .done value next) :
    (∃ first mid, rule.run session = .done first mid ∧ (follow (.ok first)).run mid = .done value next) ∨
      ∃ error mid, rule.run session = .failed error mid ∧
        (follow (.error error)).run mid = .done value next := by
  rw [run_bind, run_attempt] at h
  cases hrule : rule.run session with
  | done first mid => exact .inl ⟨first, mid, rfl, by simpa only [hrule] using h⟩
  | failed error mid => exact .inr ⟨error, mid, rfl, by simpa only [hrule] using h⟩
  | exhausted => simp [hrule] at h

theorem run_look {γ : Type} (view : Session → γ) (follow : γ → Rule β) (session : Session) :
    (look view >>= follow).run session = (follow (view session)).run session := rfl

/-! What is read behind a terminal that is accepted or expected is read behind a terminal that is taken. -/

theorem accept_bind {terminal : Terminal} (follow : Option Location → Rule β) :
    accept terminal >>= follow = take? terminal.same? >>= fun found => follow (found.map Prod.snd) := by
  apply congrArg Rule.mk
  funext session
  simp only [run_accept, run_take?]
  cases session.take? terminal.same? <;> rfl

theorem expect_bind {terminal : Terminal} {what : Expectation} (follow : Unit → Rule β) :
    expect terminal what >>= follow = accept terminal >>= fun
      | some _ => follow ()
      | none => failHere what := by
  apply congrArg Rule.mk
  funext session
  simp only [expect, run_bind, run_accept]
  cases session.take? terminal.same? <;> rfl

theorem identifier_bind (follow : String × Location → Rule β) :
    identifier >>= follow = take? Terminal.name? >>= fun
      | some found => follow found
      | none => failHere .identifier := by
  apply congrArg Rule.mk
  funext session
  simp only [identifier, run_bind, run_take?]
  cases session.take? Terminal.name? <;> rfl

/-- Read with a rule. Its failure is reported, `skip` says what is left then, and `left` stands for the value. -/
def recovering (rule : Rule α) (skip : List Lexeme → List Lexeme) (kept : α → β) (left : β) : Rule β := do
  match ← attempt rule with
  | .ok value => return kept value
  | .error error => do
    report error
    skipWith skip
    return left

theorem recovering_eq {skip : List Lexeme → List Lexeme} {kept : α → β} {left : β}
    {follow : Except SyntaxError α → Rule β} (hok : ∀ value, follow (.ok value) = pure (kept value))
    (herror : ∀ error, follow (.error error) = report error >>= fun _ => skipWith skip >>= fun _ => pure left) :
    attempt rule >>= follow = recovering rule skip kept left := by
  apply congrArg Rule.mk
  funext session
  rw [run_attempt]
  cases rule.run session with
  | done value next => exact congrArg (·.run next) (hok value)
  | failed error next => exact congrArg (·.run next) (herror error)
  | exhausted => rfl

theorem run_recovering {skip : List Lexeme → List Lexeme} {kept : α → β} {left : β} (session : Session) :
    (recovering rule skip kept left).run session =
      match rule.run session with
      | .done value next => .done (kept value) next
      | .failed error next => .done left { next.report error with rest := skip (next.report error).rest }
      | .exhausted => .exhausted := by
  rw [recovering, run_bind, run_attempt]
  cases rule.run session <;> rfl

end Rule

namespace Grammar

open Rule

/-! The three places where reading gets over an error. -/

theorem statementIfSound_eq (n : Nat) : statementIfSound (n + 1) =
    look Session.rest >>= fun start =>
      recovering (statement n) (Recovery.resume start) (fun tree => [tree]) [] := by
  rw [statementIfSound]
  exact congrArg _ (funext fun start => recovering_eq (fun _ => rfl) fun _ => rfl)

theorem argumentIfSound_eq :
    argumentIfSound = recovering argument Recovery.skipArgument (fun tree => [tree]) [] :=
  recovering_eq (fun _ => rfl) fun _ => rfl

theorem joinBody_eq (n : Nat) : joinBody n =
    here >>= fun loc => recovering (statement n) Recovery.skipToSequential id (.block loc []) := by
  rw [joinBody]
  exact congrArg _ (funext fun loc => recovering_eq (fun _ => rfl) fun _ => rfl)

theorem run_guard (n : Nat) (session : Session) :
    (guard n).run session =
      match (binary n Precedence.ladder).run session with
      | .done tree next =>
        if tree.kind = .binary then .done tree next
        else .failed ⟨.looseGuard tree.kind, session.next.describe, session.next.loc⟩ next
      | .failed error next => .failed error next
      | .exhausted => .exhausted := by
  simp only [guard, look, run_bind]
  cases (binary n Precedence.ladder).run session with
  | failed | exhausted => rfl
  | done tree next =>
    simp only
    split <;> rfl

/-- What follows the word that starts the second specification, at `loc`. -/
def sequentialBehind (n : Nat) (loc : Location) : Rule Tree := do
  expect (.mark .openParen) .openAfterSequential
  let args ← argumentList n
  expect (.mark .closeParen) .closeSequentialArguments
  let returns ← returnsClause n
  let locals ← localsClause n
  let body ← statement n
  return .sequentialSpec loc args returns locals body

theorem sequentialSpec_eq (n : Nat) : sequentialSpec n =
    here >>= fun loc => expect (.keyword .sequential) .sequentialKeyword >>= fun _ => sequentialBehind n loc := rfl

theorem run_programBehind (n : Nat) (loc : Location) (join : Tree) (session : Session) :
    (programBehind n loc join).run session =
      match (sequentialSpec n).run session with
      | .done sequential next =>
        if next.atEnd then .done (.program loc join sequential) next
        else .failed ⟨.expected .endOfInput, next.next.describe, next.next.loc⟩ next
      | .failed error next => .failed error next
      | .exhausted => .exhausted := by
  simp only [programBehind, look, run_bind]
  cases (sequentialSpec n).run session with
  | failed | exhausted => rfl
  | done sequential next =>
    simp only
    split <;> rfl

theorem run_brokenProgram (n : Nat) (error : SyntaxError) (session : Session) :
    (brokenProgram n error).run session =
      match (sequentialSpec n).run { session with rest := Recovery.skipToSequential session.rest } with
      | .done _ next => .failed error next
      | .failed second next => .failed error (next.record (.syntactic second))
      | .exhausted => .exhausted := by
  simp only [brokenProgram, skipWith, update, run_bind, run_attempt]
  cases (sequentialSpec n).run { session with rest := Recovery.skipToSequential session.rest } <;> rfl

theorem run_program (n : Nat) (session : Session) :
    (program n).run session =
      match (joinSpec n).run session with
      | .done join next => (programBehind n session.next.loc join).run next
      | .failed error next => (brokenProgram n error).run next
      | .exhausted => .exhausted := by
  simp only [program, here, look, run_bind, run_attempt]
  cases (joinSpec n).run session <;> rfl

end Grammar

end RoutineSpec
