import RoutineSpec.Proofs.Reports

/-! # Reading on

A session can be asked for one program after the other. Each time it reads what a new session would read on the tokens
that are left, and each diagnostic is handed over once, or stays in the session.
-/

namespace RoutineSpec

namespace Session

/-- A stream with an end of input behind it. Where it has none there, one is supplied at its last token, or at `last`
    if it has no token. -/
def supplied (last : Location) : List Token → List Token
  | [] => [.endOfInput last]
  | [.endOfInput loc] => [.endOfInput loc]
  | token :: tokens => token :: supplied token.loc tokens

/-- A new session on the back of a stream has what is left of the stream, up to the same end of input. -/
theorem readable_drop_supplied (last other : Location) (tokens : List Token) {position : Nat}
    (h : position ≤ (readable last tokens).1.length) :
    readable other ((supplied last tokens).drop position) =
      ((readable last tokens).1.drop position, (readable last tokens).2) := by
  induction tokens generalizing last other position with
  | nil =>
    obtain rfl : position = 0 := by simpa [readable] using h
    rfl
  | cons token tokens ih =>
    cases token with
    | endOfInput loc =>
      obtain rfl : position = 0 := by simpa [readable] using h
      cases tokens <;> rfl
    | lexeme lexeme =>
      have hsupplied : supplied last (.lexeme lexeme :: tokens) = .lexeme lexeme :: supplied lexeme.loc tokens := by
        simp [supplied, Token.loc]
      rw [hsupplied]
      cases position with
      | zero =>
        have hrest := ih lexeme.loc lexeme.loc (Nat.zero_le _)
        rw [List.drop_zero, List.drop_zero] at hrest
        simp [readable, hrest]
      | succ position => exact ih lexeme.loc other (Nat.le_of_succ_le_succ h)

variable {session : Session}

/-- The session without its diagnostics. -/
def bare (session : Session) : Session :=
  { session with diagnostics := [] }

/-- Between two programs, either nothing is left to read, or the last diagnostic is no syntax error. -/
def Settled (session : Session) : Prop :=
  session.rest = [] ∨ ∀ error, session.diagnostics.getLast? ≠ some (.syntactic error)

theorem settled_of_lexical {errors : List LexicalError} (h : session.diagnostics = errors.map .lexical) :
    session.Settled := by
  refine .inr fun error hlast => ?_
  have := List.mem_of_getLast? hlast
  simp [h] at this

/-- A success has read all that there was, and a failure leaves no diagnostics. -/
theorem settled_readProgram (session : Session) : session.readProgram.2.Settled := by
  obtain ⟨program, next, hrun, hread⟩ | ⟨error, next, -, hread⟩ := session.readProgram_cases
  · rw [hread]
    exact .inl (Grammar.program_sound hrun).1
  · rw [hread]
    exact .inr fun _ => by simp

theorem Settled.readProgram_eq (h : session.Settled) :
    session.readProgram =
      match session.bare.readProgram with
      | (.ok program, next) => (.ok program, next.after session.diagnostics)
      | (.error failure, next) => (.error ⟨failure.error, session.diagnostics ++ failure.diagnostics⟩, next) := by
  have hbare : session = session.bare.after session.diagnostics := by simp [bare, after]
  rcases h with hend | hlast
  · obtain ⟨rest, stop, diagnostics⟩ := session
    cases hend
    rfl
  · have hapart : session.bare.Apart session.diagnostics := fun error herror => absurd herror (hlast error)
    have hafter := readProgram_after hapart
    rw [← hbare] at hafter
    exact hafter

theorem readProgram_keeps (session : Session) :
    session.readProgram.2.rest <:+ session.rest ∧ session.readProgram.2.stop = session.stop := by
  have hadvances := Grammar.program_advances (Grammar.budget session)
  obtain ⟨program, next, hrun, hread⟩ | ⟨error, next, hrun, hread⟩ := session.readProgram_cases
  · rw [hread]
    exact ⟨(hadvances.done hrun).rest, (hadvances.done hrun).stop⟩
  · rw [hread]
    exact ⟨(hadvances.failed hrun).rest, (hadvances.failed hrun).stop⟩

theorem diagnostics_of_readProgram_error {failure : ReadFailure} {next : Session}
    (h : session.readProgram = (.error failure, next)) : next.diagnostics = [] := by
  obtain ⟨program, last, -, hread⟩ | ⟨error, last, -, hread⟩ := session.readProgram_cases
  · cases hread.symm.trans h
  · cases hread.symm.trans h
    rfl

/-- The diagnostics that are handed over if a program is read from the session. -/
def handsOver (session : Session) : List Diagnostic :=
  match session.readProgram with
  | (.ok _, _) => []
  | (.error failure, _) => failure.diagnostics

/-- The diagnostics that there are when a program has been read from the session. -/
def collects (session : Session) : List Diagnostic :=
  match session.readProgram with
  | (.ok _, next) => next.diagnostics
  | (.error failure, _) => failure.diagnostics

/-- The session after some programs have been asked for. -/
def resumed (session : Session) : Nat → Session
  | 0 => session
  | calls + 1 => (session.resumed calls).readProgram.2

theorem Settled.resumed (h : session.Settled) (calls : Nat) : (session.resumed calls).Settled := by
  cases calls with
  | zero => exact h
  | succ calls => exact settled_readProgram (session.resumed calls)

theorem resumed_keeps (session : Session) (calls : Nat) :
    (session.resumed calls).rest <:+ session.rest ∧ (session.resumed calls).stop = session.stop := by
  induction calls with
  | zero => exact ⟨List.suffix_refl _, rfl⟩
  | succ calls ih =>
    obtain ⟨hrest, hstop⟩ := ih
    obtain ⟨hrest', hstop'⟩ := readProgram_keeps (session.resumed calls)
    exact ⟨hrest'.trans hrest, hstop'.trans hstop⟩

/-- What is handed over and what stays are the diagnostics from before and the ones that come up. -/
theorem Settled.handsOver_append (h : session.Settled) :
    session.handsOver ++ session.readProgram.2.diagnostics = session.diagnostics ++ session.bare.collects := by
  unfold handsOver collects
  rw [h.readProgram_eq]
  cases hbare : session.bare.readProgram with
  | mk ended next =>
    cases ended with
    | ok program => rfl
    | error failure => simp [diagnostics_of_readProgram_error hbare]

end Session

/-- What a session starts on. -/
inductive Input where
  | stream (tokens : List Token)
  | text (policy : DecimalPolicy) (source : String)

namespace Input

/-- The tokens of an input, without the end of input that is supplied where there is none. -/
def tokens : Input → List Token
  | .stream given => given
  | .text policy source => (Scan.of policy source).tokens

def session : Input → Session
  | .stream given => .ofTokens given
  | .text policy source => .ofSource policy source

/-- How many tokens have been read after some programs have been asked for. -/
def position (input : Input) (calls : Nat) : Nat :=
  input.session.rest.length - (input.session.resumed calls).rest.length

/-- A new session on the tokens that are left then. -/
def renewed (input : Input) (calls : Nat) : Session :=
  .ofTokens ((Session.supplied .start input.tokens).drop (input.position calls))

variable (input : Input)

theorem bare_session : input.session.bare = .ofTokens input.tokens := by
  cases input <;> rfl

theorem settled_session : input.session.Settled := by
  cases input with
  | stream given => exact @Session.settled_of_lexical (.ofTokens given) [] rfl
  | text policy source =>
    exact @Session.settled_of_lexical (.ofSource policy source) (Scan.of policy source).errors rfl

theorem renewed_eq (calls : Nat) : input.renewed calls = (input.session.resumed calls).bare := by
  obtain ⟨⟨span, hspan⟩, hstop⟩ := input.session.resumed_keeps calls
  have hposition : input.position calls = span.length := by simp [position, ← hspan]
  have hstart := input.bare_session
  have hrest : (Session.readable .start input.tokens).1 = span ++ (input.session.resumed calls).rest :=
    (congrArg Session.rest hstart).symm.trans hspan.symm
  have hend : (Session.readable .start input.tokens).2 = input.session.stop := (congrArg Session.stop hstart).symm
  have hreadable := @Session.readable_drop_supplied .start .start input.tokens (input.position calls)
    (by simp [hrest, hposition])
  rw [hrest, hend, hposition, List.drop_left, ← hstop] at hreadable
  simp [renewed, Session.ofTokens, Session.bare, hposition, hreadable]

theorem position_succ (calls : Nat) :
    input.position (calls + 1) - input.position calls =
      (input.session.resumed calls).rest.length - (input.session.resumed (calls + 1)).rest.length := by
  have hrest := (input.session.resumed_keeps calls).1.length_le
  unfold position
  omega

/-- No diagnostic is lost, and none is handed over twice. -/
theorem handsOver_append (calls : Nat) :
    (List.range calls).flatMap (fun call => (input.session.resumed call).handsOver) ++
        (input.session.resumed calls).diagnostics =
      input.session.diagnostics ++ (List.range calls).flatMap fun call => (input.renewed call).collects := by
  induction calls with
  | zero => simp [Session.resumed]
  | succ calls ih =>
    have hlast := (input.settled_session.resumed calls).handsOver_append
    rw [← input.renewed_eq] at hlast
    simp only [List.range_succ, List.flatMap_append, List.flatMap_singleton, List.append_assoc, Session.resumed, hlast]
    rw [← List.append_assoc, ih, List.append_assoc]

/-- A program is read from a session as from a new session on the tokens that are left, whatever has been read before:
    the same tree or the same error comes out behind as many tokens, and the diagnostics follow those that are there.
    Each diagnostic is handed over once or stays. -/
theorem readProgram_resumed (calls : Nat) :
    let session := input.session.resumed calls
    let renewed := input.renewed calls
    (match renewed.readProgram with
      | (.ok program, next) =>
        session.readProgram = (.ok program, { next with diagnostics := session.diagnostics ++ next.diagnostics })
      | (.error failure, next) =>
        session.readProgram = (.error ⟨failure.error, session.diagnostics ++ failure.diagnostics⟩, next) ∧
          next.diagnostics = []) ∧
      input.position (calls + 1) - input.position calls =
        renewed.rest.length - renewed.readProgram.2.rest.length ∧
      (List.range calls).flatMap (fun call => (input.session.resumed call).handsOver) ++ session.diagnostics =
        input.session.diagnostics ++ (List.range calls).flatMap fun call => (input.renewed call).collects := by
  dsimp only
  have hread := (input.settled_session.resumed calls).readProgram_eq
  rw [← input.renewed_eq] at hread
  have hcount : (input.session.resumed calls).rest.length = (input.renewed calls).rest.length := by
    rw [input.renewed_eq]
    rfl
  refine ⟨?_, ?_, input.handsOver_append calls⟩
  · cases hresult : (input.renewed calls).readProgram with
    | mk ended next =>
      rw [hresult] at hread
      cases ended with
      | ok program => exact hread
      | error failure => exact ⟨hread, Session.diagnostics_of_readProgram_error hresult⟩
  · rw [position_succ, hcount]
    refine congrArg _ (congrArg List.length ?_)
    rw [Session.resumed, hread]
    cases (input.renewed calls).readProgram with
    | mk ended next => cases ended <;> rfl

end Input

end RoutineSpec
