import RoutineSpec.Proofs.Position

/-! # Reading along the whole vector

A session has the lexemes in front of the first end of input, and nothing else of its token vector. A reader that keeps
the whole vector, looks ahead in it and skips along it comes to the same: the end of input stops every skip, and where it
is among the tokens that an increment is told by, there is no increment, whatever stands behind it. So each step along
the vector is a step of the session, and the whole reading comes to what the session reads.
-/

namespace RoutineSpec

/-! ## One step -/

/-- The tokens that a session has left to read, with those behind its end of input. -/
def Session.uncut (session : Session) (behind : List Token) : List Token :=
  session.tokens ++ behind

theorem Session.length_uncut (session : Session) (behind : List Token) :
    (session.uncut behind).length = session.rest.length + 1 + behind.length := by
  rw [uncut, List.length_append, tokens, List.length_append, List.length_map, List.length_singleton]

/-! What is done with the tokens from a position on, be they before or behind the end of input. -/

namespace Uncut

/-- Read the next token if it is a lexeme that `select` makes something of. -/
def take? {α : Type} (select : Terminal → Option α) : List Token → Option ((α × Location) × List Token)
  | .lexeme lexeme :: tokens => (select lexeme.terminal).map fun value => ((value, lexeme.loc), tokens)
  | _ => none

/-- The increment that the next four tokens are, if they are one. -/
def increment? (tokens : List Token) : Option Tree :=
  match tokens[0]?, tokens[1]?, tokens[2]?, tokens[3]? with
  | some (Token.lexeme ⟨.identifier name, loc⟩), some (Token.lexeme first), some (Token.lexeme second),
      some (Token.lexeme behind) =>
    if first.terminal = second.terminal ∧ first.loc.Touches second.loc ∧
        (behind.terminal = .mark .semicolon ∨ behind.terminal = .mark .closeParen) then
      (Grammar.incrementOp? first.terminal).map fun op => .increment loc name op first.loc
    else none
  | _, _, _, _ => none

/-- Skip up to a lexeme that `stops`, or to an end of input. -/
def skipUntil (stops : Terminal → Bool) : List Token → List Token
  | .lexeme lexeme :: tokens =>
    if stops lexeme.terminal then .lexeme lexeme :: tokens else skipUntil stops tokens
  | tokens => tokens

/-- Skip a malformed assignment. -/
def skipAssignment : List Token → List Token
  | .lexeme lexeme :: tokens =>
    match lexeme.terminal with
    | .mark .semicolon => tokens
    | .mark .closeBrace | .keyword .sequential => .lexeme lexeme :: tokens
    | _ => skipAssignment tokens
  | tokens => tokens

/-- Skip the rest of a malformed statement. -/
def skipStatement (nesting : Recovery.Nesting) : List Token → List Token
  | .lexeme lexeme :: tokens =>
    match nesting.after? lexeme.terminal with
    | none => .lexeme lexeme :: tokens
    | some inner => skipStatement inner tokens
  | tokens => tokens

/-- Where a block goes on when a statement that begins with `start` has failed in front of `tokens`. -/
def resume (start tokens : List Token) : List Token :=
  match start with
  | .lexeme first :: others =>
    if Recovery.startsCompound first.terminal then skipStatement .outermost start
    else if tokens.length = start.length then others
    else skipAssignment tokens
  | start => start

variable {α : Type} (lexemes : List Lexeme) (stop : Location) (behind : List Token)

theorem skipUntil_lexemes (stops : Terminal → Bool) :
    skipUntil stops (lexemes.map .lexeme ++ .endOfInput stop :: behind) =
      (lexemes.dropWhile fun lexeme => !stops lexeme.terminal).map .lexeme ++ .endOfInput stop :: behind := by
  induction lexemes with
  | nil => rfl
  | cons lexeme lexemes ih =>
    rw [List.map_cons, List.cons_append, skipUntil, ih, List.dropWhile_cons]
    cases stops lexeme.terminal <;> rfl

theorem skipAssignment_lexemes :
    skipAssignment (lexemes.map .lexeme ++ .endOfInput stop :: behind) =
      (Recovery.skipAssignment lexemes).map .lexeme ++ .endOfInput stop :: behind := by
  fun_induction Recovery.skipAssignment lexemes with
  | case1 => rfl
  | case2 lexeme lexemes hsemicolon => simp [skipAssignment, hsemicolon]
  | case3 lexeme lexemes hclose => simp [skipAssignment, hclose]
  | case4 lexeme lexemes hsequential => simp [skipAssignment, hsequential]
  | case5 lexeme lexemes hsemicolon hclose hsequential ih =>
    simp [skipAssignment, ih]

theorem skipStatement_lexemes (nesting : Recovery.Nesting) :
    skipStatement nesting (lexemes.map .lexeme ++ .endOfInput stop :: behind) =
      (Recovery.skipStatement nesting lexemes).map .lexeme ++ .endOfInput stop :: behind := by
  induction lexemes generalizing nesting with
  | nil => rfl
  | cons lexeme lexemes ih =>
    rw [List.map_cons, List.cons_append, skipStatement, Recovery.skipStatement]
    cases nesting.after? lexeme.terminal with
    | none => rfl
    | some inner => exact ih inner

/-- An increment is told by lexemes in front of the end of input. -/
theorem increment?_lexemes :
    increment? (lexemes.map .lexeme ++ .endOfInput stop :: behind) = Grammar.increment? lexemes := by
  rcases lexemes with _ | ⟨⟨terminal, loc⟩, lexemes⟩
  · rfl
  cases terminal with
  | integer | keyword | mark => rfl
  | identifier name =>
    -- The end of input is among the four tokens unless there are four lexemes.
    rcases lexemes with _ | ⟨first, _ | ⟨second, _ | ⟨fourth, lexemes⟩⟩⟩
    all_goals rfl

theorem take?_uncut {α : Type} (select : Terminal → Option α) (session : Session) :
    take? select (session.uncut behind) =
      (session.take? select).map fun (found, next) => (found, next.uncut behind) := by
  unfold Session.uncut Session.tokens Session.take?
  cases session.rest with
  | nil => rfl
  | cons lexeme rest =>
    simp only [List.map_cons, List.cons_append, take?]
    cases select lexeme.terminal <;> rfl

/-- Going on along the tokens is going on in the session: what comes next, what is taken or not, whether there is an
    increment, and where each way to skip leads to, also back from a later session to where a statement began. -/
structure Shows (behind : List Token) (session : Session) (tokens : List Token) : Prop where
  next : tokens[0]? = some session.next
  take? : ∀ {α : Type} (select : Terminal → Option α),
    take? select tokens = (session.take? select).map fun (found, next) => (found, next.uncut behind)
  increment? : increment? tokens = Grammar.increment? session.rest
  skipArgument : skipUntil Recovery.argumentEnds.contains tokens =
    Session.uncut { session with rest := Recovery.skipArgument session.rest } behind
  skipToSequential : skipUntil (· == .keyword .sequential) tokens =
    Session.uncut { session with rest := Recovery.skipToSequential session.rest } behind
  resume : ∀ {later : Session}, later.stop = session.stop → resume tokens (later.uncut behind) =
    Session.uncut { later with rest := Recovery.resume session.rest later.rest } behind

theorem resume_uncut {session later : Session} (hstop : later.stop = session.stop) :
    resume (session.uncut behind) (later.uncut behind) =
      Session.uncut { later with rest := Recovery.resume session.rest later.rest } behind := by
  have hlength : (later.uncut behind).length = (session.uncut behind).length ↔
      later.rest.length = session.rest.length := by
    simp only [Session.length_uncut]
    omega
  cases hrest : session.rest with
  | nil => simp [Session.uncut, Session.tokens, hrest, hstop, resume, Recovery.resume]
  | cons first others =>
    have huncut : session.uncut behind =
        .lexeme first :: (others.map .lexeme ++ .endOfInput session.stop :: behind) := by
      simp [Session.uncut, Session.tokens, hrest]
    rw [huncut, resume, Recovery.resume, ← huncut]
    simp only [hlength, hrest]
    split
    · have hskip := skipStatement_lexemes (first :: others) session.stop behind .outermost
      simpa [Session.uncut, Session.tokens, hrest, hstop] using hskip
    · split
      · simp [Session.uncut, Session.tokens, hstop]
      · have hskip := skipAssignment_lexemes later.rest later.stop behind
        simpa [Session.uncut, Session.tokens] using hskip

theorem shows_uncut (session : Session) : Shows behind session (session.uncut behind) where
  next := by
    unfold Session.uncut Session.tokens Session.next
    cases session.rest <;> rfl
  take? select := take?_uncut behind select session
  increment? := by
    simpa [Session.uncut, Session.tokens] using increment?_lexemes session.rest session.stop behind
  skipArgument := by
    have hskip := skipUntil_lexemes session.rest session.stop behind Recovery.argumentEnds.contains
    simpa [Session.uncut, Session.tokens, Recovery.skipArgument] using hskip
  skipToSequential := by
    have hskip := skipUntil_lexemes session.rest session.stop behind (· == .keyword .sequential)
    simpa [Session.uncut, Session.tokens, Recovery.skipToSequential, bne] using hskip
  resume := resume_uncut behind

end Uncut

/-! ## The whole reading -/

namespace Uncut

/-- What is left of the vector, and the diagnostics so far. -/
structure State where
  tokens : List Token
  diagnostics : List Diagnostic

namespace State

def record (state : State) (diagnostic : Diagnostic) : State :=
  { state with diagnostics := state.diagnostics ++ [diagnostic] }

/-- Report an error, unless one at the same place has just been reported. -/
def report (state : State) (error : SyntaxError) : State :=
  match state.diagnostics.getLast? with
  | some (.syntactic last) => if last.loc = error.loc then state else state.record (.syntactic error)
  | _ => state.record (.syntactic error)

end State

/-- How the reading of a rule ends. -/
inductive Result (α : Type) where
  | done (value : α) (state : State)
  | failed (error : SyntaxError) (state : State)
  | exhausted

namespace Result

variable {α β : Type}

/-- A failure is handed over as a value. -/
def attempted : Result α → Result (Except SyntaxError α)
  | done value state => .done (.ok value) state
  | failed error state => .done (.error error) state
  | exhausted => .exhausted

/-- A failure is reported, `skip` says what is left then, and `left` stands for the value. -/
def repaired (skip : List Token → List Token) (kept : α → β) (left : β) : Result α → Result β
  | done value state => .done (kept value) state
  | failed error state => .done left { state.report error with tokens := skip state.tokens }
  | exhausted => .exhausted

/-- What is handed over at the end of a reading. -/
def reading? : Result Tree → Option (Except ReadFailure Reading)
  | done program state => some (.ok ⟨program, state.diagnostics⟩)
  | failed error state => some (.error ⟨error, state.diagnostics⟩)
  | exhausted => none

end Result

/-- What is left behind what a repair leaves out, given where the failed part began and where it failed. -/
def skip : Recovery.Repair → List Token → List Token → List Token
  | .argument, _ => skipUntil Recovery.argumentEnds.contains
  | .body, _ => skipUntil (· == .keyword .sequential)
  | .statement, start => resume start

/-- A rule is read along the vector, part after part: through the states in front of each part, in their order, to the
    result. -/
inductive Reads : {α : Type} → Rule α → State → List State → Result α → Prop where
  | pure {α : Type} (value : α) (state : State) : Reads (Pure.pure value) state [state] (.done value state)
  | exhausted {α : Type} (state : State) : Reads (Rule.exhausted : Rule α) state [state] .exhausted
  | fail {α : Type} (error : SyntaxError) (state : State) :
      Reads (Rule.fail error : Rule α) state [state] (.failed error state)
  | failHere {α : Type} {state : State} {token : Token} (what : Expectation) :
      state.tokens[0]? = some token →
      Reads (Rule.failHere what : Rule α) state [state] (.failed ⟨.expected what, token.describe, token.loc⟩ state)
  | taken {α : Type} {select : Terminal → Option α} {state : State} {found : α × Location} {tokens : List Token} :
      take? select state.tokens = some (found, tokens) →
      Reads (Rule.take? select) state [state] (.done (some found) { state with tokens })
  | untaken {α : Type} {select : Terminal → Option α} {state : State} :
      take? select state.tokens = none → Reads (Rule.take? select) state [state] (.done none state)
  | increment {state : State} {tree : Tree} :
      increment? state.tokens = some tree →
      Reads Grammar.increment state [state] (.done (some tree) { state with tokens := state.tokens.drop 3 })
  | noIncrement {state : State} :
      increment? state.tokens = none → Reads Grammar.increment state [state] (.done none state)
  | record (error : SyntaxError) (state : State) :
      Reads (Rule.record error) state [state] (.done () (state.record (.syntactic error)))
  | skipToSequential (state : State) :
      Reads (Rule.skipWith Recovery.skipToSequential) state [state]
        (.done () { state with tokens := skipUntil (· == .keyword .sequential) state.tokens })
  /-- What is looked at is the next token. -/
  | look {α β : Type} {view : Session → α} {follow : α → Rule β} {session : Session} {state : State}
      {passed : List State} {result : Result β} :
      (∀ {session other : Session}, session.next = other.next → view session = view other) →
      state.tokens[0]? = some session.next →
      Reads (follow (view session)) state passed result →
      Reads (Rule.look view >>= follow) state passed result
  | bind {α β : Type} {rule : Rule α} {follow : α → Rule β} {state next : State} {passed others : List State}
      {value : α} {result : Result β} :
      Reads rule state passed (.done value next) →
      Reads (follow value) next others result →
      Reads (rule >>= follow) state (passed ++ others) result
  | bindFailed {α β : Type} {rule : Rule α} {follow : α → Rule β} {state next : State} {passed : List State}
      {error : SyntaxError} :
      Reads rule state passed (.failed error next) → Reads (rule >>= follow) state passed (.failed error next)
  | bindExhausted {α β : Type} {rule : Rule α} {follow : α → Rule β} {state : State} {passed : List State} :
      Reads rule state passed .exhausted → Reads (rule >>= follow) state passed .exhausted
  | attempt {α : Type} {rule : Rule α} {state : State} {passed : List State} {result : Result α} :
      Reads rule state passed result → Reads (Rule.attempt rule) state passed result.attempted
  /-- A repair remembers where the failed part began. -/
  | recovering {α β : Type} {rule : Rule α} {state : State} {passed : List State} {result : Result α}
      (repair : Recovery.Repair) (kept : α → β) (left : β) :
      Reads rule state passed result →
      Reads (Rule.look Session.rest >>= fun start => Rule.recovering rule (repair.skip start) kept left) state passed
        (result.repaired (skip repair state.tokens) kept left)

/-- The reading of a program along a stream comes to an end, with some budget, and to this one. -/
def ComesTo (tokens : List Token) (reading : Except ReadFailure Reading) : Prop :=
  ∃ n passed result, Reads (Grammar.program n) ⟨Session.supplied .start tokens, []⟩ passed result ∧
    result.reading? = some reading

end Uncut

/-! ### Along the vector and in the session -/

/-- The session with the tokens behind its end of input. -/
def Session.along (session : Session) (behind : List Token) : Uncut.State :=
  ⟨session.uncut behind, session.diagnostics⟩

section

variable {α β : Type}

def Outcome.along (outcome : Outcome α) (behind : List Token) : Uncut.Result α :=
  match outcome with
  | .done value session => .done value (session.along behind)
  | .failed error session => .failed error (session.along behind)
  | .exhausted => .exhausted

/-- However it ends, it ends at a session that reading comes through. -/
def Outcome.ReachedFrom (outcome : Outcome α) (session : Session) : Prop :=
  match outcome with
  | .done _ next | .failed _ next => session.Reaches next
  | .exhausted => True

variable {behind : List Token} {session next : Session} {state : Uncut.State} {outcome : Outcome α} {value : α}
  {error : SyntaxError}

namespace Session

theorem report_along (session : Session) (behind : List Token) (error : SyntaxError) :
    (session.along behind).report error = (session.report error).along behind := by
  unfold Uncut.State.report report justReportedAt
  have hlast : (session.along behind).diagnostics = session.diagnostics := rfl
  rw [hlast]
  cases session.diagnostics.getLast? with
  | none => rfl
  | some last =>
    cases last with
    | lexical => rfl
    | syntactic last =>
      by_cases hsame : last.loc = error.loc
      · simp [hsame]
      · simp only [hsame, decide_false, if_false]
        rfl

/-- Behind a repair is a session that reading comes through. -/
theorem Reaches.repaired (h : session.Reaches next) (repair : Recovery.Repair) (error : SyntaxError) :
    session.Reaches { next.report error with rest := repair.skip session.rest (next.report error).rest } := by
  have hreported : session.Reaches (next.report error) := h.done (.report error) rfl
  cases repair with
  | argument => exact hreported.done .skipArgument rfl
  | body => exact hreported.done .skipToSequential rfl
  | statement => exact .resume (.refl session) hreported

end Session

namespace Outcome

theorem along_eq_done (h : outcome.along behind = .done value state) :
    ∃ next, outcome = .done value next ∧ state = next.along behind := by
  cases outcome with
  | done found next => cases h; exact ⟨next, rfl, rfl⟩
  | failed | exhausted => cases h

theorem along_eq_failed (h : outcome.along behind = .failed error state) :
    ∃ next, outcome = .failed error next ∧ state = next.along behind := by
  cases outcome with
  | failed found next => cases h; exact ⟨next, rfl, rfl⟩
  | done | exhausted => cases h

theorem along_eq_exhausted (h : outcome.along behind = .exhausted) : outcome = .exhausted := by
  cases outcome with
  | exhausted => rfl
  | done | failed => cases h

theorem ReachedFrom.of_reaches (h : outcome.ReachedFrom next) (hreaches : session.Reaches next) :
    outcome.ReachedFrom session := by
  cases outcome with
  | done | failed => exact hreaches.trans h
  | exhausted => trivial

end Outcome

theorem Grammar.Step.reachedFrom {rule : Rule α} (h : Grammar.Step rule) (session : Session) :
    (rule.run session).ReachedFrom session := by
  cases hrun : rule.run session with
  | done => exact .done (.refl session) h hrun
  | failed => exact .failed (.refl session) h hrun
  | exhausted => trivial

namespace Uncut

/-- What is read along the vector is what comes of the session, and the states that are passed are those of sessions
    that reading comes through. -/
structure Agrees (behind : List Token) (session : Session) (outcome : Outcome α) (passed : List State)
    (result : Result α) : Prop where
  result : result = outcome.along behind
  reached : outcome.ReachedFrom session
  passed : ∀ state ∈ passed, ∃ mid, session.Reaches mid ∧ state = mid.along behind

variable {β : Type} {rule : Rule α} {passed others : List State} {result : Result α}

theorem agrees_of_reached (hresult : result = outcome.along behind) (hreached : outcome.ReachedFrom session) :
    Agrees behind session outcome [session.along behind] result where
  result := hresult
  reached := hreached
  passed state hmem := by
    cases List.mem_singleton.1 hmem
    exact ⟨session, .refl session, rfl⟩

theorem agrees_of_step (h : Grammar.Step rule) (hresult : result = (rule.run session).along behind) :
    Agrees behind session (rule.run session) [session.along behind] result :=
  agrees_of_reached hresult (h.reachedFrom session)

theorem take?_along (select : Terminal → Option α) (session : Session) (behind : List Token) :
    take? select (session.along behind).tokens =
      (session.take? select).map fun (found, next) => (found, (next.along behind).tokens) :=
  take?_uncut behind select session

theorem agrees_taken {select : Terminal → Option α} {found : α × Location} {tokens : List Token}
    (h : take? select (session.along behind).tokens = some (found, tokens)) :
    Agrees behind session ((Rule.take? select).run session) [session.along behind]
      (.done (some found) { session.along behind with tokens }) := by
  refine agrees_of_step (.take? select) ?_
  rw [take?_along] at h
  obtain ⟨⟨⟨value, loc⟩, next⟩, htake, htaken⟩ := Option.map_eq_some_iff.1 h
  cases htaken
  obtain ⟨terminal, rest, -, -, rfl⟩ := Session.take?_eq_some_iff.1 htake
  rw [Rule.run_take?, htake]
  rfl

theorem agrees_untaken {select : Terminal → Option α} (h : take? select (session.along behind).tokens = none) :
    Agrees behind session ((Rule.take? select).run session) [session.along behind]
      (.done none (session.along behind)) := by
  refine agrees_of_step (.take? select) ?_
  rw [take?_along, Option.map_eq_none_iff] at h
  rw [Rule.run_take?, h]
  rfl

theorem agrees_increment {tree : Tree} (h : increment? (session.along behind).tokens = some tree) :
    Agrees behind session (Grammar.increment.run session) [session.along behind]
      (.done (some tree) { session.along behind with tokens := (session.along behind).tokens.drop 3 }) := by
  refine agrees_of_step .increment ?_
  have hincrement := (shows_uncut behind session).increment?.symm.trans h
  rw [Grammar.run_increment, hincrement]
  have hlength : 3 ≤ session.rest.length := Nat.le_of_lt (Grammar.length_of_increment? hincrement)
  have hdrop : (session.uncut behind).drop 3 = Session.uncut { session with rest := session.rest.drop 3 } behind := by
    simp only [Session.uncut, Session.tokens, List.append_assoc]
    rw [List.drop_append_of_le_length (by simpa using hlength), List.map_drop]
  exact congrArg (fun tokens => Result.done (some tree) { session.along behind with tokens }) hdrop

theorem agrees_noIncrement (h : increment? (session.along behind).tokens = none) :
    Agrees behind session (Grammar.increment.run session) [session.along behind]
      (.done none (session.along behind)) := by
  refine agrees_of_step .increment ?_
  rw [Grammar.run_increment, (shows_uncut behind session).increment?.symm.trans h]
  rfl

theorem agrees_skipToSequential :
    Agrees behind session ((Rule.skipWith Recovery.skipToSequential).run session) [session.along behind]
      (.done () { session.along behind with
        tokens := skipUntil (· == .keyword .sequential) (session.along behind).tokens }) := by
  refine agrees_of_step .skipToSequential ?_
  have hskip := (shows_uncut behind session).skipToSequential
  exact congrArg (fun tokens => Result.done () { session.along behind with tokens }) hskip

theorem Agrees.bind {follow : α → Rule β} {result : Result β}
    (h : Agrees behind session (rule.run session) passed (.done value state))
    (hfollow : ∀ {next}, state = next.along behind → Agrees behind next ((follow value).run next) others result) :
    Agrees behind session ((rule >>= follow).run session) (passed ++ others) result := by
  obtain ⟨next, hrun, hstate⟩ := Outcome.along_eq_done h.result.symm
  have hbehind := hfollow hstate
  have hnext : session.Reaches next := by
    have hreached := h.reached
    rwa [hrun] at hreached
  rw [Rule.run_bind, hrun]
  refine ⟨hbehind.result, hbehind.reached.of_reaches hnext, fun other hmem => ?_⟩
  rcases List.mem_append.1 hmem with hfirst | hsecond
  · exact h.passed other hfirst
  · obtain ⟨mid, hmid, hother⟩ := hbehind.passed other hsecond
    exact ⟨mid, hnext.trans hmid, hother⟩

theorem Agrees.bindFailed {follow : α → Rule β}
    (h : Agrees behind session (rule.run session) passed (.failed error state)) :
    Agrees behind session ((rule >>= follow).run session) passed (.failed error state) := by
  obtain ⟨hresult, hreached, hpassed⟩ := h
  obtain ⟨next, hrun, rfl⟩ := Outcome.along_eq_failed hresult.symm
  rw [hrun] at hreached
  rw [Rule.run_bind, hrun]
  exact ⟨rfl, hreached, hpassed⟩

theorem Agrees.bindExhausted {follow : α → Rule β}
    (h : Agrees behind session (rule.run session) passed .exhausted) :
    Agrees behind session ((rule >>= follow).run session) passed .exhausted := by
  have hrun := Outcome.along_eq_exhausted h.result.symm
  rw [Rule.run_bind, hrun]
  exact ⟨rfl, trivial, h.passed⟩

theorem Agrees.attempt (h : Agrees behind session (rule.run session) passed result) :
    Agrees behind session ((Rule.attempt rule).run session) passed result.attempted := by
  obtain ⟨rfl, hreached, hpassed⟩ := h
  rw [Rule.run_attempt]
  cases hrun : rule.run session with
  | done | failed =>
    rw [hrun] at hreached
    exact ⟨rfl, hreached, hpassed⟩
  | exhausted => exact ⟨rfl, trivial, hpassed⟩

theorem repaired_along (repair : Recovery.Repair) (error : SyntaxError) (hstop : next.stop = session.stop) :
    { (next.along behind).report error with
      tokens := skip repair (session.along behind).tokens (next.along behind).tokens } =
      Session.along { next.report error with rest := repair.skip session.rest (next.report error).rest } behind := by
  have hskip : skip repair (session.along behind).tokens (next.along behind).tokens =
      Session.uncut { next with rest := repair.skip session.rest next.rest } behind := by
    have hshows := shows_uncut behind next
    cases repair with
    | argument => exact hshows.skipArgument
    | body => exact hshows.skipToSequential
    | statement => exact (shows_uncut behind session).resume hstop
  have hkept : (next.report error).stop = next.stop := (Session.AdvancesTo.report next error).stop
  rw [hskip, Session.report_along, Rule.rest_report]
  simp only [Session.along, Session.uncut, Session.tokens, hkept]

theorem Agrees.recovering (h : Agrees behind session (rule.run session) passed result) (repair : Recovery.Repair)
    (kept : α → β) (left : β) :
    Agrees behind session
      ((Rule.look Session.rest >>= fun start => Rule.recovering rule (repair.skip start) kept left).run session) passed
      (result.repaired (skip repair (session.along behind).tokens) kept left) := by
  obtain ⟨rfl, hreached, hpassed⟩ := h
  rw [Rule.run_look, Rule.run_recovering]
  cases hrun : rule.run session with
  | done value next =>
    rw [hrun] at hreached
    exact ⟨rfl, hreached, hpassed⟩
  | failed error next =>
    rw [hrun] at hreached
    have hstop : next.stop = session.stop := (Session.Reaches.keeps hreached).2
    exact ⟨congrArg (Result.done left) (repaired_along repair error hstop),
      Session.Reaches.repaired hreached repair error, hpassed⟩
  | exhausted => exact ⟨rfl, trivial, hpassed⟩

/-- A reading along the vector comes to what the session reads, and passes only what reading comes through. -/
theorem Reads.agrees (h : Reads rule state passed result) {session : Session} (hstate : state = session.along behind) :
    Agrees behind session (rule.run session) passed result := by
  induction h generalizing session with
  | pure | fail =>
    subst hstate
    exact agrees_of_reached rfl (.refl session)
  | exhausted =>
    subst hstate
    exact agrees_of_reached rfl trivial
  | failHere what htoken =>
    subst hstate
    cases Option.some.inj (htoken.symm.trans (shows_uncut behind session).next)
    exact agrees_of_reached rfl (.refl session)
  | taken htake =>
    subst hstate
    exact agrees_taken htake
  | untaken htake =>
    subst hstate
    exact agrees_untaken htake
  | increment hincrement =>
    subst hstate
    exact agrees_increment hincrement
  | noIncrement hincrement =>
    subst hstate
    exact agrees_noIncrement hincrement
  | record error =>
    subst hstate
    exact agrees_of_step (.record error) rfl
  | skipToSequential =>
    subst hstate
    exact agrees_skipToSequential
  | look hview htoken _ ih =>
    subst hstate
    have hfollow := ih rfl
    rw [hview (Option.some.inj (htoken.symm.trans (shows_uncut behind session).next))] at hfollow
    exact hfollow
  | bind _ _ ih ihfollow => exact (ih hstate).bind fun hnext => ihfollow hnext
  | bindFailed _ ih => exact (ih hstate).bindFailed
  | bindExhausted _ ih => exact (ih hstate).bindExhausted
  | attempt _ ih => exact (ih hstate).attempt
  | recovering repair kept left _ ih =>
    subst hstate
    exact (ih rfl).recovering repair kept left

end Uncut

/-! ### Each rule is read along the vector -/

namespace Rule

variable {β : Type} {rule : Rule α}

/-- The reading of the rule along the vector comes to a result. -/
def GoesAlong (behind : List Token) (session : Session) (rule : Rule α) : Prop :=
  ∃ passed result, Uncut.Reads rule (session.along behind) passed result

theorem goesAlong_bind {follow : α → Rule β} (h : rule.GoesAlong behind session)
    (hfollow : ∀ {value next}, rule.run session = .done value next → (follow value).GoesAlong behind next) :
    (rule >>= follow).GoesAlong behind session := by
  obtain ⟨passed, result, hreads⟩ := h
  cases result with
  | done value state =>
    obtain ⟨next, hrun, rfl⟩ := Outcome.along_eq_done (hreads.agrees rfl).result.symm
    obtain ⟨others, last, hothers⟩ := hfollow hrun
    exact ⟨_, _, .bind hreads hothers⟩
  | failed error state => exact ⟨_, _, .bindFailed hreads⟩
  | exhausted => exact ⟨_, _, .bindExhausted hreads⟩

theorem goesAlong_look {view : Session → α} {follow : α → Rule β}
    (hview : ∀ {session other : Session}, session.next = other.next → view session = view other)
    (h : (follow (view session)).GoesAlong behind session) : (look view >>= follow).GoesAlong behind session := by
  obtain ⟨passed, result, hreads⟩ := h
  exact ⟨passed, result, .look hview (Uncut.shows_uncut behind session).next hreads⟩

theorem goesAlong_failHere (what : Expectation) : (failHere what : Rule α).GoesAlong behind session :=
  ⟨_, _, .failHere what (Uncut.shows_uncut behind session).next⟩

theorem goesAlong_take? (select : Terminal → Option α) : (take? select).GoesAlong behind session := by
  cases htake : Uncut.take? select (session.along behind).tokens with
  | none => exact ⟨_, _, .untaken htake⟩
  | some taken => exact ⟨_, _, .taken htake⟩

theorem goesAlong_increment : Grammar.increment.GoesAlong behind session := by
  cases hincrement : Uncut.increment? (session.along behind).tokens with
  | none => exact ⟨_, _, .noIncrement hincrement⟩
  | some tree => exact ⟨_, _, .increment hincrement⟩

theorem goesAlong_guard {n : Nat} (h : (Grammar.binary n Precedence.ladder).GoesAlong behind session) :
    (Grammar.guard n).GoesAlong behind session := by
  refine goesAlong_look (fun hnext => hnext) (goesAlong_bind h fun {tree next} _ => ?_)
  split
  · exact ⟨_, _, .pure tree _⟩
  · exact ⟨_, _, .fail _ _⟩

theorem goesAlong_attempt (h : rule.GoesAlong behind session) : (attempt rule).GoesAlong behind session := by
  obtain ⟨passed, result, hreads⟩ := h
  exact ⟨passed, _, hreads.attempt⟩

theorem goesAlong_recovering {kept : α → β} {left : β} (h : rule.GoesAlong behind session) (repair : Recovery.Repair) :
    (look Session.rest >>= fun start => recovering rule (repair.skip start) kept left).GoesAlong behind session := by
  obtain ⟨passed, result, hreads⟩ := h
  exact ⟨passed, _, hreads.recovering repair kept left⟩

theorem Composed.goesAlong {crosses : Prop} {ahead : Token → Prop} (h : rule.Composed crosses ahead)
    (behind : List Token) : ∀ {session : Session}, ahead session.next → rule.GoesAlong behind session := by
  induction h with
  | pure value => exact fun _ => ⟨_, _, .pure value _⟩
  | exhausted => exact fun _ => ⟨_, _, .exhausted _⟩
  | failHere what => exact fun _ => goesAlong_failHere what
  | bind _ _ ih ihfollow => exact fun hahead => goesAlong_bind (ih hahead) fun _ => ihfollow _ trivial
  | look hview _ ih => exact fun hahead => goesAlong_look hview (ih _ hahead rfl)
  | take? _ => exact fun _ => goesAlong_take? _
  | increment => exact fun _ => goesAlong_increment
  | guard n _ ih => exact fun hahead => goesAlong_guard (ih hahead)
  | recovering repair _ _ _ ih => exact fun hahead => goesAlong_recovering (ih hahead) repair

end Rule

end

namespace Grammar

open Rule

variable (n : Nat) {behind : List Token} {session : Session}

theorem brokenProgram_goesAlong (error : SyntaxError) : (brokenProgram n error).GoesAlong behind session := by
  refine goesAlong_bind ⟨_, _, .skipToSequential _⟩ fun _ => ?_
  have hsequential : (sequentialSpec n).Composed True fun _ => True := sequentialSpec_composed n trivial
  refine goesAlong_bind (goesAlong_attempt (hsequential.goesAlong behind trivial)) fun {ended next} _ => ?_
  cases ended with
  | ok => exact ⟨_, _, .fail error _⟩
  | error second => exact goesAlong_bind ⟨_, _, .record second _⟩ fun _ => ⟨_, _, .fail error _⟩

theorem program_goesAlong : (program n).GoesAlong behind session := by
  refine goesAlong_look (fun hnext => congrArg Token.loc hnext) ?_
  have hjoin : (joinSpec n).Composed False fun _ => True := joinSpec_composed n
  refine goesAlong_bind (goesAlong_attempt (hjoin.goesAlong behind trivial)) fun {ended next} _ => ?_
  cases ended with
  | error error => exact brokenProgram_goesAlong n error
  | ok join =>
    have hbehind : (programBehind n session.next.loc join).Composed True fun _ => True :=
      programBehind_composed n trivial _ join
    exact hbehind.goesAlong behind trivial

end Grammar

namespace Uncut

variable {behind : List Token} {session : Session}

/-- A program is read along the vector to what comes of the session, and to nothing else. -/
theorem reads_program_iff {n : Nat} {result : Result Tree} :
    (∃ passed, Reads (Grammar.program n) (session.along behind) passed result) ↔
      result = ((Grammar.program n).run session).along behind := by
  constructor
  · rintro ⟨passed, hreads⟩
    exact (hreads.agrees rfl).result
  · rintro rfl
    obtain ⟨passed, result, hreads⟩ := Grammar.program_goesAlong n
    exact ⟨passed, (hreads.agrees rfl).result ▸ hreads⟩

end Uncut

end RoutineSpec
