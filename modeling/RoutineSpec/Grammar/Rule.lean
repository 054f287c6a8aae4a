import RoutineSpec.Session

/-! # Rules

A rule of the grammar reads from a session and either is done, with a value, or fails, with a syntax
error. It leaves the session where it stopped in both cases, so that a caller can go on from there.

Recursive rules take a budget of steps. A rule whose budget runs out is exhausted, which is neither of
the two; `RoutineSpec.Grammar.Progress` shows that the budget of a whole program never runs out.
-/

namespace RoutineSpec

/-- How the reading of a rule ends. -/
inductive Outcome (α : Type) where
  | done (value : α) (session : Session)
  | failed (error : SyntaxError) (session : Session)
  | exhausted

/-- What reads an `α` from a session. -/
structure Rule (α : Type) where
  run : Session → Outcome α

namespace Rule

variable {α β : Type}

instance : Monad Rule where
  pure value := ⟨fun session => .done value session⟩
  bind rule follow := ⟨fun session =>
    match rule.run session with
    | .done value next => (follow value).run next
    | .failed error next => .failed error next
    | .exhausted => .exhausted⟩

@[simp] theorem run_pure (value : α) (session : Session) :
    (pure value : Rule α).run session = .done value session := rfl

theorem run_bind (rule : Rule α) (follow : α → Rule β) (session : Session) :
    (rule >>= follow).run session =
      match rule.run session with
      | .done value next => (follow value).run next
      | .failed error next => .failed error next
      | .exhausted => .exhausted := rfl

/-- The budget has run out. -/
def exhausted : Rule α := ⟨fun _ => .exhausted⟩

def fail (error : SyntaxError) : Rule α := ⟨fun session => .failed error session⟩

/-- Fail because the next token is not what is expected. -/
def failHere (what : Expectation) : Rule α := ⟨fun session =>
  .failed ⟨.expected what, session.next.describe, session.next.loc⟩ session⟩

/-- Look at the session without reading. -/
def look (view : Session → α) : Rule α := ⟨fun session => .done (view session) session⟩

/-- Go on with a changed session. -/
def update (change : Session → Session) : Rule Unit := ⟨fun session => .done () (change session)⟩

/-- Read the next lexeme if `select` makes something of its terminal; what it makes comes with the place of
    the lexeme. -/
def take? (select : Terminal → Option α) : Rule (Option (α × Location)) := ⟨fun session =>
  match session.take? select with
  | none => .done none session
  | some (found, next) => .done (some found) next⟩

/-- Read the next lexeme if it is the given terminal, and tell its place. -/
def accept (terminal : Terminal) : Rule (Option Location) := ⟨fun session =>
  match session.take? terminal.same? with
  | none => .done none session
  | some ((_, loc), next) => .done (some loc) next⟩

theorem run_take? (select : Terminal → Option α) (session : Session) :
    (take? select).run session =
      match session.take? select with
      | none => .done none session
      | some (found, next) => .done (some found) next := rfl

theorem run_accept (terminal : Terminal) (session : Session) :
    (accept terminal).run session =
      match session.take? terminal.same? with
      | none => .done none session
      | some ((_, loc), next) => .done (some loc) next := rfl

/-- Read with a rule, and hand its failure over as a value. -/
def attempt (rule : Rule α) : Rule (Except SyntaxError α) := ⟨fun session =>
  match rule.run session with
  | .done value next => .done (.ok value) next
  | .failed error next => .done (.error error) next
  | .exhausted => .exhausted⟩

theorem run_attempt (rule : Rule α) (session : Session) :
    (attempt rule).run session =
      match rule.run session with
      | .done value next => .done (.ok value) next
      | .failed error next => .done (.error error) next
      | .exhausted => .exhausted := rfl

/-- The place of the token that comes next. -/
def here : Rule Location := look fun session => session.next.loc

/-- The next lexeme is one of the given terminals. It is not read. -/
def follows (terminals : List Terminal) : Rule Bool := look (Session.follows terminals)

/-- Go on with what `skip` leaves of the lexemes. -/
def skipWith (skip : List Lexeme → List Lexeme) : Rule Unit :=
  update fun session => { session with rest := skip session.rest }

/-- Report an error and go on. -/
def report (error : SyntaxError) : Rule Unit :=
  update fun session => session.report error

/-- Add an error to the diagnostics, even if the last one is at the same place. -/
def record (error : SyntaxError) : Rule Unit :=
  update fun session => session.record (.syntactic error)

/-- Read the next lexeme, which must be the given terminal. -/
def expect (terminal : Terminal) (what : Expectation) : Rule Unit := do
  match ← accept terminal with
  | some _ => return ()
  | none => failHere what

/-- Read a name. -/
def identifier : Rule (String × Location) := do
  match ← take? Terminal.name? with
  | some found => return found
  | none => failHere .identifier

end Rule

end RoutineSpec
