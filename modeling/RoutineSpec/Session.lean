import RoutineSpec.Diagnostic
import RoutineSpec.Token.Scan

/-! # Sessions

A session is a token stream on the way through the grammar: what is left to read, where it ends, and the
diagnostics collected so far.
-/

namespace RoutineSpec

/-- The state of reading a stream. -/
structure Session where
  /-- The lexemes that are not read yet. -/
  rest : List Lexeme
  /-- The place of the end of input behind them. -/
  stop : Location
  /-- The diagnostics so far, the oldest first. -/
  diagnostics : List Diagnostic
  deriving Repr, DecidableEq

namespace Session

/-- The lexemes of a stream before its first end of input, and the place of that end. Where the stream has
    no end of input, one is supplied at its last token, or at `last` if it has none. -/
def readable (last : Location) : List Token → List Lexeme × Location
  | [] => ([], last)
  | .endOfInput loc :: _ => ([], loc)
  | .lexeme lexeme :: tokens =>
    let (rest, stop) := readable lexeme.loc tokens
    (lexeme :: rest, stop)

/-- A session that starts on a stream of tokens. -/
def ofTokens (tokens : List Token) : Session :=
  let (rest, stop) := readable .start tokens
  ⟨rest, stop, []⟩

/-- A session that starts on a source text, with the lexical errors of the text as its diagnostics. -/
def ofSource (policy : DecimalPolicy) (source : String) : Session :=
  let scan := Scan.of policy source
  { ofTokens scan.tokens with diagnostics := scan.errors.map .lexical }

/-- The token that comes next. -/
def next (session : Session) : Token :=
  match session.rest with
  | [] => .endOfInput session.stop
  | lexeme :: _ => .lexeme lexeme

/-- Nothing is left to read. -/
def atEnd (session : Session) : Bool :=
  session.rest.isEmpty

/-- The next lexeme is one of the given terminals. -/
def follows (terminals : List Terminal) (session : Session) : Bool :=
  match session.rest with
  | [] => false
  | lexeme :: _ => terminals.contains lexeme.terminal

/-- Read the next lexeme if `select` makes something of its terminal; what it makes comes with the place of
    the lexeme, and with the session behind it. -/
def take? {α : Type} (select : Terminal → Option α) (session : Session) :
    Option ((α × Location) × Session) :=
  match session.rest with
  | [] => none
  | lexeme :: rest =>
    (select lexeme.terminal).map fun value => ((value, lexeme.loc), { session with rest })

theorem take?_eq_some_iff {α : Type} {select : Terminal → Option α} {session next : Session} {value : α}
    {loc : Location} :
    session.take? select = some ((value, loc), next) ↔
      ∃ terminal rest, session.rest = ⟨terminal, loc⟩ :: rest ∧ select terminal = some value ∧
        next = { session with rest } := by
  unfold take?
  cases hrest : session.rest with
  | nil => simp
  | cons lexeme rest =>
    obtain ⟨terminal, place⟩ := lexeme
    cases hselect : select terminal with
    | none => simp [hselect]
    | some found =>
      simp only [hselect, Option.map_some, Option.some.injEq, Prod.mk.injEq, List.cons.injEq,
        Lexeme.mk.injEq]
      constructor
      · rintro ⟨⟨rfl, rfl⟩, rfl⟩
        exact ⟨terminal, rest, ⟨⟨rfl, rfl⟩, rfl⟩, hselect, rfl⟩
      · rintro ⟨_, _, ⟨⟨rfl, rfl⟩, rfl⟩, hvalue, rfl⟩
        simp_all

/-- The last diagnostic is a syntax error at `loc`. -/
def justReportedAt (session : Session) (loc : Location) : Bool :=
  match session.diagnostics.getLast? with
  | some (.syntactic error) => error.loc = loc
  | _ => false

/-- Add a diagnostic. -/
def record (session : Session) (diagnostic : Diagnostic) : Session :=
  { session with diagnostics := session.diagnostics ++ [diagnostic] }

/-- Report a syntax error that the grammar gets over. One that every enclosing level meets at the same place
    is reported once. -/
def report (session : Session) (error : SyntaxError) : Session :=
  if session.justReportedAt error.loc then session else session.record (.syntactic error)

end Session

end RoutineSpec
