import RoutineSpec.Proofs.Budget
import RoutineSpec.Proofs.Resumption

/-! # Positions

A session stands at a position of its token vector: what it has left to read stands there, up to the first end of
input. No step of reading leads out of the vector or past that end, a block goes on behind where each of its statements
began, and reading a program comes to an end, however often it is asked for.
-/

namespace RoutineSpec

namespace Session

/-- The session stands at a position of a token vector. What it has left to read is there, and the first end of input
    at or behind the position is at `ending`. -/
structure StandsAt (vector : List Token) (position ending : Nat) (session : Session) : Prop where
  tokens : session.tokens <+: vector.drop position
  length : position + session.rest.length = ending
  inside : ending < vector.length

variable {vector : List Token} {position ending : Nat} {session next first stopped : Session}

/-- The token at the position is the next one of the session. -/
theorem StandsAt.getElem? (h : session.StandsAt vector position ending) : vector[position]? = some session.next := by
  obtain ⟨behind, hbehind⟩ := h.tokens
  have hfirst : (vector.drop position)[0]? = some session.next := by
    rw [← hbehind]
    unfold Session.tokens Session.next
    cases session.rest <;> rfl
  simpa using hfirst

/-- A session that has read some lexemes stands behind them. -/
theorem StandsAt.behind {span : List Lexeme} (h : session.StandsAt vector position ending)
    (hrest : session.rest = span ++ next.rest) (hstop : next.stop = session.stop) :
    vector.drop position = span.map .lexeme ++ vector.drop (position + span.length) ∧
      next.StandsAt vector (position + span.length) ending := by
  obtain ⟨behind, hbehind⟩ := h.tokens
  have htokens : session.tokens = span.map .lexeme ++ next.tokens := by
    rw [Session.tokens, hrest, Session.tokens, hstop, List.map_append, List.append_assoc]
  have hdrop : vector.drop (position + span.length) = next.tokens ++ behind := by
    rw [← List.drop_drop, ← hbehind, htokens, List.append_assoc]
    exact List.drop_left' (by simp)
  refine ⟨?_, ⟨behind, hdrop.symm⟩, ?_, h.inside⟩
  · rw [hdrop, ← hbehind, htokens, List.append_assoc]
  · rw [← h.length, hrest, List.length_append, Nat.add_assoc]

/-- A session that has read on, up to the same end of input, stands further on. -/
theorem StandsAt.of_suffix (h : session.StandsAt vector position ending) (hrest : next.rest <:+ session.rest)
    (hstop : next.stop = session.stop) : ∃ further, position ≤ further ∧ next.StandsAt vector further ending := by
  obtain ⟨span, hspan⟩ := hrest
  exact ⟨_, Nat.le_add_right _ _, (h.behind hspan.symm hstop).2⟩

/-- What a reader that keeps the whole vector has left at a position. -/
def standing (vector : List Token) (position : Nat) (diagnostics : List Diagnostic) : Session :=
  let left := readable .start (vector.drop position)
  ⟨left.1, left.2, diagnostics⟩

/-- What is read of some tokens up to an end of input is at their start. -/
theorem tokens_readable (last : Location) {tokens : List Token} (h : ∃ loc, .endOfInput loc ∈ tokens) :
    (readable last tokens).1.map .lexeme ++ [.endOfInput (readable last tokens).2] <+: tokens := by
  induction tokens generalizing last with
  | nil =>
    obtain ⟨loc, hmem⟩ := h
    cases hmem
  | cons token tokens ih =>
    cases token with
    | endOfInput loc => exact ⟨tokens, rfl⟩
    | lexeme lexeme =>
      obtain ⟨loc, hmem⟩ := h
      have hothers : ∃ loc, .endOfInput loc ∈ tokens := ⟨loc, by simpa using hmem⟩
      exact List.cons_prefix_cons.2 ⟨rfl, ih lexeme.loc hothers⟩

theorem standsAt_standing (h : ∃ loc, .endOfInput loc ∈ vector.drop position) (diagnostics : List Diagnostic) :
    (standing vector position diagnostics).StandsAt vector position
      (position + (standing vector position diagnostics).rest.length) := by
  have htokens : (standing vector position diagnostics).tokens <+: vector.drop position := tokens_readable .start h
  have hlength := htokens.length_le
  simp only [Session.tokens, List.length_append, List.length_map, List.length_singleton, List.length_drop] at hlength
  exact ⟨htokens, rfl, by omega⟩

theorem exists_supplied (last : Location) (tokens : List Token) :
    ∃ front loc, supplied last tokens = front ++ [.endOfInput loc] := by
  fun_induction supplied last tokens with
  | case1 last => exact ⟨[], last, rfl⟩
  | case2 last loc => exact ⟨[], loc, rfl⟩
  | case3 last token tokens _ ih =>
    obtain ⟨front, loc, hsupplied⟩ := ih
    exact ⟨token :: front, loc, congrArg (token :: ·) hsupplied⟩

/-- There is an end of input at or behind each position. -/
theorem exists_endOfInput_mem_drop (last : Location) {tokens : List Token} (h : position < (supplied last tokens).length) :
    ∃ loc, .endOfInput loc ∈ (supplied last tokens).drop position := by
  obtain ⟨front, loc, hsupplied⟩ := exists_supplied last tokens
  rw [hsupplied] at h ⊢
  rw [List.length_append, List.length_singleton] at h
  rw [List.drop_append_of_le_length (Nat.le_of_lt_succ h)]
  exact ⟨loc, List.mem_append_right _ (List.mem_singleton_self _)⟩

/-- A new session stands at the start of its vector. -/
theorem standsAt_ofTokens (tokens : List Token) :
    (ofTokens tokens).StandsAt (supplied .start tokens) 0 (ofTokens tokens).rest.length := by
  have hfirst : 0 < (supplied .start tokens).length := by
    obtain ⟨front, loc, hsupplied⟩ := exists_supplied .start tokens
    simp [hsupplied]
  have hstanding : standing (supplied .start tokens) 0 [] = ofTokens tokens := by
    rw [standing, readable_drop_supplied .start .start tokens (Nat.zero_le _)]
    rfl
  have hstands := standsAt_standing (exists_endOfInput_mem_drop .start hfirst) []
  rw [hstanding, Nat.zero_add] at hstands
  exact hstands

end Session

/-- The rules of the grammar, and the steps that they consist of. -/
inductive Grammar.Step : {α : Type} → Rule α → Prop where
  | take? {α : Type} (select : Terminal → Option α) : Step (Rule.take? select)
  | accept (terminal : Terminal) : Step (Rule.accept terminal)
  | expect (terminal : Terminal) (what : Expectation) : Step (Rule.expect terminal what)
  | identifier : Step Rule.identifier
  | report (error : SyntaxError) : Step (Rule.report error)
  | record (error : SyntaxError) : Step (Rule.record error)
  | skipArgument : Step (Rule.skipWith Recovery.skipArgument)
  | skipToSequential : Step (Rule.skipWith Recovery.skipToSequential)
  | expression (n : Nat) : Step (expression n)
  | binary (n : Nat) (levels : List Precedence) : Step (binary n levels)
  | chain (n : Nat) (level : Precedence) (tighter : List Precedence) (left : Tree) : Step (chain n level tighter left)
  | unary (n : Nat) : Step (unary n)
  | suffixed (n : Nat) : Step (suffixed n)
  | suffixes (n : Nat) (operand : Tree) : Step (suffixes n operand)
  | callArguments (n : Nat) : Step (callArguments n)
  | expressions (n : Nat) : Step (expressions n)
  | primary (n : Nat) : Step (primary n)
  | guard (n : Nat) : Step (guard n)
  | increment : Step increment
  | assignment (n : Nat) : Step (assignment n)
  | statement (n : Nat) : Step (statement n)
  | selection (n : Nat) (loc : Location) : Step (selection n loc)
  | iteration (n : Nat) (loc : Location) : Step (iteration n loc)
  | block (n : Nat) (loc : Location) : Step (block n loc)
  | statements (n : Nat) : Step (statements n)
  | statementIfSound (n : Nat) : Step (statementIfSound n)
  | dataType : Step dataType
  | argument : Step argument
  | argumentIfSound : Step argumentIfSound
  | arguments (n : Nat) : Step (arguments n)
  | argumentList (n : Nat) : Step (argumentList n)
  | identifiers (n : Nat) : Step (identifiers n)
  | identifierList (n : Nat) : Step (identifierList n)
  | returnsClause (n : Nat) : Step (returnsClause n)
  | localsClause (n : Nat) : Step (localsClause n)
  | joinBody (n : Nat) : Step (joinBody n)
  | joinSpec (n : Nat) : Step (joinSpec n)
  | sequentialSpec (n : Nat) : Step (sequentialSpec n)
  | programBehind (n : Nat) (loc : Location) (join : Tree) : Step (programBehind n loc join)
  | brokenProgram (n : Nat) (error : SyntaxError) : Step (brokenProgram n error)
  | program (n : Nat) : Step (program n)

namespace Grammar

/-- No step goes back. -/
theorem Step.advances {α : Type} {rule : Rule α} (h : Step rule) : rule.Advances := by
  cases h with
  | take? select => exact Rule.advances_take? select
  | accept terminal => exact Rule.advances_accept terminal
  | expect terminal what => exact Rule.advances_expect terminal what
  | identifier => exact Rule.advances_identifier
  | report error => exact Rule.advances_report error
  | record error => exact Rule.advances_record error
  | skipArgument => exact Rule.advances_skipWith Recovery.skipArgument_suffix
  | skipToSequential => exact Rule.advances_skipWith Recovery.skipToSequential_suffix
  | expression n => exact expression_advances n
  | binary n levels => exact binary_advances n levels
  | chain n level tighter left => exact chain_advances n level tighter left
  | unary n => exact unary_advances n
  | suffixed n => exact suffixed_advances n
  | suffixes n operand => exact suffixes_advances n operand
  | callArguments n => exact callArguments_advances n
  | expressions n => exact expressions_advances n
  | primary n => exact primary_advances n
  | guard n => exact guard_advances n
  | increment => exact increment_advances
  | assignment n => exact assignment_advances n
  | statement n => exact statement_advances n
  | selection n loc => exact selection_advances n loc
  | iteration n loc => exact iteration_advances n loc
  | block n loc => exact block_advances n loc
  | statements n => exact statements_advances n
  | statementIfSound n => exact statementIfSound_advances n
  | dataType => exact dataType_advances
  | argument => exact argument_advances
  | argumentIfSound => exact argumentIfSound_advances
  | arguments n => exact arguments_advances n
  | argumentList n => exact argumentList_advances n
  | identifiers n => exact identifiers_advances n
  | identifierList n => exact identifierList_advances n
  | returnsClause n => exact returnsClause_advances n
  | localsClause n => exact localsClause_advances n
  | joinBody n => exact joinBody_advances n
  | joinSpec n => exact joinSpec_advances n
  | sequentialSpec n => exact sequentialSpec_advances n
  | programBehind n loc join => exact programBehind_advances n loc join
  | brokenProgram n error => exact brokenProgram_advances n error
  | program n => exact program_advances n

end Grammar

/-- The sessions that reading can come through, step after step. A block goes back to where a statement began, and on
    from there; a program that is not read leaves no diagnostics. -/
inductive Session.Reaches : Session → Session → Prop where
  | refl (session : Session) : Reaches session session
  | done {α : Type} {session mid next : Session} {rule : Rule α} {value : α} :
      Reaches session mid → Grammar.Step rule → rule.run mid = .done value next → Reaches session next
  | failed {α : Type} {session mid next : Session} {rule : Rule α} {error : SyntaxError} :
      Reaches session mid → Grammar.Step rule → rule.run mid = .failed error next → Reaches session next
  | resume {session first stopped : Session} : Reaches session first → Reaches first stopped →
      Reaches session { stopped with rest := Recovery.resume first.rest stopped.rest }
  | handOver {session next : Session} : Reaches session next → Reaches session { next with diagnostics := [] }

namespace Session

variable {vector : List Token} {position ending : Nat} {session next : Session}

theorem Reaches.keeps (h : session.Reaches next) : next.rest <:+ session.rest ∧ next.stop = session.stop := by
  induction h with
  | refl session => exact ⟨List.suffix_refl _, rfl⟩
  | done _ hstep hrun ih =>
    have hadvances := hstep.advances.done hrun
    exact ⟨hadvances.rest.trans ih.1, hadvances.stop.trans ih.2⟩
  | failed _ hstep hrun ih =>
    have hadvances := hstep.advances.failed hrun
    exact ⟨hadvances.rest.trans ih.1, hadvances.stop.trans ih.2⟩
  | resume _ _ ih ih' => exact ⟨(Recovery.resume_suffix ih'.1).trans ih.1, ih'.2.trans ih.2⟩
  | handOver _ ih => exact ih

theorem Reaches.trans (h : session.Reaches next) {last : Session} (h' : next.Reaches last) : session.Reaches last := by
  induction h' with
  | refl => exact h
  | done _ hstep hrun ih => exact (ih h).done hstep hrun
  | failed _ hstep hrun ih => exact (ih h).failed hstep hrun
  | resume _ hstopped ih _ => exact (ih h).resume hstopped
  | handOver _ ih => exact (ih h).handOver

theorem Reaches.readProgram (h : session.Reaches next) : session.Reaches next.readProgram.2 := by
  obtain ⟨program, last, hrun, hread⟩ | ⟨error, last, hrun, hread⟩ := next.readProgram_cases
  · rw [hread]
    exact h.done (.program _) hrun
  · rw [hread]
    exact (h.failed (.program _) hrun).handOver

theorem reaches_resumed (session : Session) (calls : Nat) : session.Reaches (session.resumed calls) := by
  induction calls with
  | zero => exact .refl session
  | succ calls ih => exact ih.readProgram

/-- The budget of a program changes nothing, as long as it is large enough. -/
theorem run_program_of_budget {n : Nat} (h : Grammar.budget session ≤ n) :
    (Grammar.program n).run session = (Grammar.program (Grammar.budget session)).run session :=
  Grammar.program_extends h session (Grammar.program_ne_exhausted session)

end Session

namespace Grammar

/-- Whether a statement of a block is read or skipped, less is left to read behind it. Nothing else becomes of it. -/
theorem statementIfSound_progress (n : Nat) {session : Session} (hend : ¬ atBlockEnd session = true) :
    match (statementIfSound n).run session with
    | .done _ next => next.rest.length < session.rest.length
    | .failed _ _ => False
    | .exhausted => n < 16 * session.rest.length + 4 := by
  have hrest := rest_ne_nil_of_not_atBlockEnd hend
  have hwithin : 16 * session.rest.length + 4 ≤ n → (statementIfSound n).run session ≠ .exhausted :=
    fun hbudget => (statementIfSound_within n session hbudget hrest).ne_exhausted
  have hlength : ∀ {trees next}, (statementIfSound n).run session = .done trees next →
      next.rest.length < session.rest.length := by
    intro trees next hrun
    -- The same comes of it with a budget that is large enough.
    have hlarge := statementIfSound_within _ session (Nat.le_max_right n _) hrest
    rw [Rule.Within, statementIfSound_extends (Nat.le_max_left n _) session (by simp [hrun]), hrun] at hlarge
    exact hlarge
  cases hrun : (statementIfSound n).run session with
  | done trees next => exact hlength hrun
  | exhausted => exact Nat.lt_of_not_le fun hbudget => hwithin hbudget hrun
  | failed error next =>
    cases n with
    | zero => cases hrun
    | succ n =>
      rw [statementIfSound_eq, Rule.run_look, Rule.run_recovering] at hrun
      cases hstatement : (statement n).run session with
      | done | failed | exhausted => simp [hstatement] at hrun

end Grammar

namespace Session

variable {vector : List Token} {position ending : Nat} {session next : Session}

/-- Whatever reading comes through stands in the vector, and not past the first end of input. -/
theorem StandsAt.of_reaches (h : session.StandsAt vector position ending) (hreaches : session.Reaches next) :
    ∃ further, position ≤ further ∧ next.StandsAt vector further ending :=
  h.of_suffix hreaches.keeps.1 hreaches.keeps.2

theorem StandsAt.lt_of_length_lt {further : Nat} (h : session.StandsAt vector position ending)
    (hnext : next.StandsAt vector further ending) (hlength : next.rest.length < session.rest.length) :
    position < further := by
  have hstart := h.length
  have hfurther := hnext.length
  omega

/-- A statement of a block ends further on than it began. -/
theorem StandsAt.statementIfSound (h : session.StandsAt vector position ending) (n : Nat)
    (hend : ¬ Grammar.atBlockEnd session = true) :
    match (Grammar.statementIfSound n).run session with
    | .done _ next => ∃ further, position < further ∧ next.StandsAt vector further ending
    | .failed _ _ => False
    | .exhausted => n < 16 * session.rest.length + 4 := by
  have hprogress := Grammar.statementIfSound_progress n hend
  cases hrun : (Grammar.statementIfSound n).run session with
  | done trees next =>
    rw [hrun] at hprogress
    have hadvances := (Grammar.statementIfSound_advances n).done hrun
    obtain ⟨further, -, hnext⟩ := h.of_suffix hadvances.rest hadvances.stop
    exact ⟨further, h.lt_of_length_lt hnext hprogress, hnext⟩
  | failed | exhausted =>
    rw [hrun] at hprogress
    exact hprogress

/-- No step of reading, on any tokens and for any number of programs, leads out of the token vector, back to before an
    earlier position, or past the first end of input. Each program that is asked for is read to an end, with any budget
    that is large enough. A statement of a block ends further on than it began, whether it is read or skipped. -/
theorem reaches_inside (tokens : List Token) :
    let vector := supplied .start tokens
    let start := ofTokens tokens
    let ending := start.rest.length
    (∀ calls,
      let session := start.resumed calls
      start.Reaches session ∧
        ∀ n, Grammar.budget session ≤ n →
          (Grammar.program n).run session = (Grammar.program (Grammar.budget session)).run session ∧
          (Grammar.program n).run session ≠ .exhausted) ∧
    ∀ session, start.Reaches session → ∃ position, session.StandsAt vector position ending ∧
      vector[position]? = some session.next ∧
      (∀ next, session.Reaches next → ∃ further, position ≤ further ∧ next.StandsAt vector further ending) ∧
      ∀ n, ¬ Grammar.atBlockEnd session = true →
        match (Grammar.statementIfSound n).run session with
        | .done _ next => ∃ further, position < further ∧ next.StandsAt vector further ending
        | .failed _ _ => False
        | .exhausted => n < 16 * session.rest.length + 4 := by
  intro vector start ending
  constructor
  · intro calls session
    refine ⟨start.reaches_resumed calls, fun n hbudget => ?_⟩
    have hrun := run_program_of_budget hbudget
    exact ⟨hrun, hrun ▸ Grammar.program_ne_exhausted session⟩
  · intro session hreaches
    obtain ⟨position, -, hstands⟩ := (standsAt_ofTokens tokens).of_reaches hreaches
    exact ⟨position, hstands, hstands.getElem?, fun next hnext => hstands.of_reaches hnext, hstands.statementIfSound⟩

end Session

end RoutineSpec
