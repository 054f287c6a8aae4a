import RoutineSpec.Proofs.ExpressionComplete
import RoutineSpec.Proofs.ProgramSound

/-! # Phrases of programs are read

In front of a phrase the rules for statements, declarations and specifications read that phrase and report
nothing. Three things have to be seen to: an equation is not taken for an increment, an `else` is not taken from
the `if` that it belongs to, and no statement of a block is taken for the end of the block.
-/

namespace RoutineSpec

namespace Terminal

/-- What the first lexeme of a statement can be. -/
def startsStatement (terminal : Terminal) : Bool :=
  terminal.startsOperand || Recovery.startsCompound terminal

/-- What can stand behind an assignment. -/
def EndsAssignment (terminal : Terminal) : Prop :=
  terminal = .mark .semicolon ∨ terminal = .mark .closeParen

theorem EndsAssignment.endsExpression {terminal : Terminal} (h : terminal.EndsAssignment) :
    terminal.EndsExpression := by
  rcases h with rfl | rfl
  · decide
  · decide

end Terminal

namespace Phrase

variable {Adjacent : Location → Location → Prop} {span : List Lexeme} {tree : Tree}

theorem Assignment.starts (h : Assignment Adjacent span tree) :
    ∃ first others, span = first :: others ∧ first.terminal.startsOperand = true := by
  cases h with
  | increment => exact ⟨_, _, rfl, rfl⟩
  | equation targetPhrase _ =>
    obtain ⟨first, others, htarget, hstart⟩ := targetPhrase.starts
    cases htarget
    exact ⟨_, _, rfl, hstart⟩

/-- No assignment starts like another statement. -/
theorem Assignment.head_ne {terminal : Terminal} {more : List Lexeme} (h : Assignment Adjacent span tree)
    (hcompound : Recovery.startsCompound terminal = true) :
    ∀ lexeme ∈ (span ++ more).head?, lexeme.terminal ≠ terminal := by
  obtain ⟨first, others, rfl, hstart⟩ := h.starts
  intro lexeme hmem hsame
  cases hmem
  rw [hsame] at hstart
  unfold Terminal.startsOperand at hstart
  split at hstart
  case h_6 => cases hstart
  all_goals cases hcompound

/-- The first of the lexemes can be that of a statement. -/
def StartsStatement (span : List Lexeme) : Prop :=
  ∃ first others, span = first :: others ∧ first.terminal.startsStatement = true

/-- No statement starts with an `else`. -/
theorem StartsStatement.not_else {more : List Lexeme} (h : StartsStatement span) :
    ∀ lexeme ∈ (span ++ more).head?, lexeme.terminal ≠ .keyword .else_ := by
  obtain ⟨first, others, rfl, hstart⟩ := h
  intro lexeme hmem helse
  cases hmem
  rw [helse] at hstart
  cases hstart

theorem Statement.starts (h : Statement Adjacent span tree) : StartsStatement span := by
  cases h with
  | assignment phrase =>
    obtain ⟨first, others, rfl, hstart⟩ := phrase.starts
    exact ⟨first, _, rfl, by simp [Terminal.startsStatement, hstart]⟩
  | ifThen | ifThenElse | iteration | block => exact ⟨_, _, rfl, rfl⟩

/-- Behind a name with which a suffixed operand starts comes a suffix, if anything. -/
theorem Suffixed.second : ∀ {span tree}, Suffixed span tree → ∀ {name loc others},
    span = ⟨.identifier name, loc⟩ :: others →
    ∀ second ∈ others.head?, second.terminal = .mark .openBracket ∨ second.terminal = .mark .openParen
  | _, _, .primary phrase, _, _, _, hspan, second, hsecond => by
    cases phrase with
    | name => cases hspan; cases hsecond
    | integer | true_ | false_ | group => cases hspan
  | _, _, .index basePhrase _, _, _, _, hspan, second, hsecond => by
    have ih := @Suffixed.second _ _ basePhrase
    obtain ⟨first, others, rfl, -⟩ := basePhrase.starts
    cases hspan
    cases others with
    | nil => cases hsecond; exact .inl rfl
    | cons => exact ih rfl second hsecond
  | _, _, .call calleePhrase _, _, _, _, hspan, second, hsecond => by
    have ih := @Suffixed.second _ _ calleePhrase
    obtain ⟨first, others, rfl, -⟩ := calleePhrase.starts
    cases hspan
    cases others with
    | nil => cases hsecond; exact .inr rfl
    | cons => exact ih rfl second hsecond

/-- A list starts with an item. -/
theorem Listed.first {Item : List Lexeme → Tree → Prop} {trees : List Tree} (h : Listed Item span trees) :
    ∃ item tree more, Item item tree ∧ span = item ++ more := by
  cases h with
  | last phrase => exact ⟨_, _, [], phrase, (List.append_nil _).symm⟩
  | more phrase _ => exact ⟨_, _, _, phrase, rfl⟩

end Phrase

namespace Grammar

open Rule Phrase

theorem increment_complete {span : List Lexeme} {tree : Tree} {next : Session} (hlength : span.length = 3)
    (h : increment? (span ++ next.rest) = some tree) : increment.Reads span next (some tree) := by
  right
  rw [run_increment, Session.rest_unread, h]
  simp [Session.unread, ← hlength]

theorem reads_bind_increment_none {α : Type} {span : List Lexeme} {next : Session} {value : α}
    {follow : Option Tree → Rule α} (hnone : increment? (span ++ next.rest) = none)
    (h : (follow none).Reads span next value) : (increment >>= follow).Reads span next value := by
  have hread : increment.Reads [] (next.unread span) none := by
    right
    rw [Session.unread_nil, run_increment, Session.rest_unread, hnone]
  exact hread.bind h

theorem increment?_increment {name : String} {loc first second : Location} {op : BinaryOp} {behind : Lexeme}
    {more : List Lexeme} (hsign : op = .add ∨ op = .sub) (htouch : first.Touches second)
    (hend : behind.terminal.EndsAssignment) :
    increment? (⟨.identifier name, loc⟩ :: ⟨.mark op.mark, first⟩ :: ⟨.mark op.mark, second⟩ :: behind :: more) =
      some (.increment loc name op first) := by
  have hop : incrementOp? (.mark op.mark) = some op := by
    rcases hsign with rfl | rfl
    · rfl
    · rfl
  rw [increment?, if_pos ⟨rfl, htouch, hend⟩, hop, Option.map_some]

/-- What is assigned to is not taken for an increment. -/
theorem increment?_target {target more : List Lexeme} {tree : Tree} {equal : Location}
    (h : Suffixed target tree) : increment? (target ++ ⟨.mark .equal, equal⟩ :: more) = none := by
  obtain ⟨first, others, rfl, -⟩ := h.starts
  unfold increment?
  split
  · next name loc sign second behind rest hlexemes =>
    have hsign : incrementOp? sign.terminal = none := by
      obtain ⟨rfl, hothers⟩ := List.cons.inj hlexemes
      cases others with
      | nil => cases hothers; rfl
      | cons lexeme others =>
        obtain ⟨rfl, -⟩ := List.cons.inj hothers
        rcases h.second rfl lexeme rfl with hbracket | hparen
        · rw [hbracket]; rfl
        · rw [hparen]; rfl
    simp [hsign]
  · rfl

theorem assignment_complete {n : Nat} {span more : List Lexeme} {tree : Tree} {next : Session} {behind : Lexeme}
    (h : Assignment Location.Touches span tree) (hend : behind.terminal.EndsAssignment) :
    (assignment n).Reads span (next.unread (behind :: more)) tree := by
  cases h with
  | increment hsign htouch =>
    apply (increment_complete rfl (increment?_increment hsign htouch hend)).bind_nil
    exact reads_pure
  | equation targetPhrase valuePhrase =>
    apply reads_bind_increment_none
    · rw [List.append_assoc]
      exact increment?_target targetPhrase
    simp only [List.cons_append]
    apply reads_bind_look
    apply (whole_suffixed_complete targetPhrase (Session.endsOperand_unread_cons (by decide))).bind
    apply reads_bind_expect
    apply (expression_complete valuePhrase (Session.endsExpression_unread_cons hend.endsExpression)).bind_nil
    exact reads_pure

theorem guard_complete {n : Nat} {span : List Lexeme} {loc : Location} {op : BinaryOp} {left right : Tree}
    {next : Session} (h : Operand Precedence.ladder span (.binary loc op left right))
    (hend : next.EndsOperand Precedence.ladder) :
    (guard n).Reads span next (.binary loc op left right) := by
  apply reads_bind_look
  apply (binary_complete h (by decide) hend).bind_nil
  exact reads_pure

/-- No statement starts with an `else`. -/
theorem not_else_of_statements {others : List Lexeme} {trees : List Tree} {next : Session}
    (h : Statements Location.Touches others trees)
    (hnext : ∀ lexeme ∈ next.rest.head?, lexeme.terminal ≠ .keyword .else_) :
    ∀ lexeme ∈ (next.unread others).rest.head?, lexeme.terminal ≠ .keyword .else_ := by
  cases h with
  | none => exact hnext
  | more phrase _ =>
    rw [Session.rest_unread, List.append_assoc]
    exact phrase.starts.not_else

/-- No other statement belongs to the statement in front of it. -/
theorem elseSettled_unread {tree : Tree} {others : List Lexeme} {trees : List Tree} {next : Session}
    (h : Statements Location.Touches others trees)
    (hnext : ∀ lexeme ∈ next.rest.head?, lexeme.terminal ≠ .keyword .else_) :
    ElseSettled tree (next.unread others) :=
  fun _ => not_else_of_statements h hnext

/-- What can follow a statement of a block does not belong to the statement. -/
theorem elseSettled_block {tree : Tree} {others more : List Lexeme} {trees : List Tree} {close : Location}
    {next : Session} (h : Statements Location.Touches others trees) :
    ElseSettled tree ((next.unread (⟨.mark .closeBrace, close⟩ :: more)).unread others) := by
  apply elseSettled_unread h
  intro lexeme hmem
  cases hmem
  simp

/-- No statement starts like the end of a block. -/
theorem atBlockEnd_unread {span : List Lexeme} {next : Session} (h : StartsStatement span) :
    atBlockEnd (next.unread span) = false := by
  obtain ⟨first, others, rfl, hstart⟩ := h
  have hbrace : first.terminal ≠ .mark .closeBrace := by
    intro hbrace
    rw [hbrace] at hstart
    cases hstart
  have hword : first.terminal ≠ .keyword .sequential := by
    intro hword
    rw [hword] at hstart
    cases hstart
  simp [atBlockEnd, Session.atEnd, Session.follows, hbrace, hword]

theorem block_complete {n : Nat} {span : List Lexeme} {trees : List Tree} {brace close : Location}
    {next : Session}
    (h : ∀ m, (statements m).Reads span (next.unread [⟨.mark .closeBrace, close⟩]) trees) :
    (block n brace).Reads (span ++ [⟨.mark .closeBrace, close⟩]) next (.block brace trees) := by
  cases n with
  | zero => rw [block]; exact reads_exhausted
  | succ n =>
    rw [block]
    apply (h n).bind
    apply reads_bind_expect
    exact reads_pure

theorem statementIfSound_complete {n : Nat} {span : List Lexeme} {tree : Tree} {next : Session}
    (h : ∀ m, (statement m).Reads span next tree) : (statementIfSound n).Reads span next [tree] := by
  cases n with
  | zero => rw [statementIfSound]; exact reads_exhausted
  | succ n =>
    rw [statementIfSound]
    apply reads_bind_look
    apply (h n).attempt.bind_nil
    exact reads_pure

mutual

theorem statement_complete : ∀ {span tree}, Statement Location.Touches span tree → ∀ {n next},
    ElseSettled tree next → (statement n).Reads span next tree
  | _, _, _, 0, _, _ => by rw [statement]; exact reads_exhausted
  | _, _, .assignment phrase, n + 1, next, _ => by
    rw [statement]
    apply reads_bind_accept_none
    · rw [List.append_assoc]
      exact phrase.head_ne rfl
    apply reads_bind_accept_none
    · rw [List.append_assoc]
      exact phrase.head_ne rfl
    apply reads_bind_accept_none
    · rw [List.append_assoc]
      exact phrase.head_ne rfl
    apply (assignment_complete phrase (.inl rfl)).bind
    apply reads_bind_expect
    exact reads_pure
  | _, _, .ifThen conditionPhrase truePhrase, n + 1, next, hsettled => by
    rw [statement]
    simp only [List.cons_append]
    apply reads_bind_accept_some
    show (selection n _).Reads _ _ _
    cases n with
    | zero => rw [selection]; exact reads_exhausted
    | succ n =>
      rw [selection]
      apply reads_bind_expect
      apply (expression_complete conditionPhrase (Session.endsExpression_unread_cons (by decide))).bind
      apply reads_bind_expect
      apply (statement_complete truePhrase fun _ => hsettled rfl).bind_nil
      apply reads_bind_accept_none
      · exact hsettled rfl
      exact reads_pure
  | _, _, .ifThenElse conditionPhrase truePhrase htakes falsePhrase, n + 1, next, hsettled => by
    rw [statement]
    simp only [List.append_assoc, List.cons_append]
    apply reads_bind_accept_some
    show (selection n _).Reads _ _ _
    cases n with
    | zero => rw [selection]; exact reads_exhausted
    | succ n =>
      rw [selection]
      apply reads_bind_expect
      apply (expression_complete conditionPhrase (Session.endsExpression_unread_cons (by decide))).bind
      apply reads_bind_expect
      apply (statement_complete truePhrase (elseSettled_of_takesElse htakes)).bind
      apply reads_bind_accept_some
      apply (statement_complete falsePhrase hsettled).bind_nil
      exact reads_pure
  | _, _, .iteration initPhrase guardPhrase updatePhrase bodyPhrase, n + 1, next, _ => by
    rw [statement]
    simp only [List.append_assoc, List.cons_append]
    apply reads_bind_accept_none
    · intro lexeme hmem
      cases hmem
      simp
    apply reads_bind_accept_some
    show (iteration n _).Reads _ _ _
    cases n with
    | zero => rw [iteration]; exact reads_exhausted
    | succ n =>
      rw [iteration]
      apply reads_bind_expect
      apply (assignment_complete initPhrase (.inl rfl)).bind
      apply reads_bind_expect
      apply (guard_complete guardPhrase (Session.endsOperand_unread_cons (by decide))).bind
      apply reads_bind_expect
      apply (assignment_complete updatePhrase (.inr rfl)).bind
      apply reads_bind_expect
      apply reads_bind_accept_some
      apply (block_complete fun m => statements_complete bodyPhrase).bind_nil
      exact reads_pure
  | _, _, .block phrase, n + 1, next, _ => by
    rw [statement]
    simp only [List.cons_append]
    apply reads_bind_accept_none
    · intro lexeme hmem
      cases hmem
      simp
    apply reads_bind_accept_none
    · intro lexeme hmem
      cases hmem
      simp
    apply reads_bind_accept_some
    exact block_complete fun m => statements_complete phrase

theorem statements_complete : ∀ {span trees}, Statements Location.Touches span trees →
    ∀ {n close more} {next : Session},
      (statements n).Reads span (next.unread (⟨.mark .closeBrace, close⟩ :: more)) trees
  | _, _, _, 0, _, _, _ => by rw [statements]; exact reads_exhausted
  | _, _, .none, n + 1, close, more, next => by
    rw [statements]
    apply reads_bind_look
    exact reads_pure
  | _, _, .more phrase others, n + 1, close, more, next => by
    rw [statements]
    apply reads_bind_look
    rw [Session.unread_append, atBlockEnd_unread phrase.starts]
    apply (statementIfSound_complete fun m => statement_complete phrase (elseSettled_block others)).bind
    apply (statements_complete others).bind_nil
    exact reads_pure

end

theorem dataType_complete {span : List Lexeme} {type : DataType} {next : Session} (h : DeclaredType span type)
    (hend : ∀ lexeme ∈ next.rest.head?, lexeme.terminal ≠ .mark .star) :
    dataType.Reads span next type := by
  cases h with
  | base =>
    apply reads_bind_take?_some (Terminal.baseType?_eq_some_iff.2 rfl)
    apply reads_bind_accept_none
    · exact hend
    exact reads_pure
  | pointer =>
    apply reads_bind_take?_some (Terminal.baseType?_eq_some_iff.2 rfl)
    apply reads_bind_accept_some
    exact reads_pure

theorem argument_complete {span : List Lexeme} {tree : Tree} {next : Session} (h : Argument span tree) :
    argument.Reads span next tree := by
  cases h with
  | declaration phrase =>
    apply reads_bind_look
    apply (dataType_complete phrase ?_).bind
    · apply reads_bind_identifier
      exact reads_pure
    · intro lexeme hmem
      cases hmem
      simp

theorem argumentIfSound_complete {span : List Lexeme} {tree : Tree} {next : Session} (h : Argument span tree) :
    argumentIfSound.Reads span next [tree] := by
  apply (argument_complete h).attempt.bind_nil
  exact reads_pure

theorem arguments_complete {n : Nat} {span : List Lexeme} {trees : List Tree} {next : Session}
    (h : Listed Argument span trees) (hend : ∀ lexeme ∈ next.rest.head?, lexeme.terminal ≠ .mark .comma) :
    (arguments n).Reads span next trees := by
  induction h generalizing n with
  | last phrase =>
    cases n with
    | zero => exact reads_exhausted
    | succ n =>
      apply (argumentIfSound_complete phrase).bind_nil
      apply reads_bind_accept_none
      · exact hend
      exact reads_pure
  | more phrase others ih =>
    cases n with
    | zero => exact reads_exhausted
    | succ n =>
      apply (argumentIfSound_complete phrase).bind
      apply reads_bind_accept_some
      apply ih.bind_nil
      exact reads_pure

theorem argumentList_complete {n : Nat} {span more : List Lexeme} {trees : List Tree} {next : Session}
    {sign : Mark} {loc : Location} (h : AnyListed Argument span trees)
    (hclose : sign = .closeParen ∨ sign = .pipe) :
    (argumentList n).Reads span (next.unread (⟨.mark sign, loc⟩ :: more)) trees := by
  apply reads_bind_look
  cases h with
  | none =>
    rcases hclose with rfl | rfl
    · exact reads_pure
    · exact reads_pure
  | some phrase =>
    have hread : (arguments n).Reads span (next.unread (⟨.mark sign, loc⟩ :: more)) trees := by
      apply arguments_complete phrase
      intro lexeme hmem
      cases hmem
      rcases hclose with rfl | rfl
      · simp
      · simp
    obtain ⟨item, tree, others, hitem, rfl⟩ := phrase.first
    cases hitem with
    | declaration typePhrase =>
      cases typePhrase with
      | base => exact hread
      | pointer => exact hread

theorem identifiers_complete {n : Nat} {span : List Lexeme} {trees : List Tree} {next : Session}
    (h : Listed Returned span trees) (hend : ∀ lexeme ∈ next.rest.head?, lexeme.terminal ≠ .mark .comma) :
    (identifiers n).Reads span next trees := by
  induction h generalizing n with
  | last phrase =>
    cases phrase
    cases n with
    | zero => exact reads_exhausted
    | succ n =>
      apply reads_bind_identifier
      apply reads_bind_accept_none
      · exact hend
      exact reads_pure
  | more phrase others ih =>
    cases phrase
    cases n with
    | zero => exact reads_exhausted
    | succ n =>
      apply reads_bind_identifier
      apply reads_bind_accept_some
      apply ih.bind_nil
      exact reads_pure

theorem identifierList_complete {n : Nat} {span more : List Lexeme} {trees : List Tree} {next : Session}
    {loc : Location} (h : AnyListed Returned span trees) :
    (identifierList n).Reads span (next.unread (⟨.mark .closeParen, loc⟩ :: more)) trees := by
  apply reads_bind_look
  cases h with
  | none => exact reads_pure
  | some phrase =>
    have hread : (identifiers n).Reads span (next.unread (⟨.mark .closeParen, loc⟩ :: more)) trees := by
      apply identifiers_complete phrase
      intro lexeme hmem
      cases hmem
      simp
    obtain ⟨item, tree, others, hitem, rfl⟩ := phrase.first
    cases hitem
    exact hread

theorem returnsClause_complete {n : Nat} {span : List Lexeme} {trees : List Tree} {next : Session}
    {clause paren close : Location} (h : AnyListed Returned span trees) :
    (returnsClause n).Reads
      (⟨.keyword .returns, clause⟩ :: ⟨.mark .openParen, paren⟩ :: span ++ [⟨.mark .closeParen, close⟩])
      next trees := by
  apply reads_bind_expect
  apply reads_bind_expect
  apply (identifierList_complete h).bind
  apply reads_bind_expect
  exact reads_pure

theorem localsClause_complete {n : Nat} {span : List Lexeme} {trees : List Tree} {next : Session}
    {clause paren close : Location} (h : AnyListed Argument span trees) :
    (localsClause n).Reads
      (⟨.keyword .locals, clause⟩ :: ⟨.mark .openParen, paren⟩ :: span ++ [⟨.mark .closeParen, close⟩])
      next trees := by
  apply reads_bind_expect
  apply reads_bind_expect
  apply (argumentList_complete h (.inl rfl)).bind
  apply reads_bind_expect
  exact reads_pure

section Clauses

variable {α : Type} {n : Nat} {span more : List Lexeme} {trees : List Tree} {next : Session} {value : α}
  {follow : List Tree → Rule α} {clause paren close : Location}

theorem reads_bind_returnsClause (phrase : AnyListed Returned span trees)
    (h : (follow trees).Reads more next value) :
    (returnsClause n >>= follow).Reads
      (⟨.keyword .returns, clause⟩ :: ⟨.mark .openParen, paren⟩ :: span ++ ⟨.mark .closeParen, close⟩ :: more)
      next value := by
  simpa using (returnsClause_complete phrase).bind h

theorem reads_bind_localsClause (phrase : AnyListed Argument span trees)
    (h : (follow trees).Reads more next value) :
    (localsClause n >>= follow).Reads
      (⟨.keyword .locals, clause⟩ :: ⟨.mark .openParen, paren⟩ :: span ++ ⟨.mark .closeParen, close⟩ :: more)
      next value := by
  simpa using (localsClause_complete phrase).bind h

end Clauses

theorem joinSpec_complete {n : Nat} {span : List Lexeme} {tree : Tree} {next : Session}
    (h : JoinSpec Location.Touches span tree)
    (hend : ∀ lexeme ∈ next.rest.head?, lexeme.terminal ≠ .keyword .else_) :
    (joinSpec n).Reads span next tree := by
  obtain ⟨leftPhrase, rightPhrase, clausePhrase⟩ := h
  obtain ⟨returnedPhrase, localPhrase, bodyPhrase⟩ := clausePhrase
  simp only [List.append_assoc, List.cons_append]
  apply reads_bind_look
  apply reads_bind_expect
  apply reads_bind_expect
  apply (argumentList_complete leftPhrase (.inr rfl)).bind
  apply reads_bind_expect
  apply (argumentList_complete rightPhrase (.inl rfl)).bind
  apply reads_bind_expect
  apply reads_bind_returnsClause returnedPhrase
  apply reads_bind_localsClause localPhrase
  have hbody : ∀ m, (statement m).Reads _ next _ := fun m => statement_complete bodyPhrase fun _ => hend
  apply Reads.bind_nil
  · apply reads_bind_look
    apply (hbody n).attempt.bind_nil
    exact reads_pure
  exact reads_pure

theorem sequentialSpec_complete {n : Nat} {span : List Lexeme} {tree : Tree} {next : Session}
    (h : SequentialSpec Location.Touches span tree)
    (hend : ∀ lexeme ∈ next.rest.head?, lexeme.terminal ≠ .keyword .else_) :
    (sequentialSpec n).Reads span next tree := by
  obtain ⟨argPhrase, clausePhrase⟩ := h
  obtain ⟨returnedPhrase, localPhrase, bodyPhrase⟩ := clausePhrase
  simp only [List.append_assoc, List.cons_append]
  apply reads_bind_look
  apply reads_bind_expect
  apply reads_bind_expect
  apply (argumentList_complete argPhrase (.inl rfl)).bind
  apply reads_bind_expect
  apply reads_bind_returnsClause returnedPhrase
  apply reads_bind_localsClause localPhrase
  apply (statement_complete bodyPhrase fun _ => hend).bind_nil
  exact reads_pure

theorem programBehind_complete {n : Nat} {loc : Location} {join tree : Tree} {span : List Lexeme} {next : Session}
    (h : SequentialSpec Location.Touches span tree) (hend : next.rest = []) :
    (programBehind n loc join).Reads span next (.program loc join tree) := by
  apply Reads.bind_nil
  · apply sequentialSpec_complete h
    simp [hend]
  apply reads_bind_look
  simp only [Session.atEnd, Session.unread_nil, hend, List.isEmpty_nil, if_true]
  exact reads_pure

/-- Nothing of a second specification belongs to the statement in front of it. -/
theorem not_else_of_sequentialSpec {span : List Lexeme} {tree : Tree} {next : Session}
    (h : SequentialSpec Location.Touches span tree) :
    ∀ lexeme ∈ (next.unread span).rest.head?, lexeme.terminal ≠ .keyword .else_ := by
  intro lexeme hmem
  cases h
  cases hmem
  simp

/-- A first specification is at the place of its first lexeme. -/
theorem loc_next_unread_joinSpec {span more : List Lexeme} {tree : Tree} {next : Session}
    (h : JoinSpec Location.Touches span tree) : (next.unread (span ++ more)).next.loc = tree.loc := by
  cases h
  rfl

/-- In front of the end of input a program is read, and nothing is reported. -/
theorem program_complete {n : Nat} {span : List Lexeme} {tree : Tree} {next : Session}
    (h : Program Location.Touches span tree) (hend : next.rest = []) : (program n).Reads span next tree := by
  cases h with
  | @program join sequential joinTree sequentialTree joinPhrase sequentialPhrase =>
    have hjoin : (joinSpec n).Reads join (next.unread sequential) joinTree :=
      joinSpec_complete joinPhrase (not_else_of_sequentialSpec sequentialPhrase)
    apply reads_bind_look
    rw [loc_next_unread_joinSpec joinPhrase]
    apply hjoin.attempt.bind
    exact programBehind_complete sequentialPhrase hend

end Grammar

end RoutineSpec
