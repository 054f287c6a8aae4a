import RoutineSpec.Proofs.Nesting

/-! # What rules are composed of

Every rule is put together from a few parts: it takes the next lexeme, looks at the next token, reads an increment or
a guard, fails at the next token, or repairs what has failed. So what holds of the parts, and is kept by putting rules
together, holds of every rule.
-/

namespace RoutineSpec

namespace Recovery

/-- What is skipped of a stream stands in front of `key`, whatever stands behind it. -/
def StopsAt (key : Lexeme) (skip : List Lexeme → List Lexeme) : Prop :=
  ∀ before behind, ∃ left,
    skip (before ++ [key]) = left ++ [key] ∧ skip (before ++ key :: behind) = left ++ key :: behind

/-- What a repair leaves out: a malformed argument, a malformed body with all in front of the second specification, or a
    malformed statement of a block. -/
inductive Repair where
  | argument
  | body
  | statement

/-- What is left behind it, given where the failed part began and where it failed. -/
def Repair.skip : Repair → List Lexeme → List Lexeme → List Lexeme
  | argument, _ => skipArgument
  | body, _ => skipToSequential
  | statement, start => resume start

variable {key : Lexeme}

theorem stopsAt_dropWhile {p : Lexeme → Bool} (h : p key = false) : StopsAt key (List.dropWhile p) := by
  intro before behind
  induction before with
  | nil => exact ⟨[], by simp [h], by simp [h]⟩
  | cons lexeme before ih =>
    cases hp : p lexeme with
    | true => simpa [hp] using ih
    | false => exact ⟨lexeme :: before, by simp [hp], by simp [hp]⟩

theorem skipArgument_stopsAt (h : key.terminal = .keyword .sequential) : StopsAt key skipArgument :=
  stopsAt_dropWhile (by simp [h, argumentEnds])

theorem skipToSequential_stopsAt (h : key.terminal = .keyword .sequential) : StopsAt key skipToSequential :=
  stopsAt_dropWhile (by simp [h])

theorem skipAssignment_stopsAt (h : key.terminal = .keyword .sequential) : StopsAt key skipAssignment := by
  intro before behind
  induction before with
  | nil => exact ⟨[], by simp [skipAssignment, h], by simp [skipAssignment, h]⟩
  | cons lexeme before ih =>
    simp only [List.cons_append, skipAssignment]
    split
    · exact ⟨before, rfl, rfl⟩
    · exact ⟨lexeme :: before, rfl, rfl⟩
    · exact ⟨lexeme :: before, rfl, rfl⟩
    · exact ih

theorem skipStatement_stopsAt (h : key.terminal = .keyword .sequential) (nesting : Nesting) :
    StopsAt key (skipStatement nesting) := by
  intro before behind
  induction before generalizing nesting with
  | nil => exact ⟨[], by simp [skipStatement, h, Nesting.after?], by simp [skipStatement, h, Nesting.after?]⟩
  | cons lexeme before ih =>
    simp only [List.cons_append, skipStatement]
    cases nesting.after? lexeme.terminal with
    | none => exact ⟨lexeme :: before, rfl, rfl⟩
    | some inner => exact ih inner

/-- A statement that does not begin with the word that starts the second specification is not skipped past it. -/
theorem resume_stopsAt (h : key.terminal = .keyword .sequential) (first : Lexeme) (before others behind : List Lexeme) :
    ∃ left, resume (first :: before ++ [key]) (others ++ [key]) = left ++ [key] ∧
      resume (first :: before ++ key :: behind) (others ++ key :: behind) = left ++ key :: behind := by
  simp only [List.cons_append, resume]
  split
  · exact skipStatement_stopsAt h .outermost (first :: before) behind
  · have hlength : (others ++ key :: behind).length = (first :: (before ++ key :: behind)).length ↔
        (others ++ [key]).length = (first :: (before ++ [key])).length := by
      simp
      omega
    simp only [hlength]
    split
    · exact ⟨before, rfl, rfl⟩
    · exact skipAssignment_stopsAt h others behind

end Recovery

/-- The rule is composed of parts that read one lexeme after the other, where `ahead` holds of the token it starts
    at. Only if `crosses` does it read the word that starts the second specification. -/
inductive Rule.Composed (crosses : Prop) : {α : Type} → (Token → Prop) → Rule α → Prop where
  | pure {α : Type} {ahead : Token → Prop} (value : α) : Composed crosses ahead (pure value : Rule α)
  | exhausted {α : Type} {ahead : Token → Prop} : Composed crosses ahead (Rule.exhausted : Rule α)
  | failHere {α : Type} {ahead : Token → Prop} (what : Expectation) :
      Composed crosses ahead (Rule.failHere what : Rule α)
  | bind {α β : Type} {ahead : Token → Prop} {rule : Rule α} {follow : α → Rule β} :
      Composed crosses ahead rule →
      (∀ value, Composed crosses (fun _ => True) (follow value)) →
      Composed crosses ahead (rule >>= follow)
  /-- What is looked at is the next token. -/
  | look {α β : Type} {ahead : Token → Prop} {view : Session → α} {follow : α → Rule β} :
      (∀ {session other : Session}, session.next = other.next → view session = view other) →
      (∀ session : Session, ahead session.next → Composed crosses (· = session.next) (follow (view session))) →
      Composed crosses ahead (look view >>= follow)
  | take? {α : Type} {ahead : Token → Prop} {select : Terminal → Option α} :
      select (.keyword .sequential) = none ∨ crosses → Composed crosses ahead (Rule.take? select)
  | increment {ahead : Token → Prop} : Composed crosses ahead Grammar.increment
  | guard {ahead : Token → Prop} (n : Nat) :
      Composed crosses ahead (Grammar.binary n Precedence.ladder) → Composed crosses ahead (Grammar.guard n)
  /-- What is skipped depends on where the failed part began. It does not go back to before the error, and not past
      the word that starts the second specification. -/
  | recovering {α β : Type} {ahead : Token → Prop} {rule : Rule α} {kept : α → β} {left : β}
      (repair : Recovery.Repair) :
      Composed crosses ahead rule →
      (∀ {session error next}, rule.run session = .failed error next →
        repair.skip session.rest next.rest <:+ next.rest) →
      (∀ {key : Lexeme}, key.terminal = .keyword .sequential → ∀ {session : Session} {before : List Lexeme},
        session.rest = before ++ [key] → ahead session.next → ∀ others behind, ∃ left,
          repair.skip (before ++ [key]) (others ++ [key]) = left ++ [key] ∧
            repair.skip (before ++ key :: behind) (others ++ key :: behind) = left ++ key :: behind) →
      Composed crosses ahead
        (Rule.look Session.rest >>= fun start => Rule.recovering rule (repair.skip start) kept left)

namespace Session

variable {session other : Session}

theorem follows_of_next (terminals : List Terminal) (h : session.next = other.next) :
    session.follows terminals = other.follows terminals := by
  unfold next at h
  unfold follows
  split at h <;> split at h <;> simp_all

theorem atEnd_of_next (h : session.next = other.next) : session.atEnd = other.atEnd := by
  unfold next at h
  unfold atEnd
  split at h <;> split at h <;> simp_all

theorem atBlockEnd_of_next (h : session.next = other.next) : Grammar.atBlockEnd session = Grammar.atBlockEnd other := by
  rw [Grammar.atBlockEnd, atEnd_of_next h, follows_of_next _ h, Grammar.atBlockEnd]

end Session

namespace Rule

variable {α β : Type} {crosses : Prop} {ahead : Token → Prop}

theorem composed_bind_look {view : Session → α} {follow : α → Rule β}
    (hview : ∀ {session other : Session}, session.next = other.next → view session = view other)
    (h : ∀ value {ahead : Token → Prop}, (follow value).Composed crosses ahead) :
    (look view >>= follow).Composed crosses ahead :=
  .look hview fun session _ => h (view session)

theorem composed_bind_here {follow : Location → Rule β}
    (h : ∀ value {ahead : Token → Prop}, (follow value).Composed crosses ahead) :
    (here >>= follow).Composed crosses ahead :=
  composed_bind_look (fun hnext => congrArg Token.loc hnext) h

theorem composed_accept {terminal : Terminal} (h : terminal ≠ .keyword .sequential ∨ crosses) :
    (accept terminal).Composed crosses ahead := by
  rw [accept_eq]
  refine .bind (.take? (h.imp_left fun hne => ?_)) fun _ => .pure _
  exact Terminal.same?_eq_none_iff.2 hne.symm

theorem composed_expect {terminal : Terminal} {what : Expectation} (h : terminal ≠ .keyword .sequential ∨ crosses) :
    (expect terminal what).Composed crosses ahead := by
  refine .bind (composed_accept h) fun found => ?_
  cases found with
  | none => exact .failHere what
  | some => exact .pure ()

theorem composed_identifier : identifier.Composed crosses ahead :=
  .bind (.take? (.inl rfl)) fun
    | none => .failHere _
    | some _ => .pure _

theorem composed_ite {condition : Prop} [Decidable condition] {rule other : Rule α} (h : rule.Composed crosses ahead)
    (h' : other.Composed crosses ahead) : (if condition then rule else other).Composed crosses ahead := by
  split
  · exact h
  · exact h'

/-- A repair that skips the same, wherever the failed part began. -/
theorem composed_recovering {rule : Rule α} {skip : List Lexeme → List Lexeme} {kept : α → β} {left : β}
    (repair : Recovery.Repair) (hskip : repair.skip = fun _ => skip) (h : rule.Composed crosses ahead)
    (hsuffix : ∀ lexemes, skip lexemes <:+ lexemes)
    (hstops : ∀ {key : Lexeme}, key.terminal = .keyword .sequential → Recovery.StopsAt key skip) :
    (recovering rule skip kept left).Composed crosses ahead := by
  have hlook : recovering rule skip kept left =
      look Session.rest >>= fun start => recovering rule (repair.skip start) kept left := by
    rw [hskip]
    rfl
  rw [hlook]
  refine .recovering repair h (fun _ => ?_) fun hkey _ _ _ _ others behind => ?_
  · rw [hskip]
    exact hsuffix _
  · rw [hskip]
    exact hstops hkey others behind

end Rule

namespace Grammar

open Rule

variable {crosses : Prop}

mutual

theorem expression_composed : ∀ n {ahead}, (expression n).Composed crosses ahead
  | 0, _ => .exhausted
  | n + 1, _ => by
    rw [expression]
    exact .bind (binary_composed n _) fun _ => .bind (composed_accept (.inl (by decide))) fun
      | none => .pure _
      | some _ => .bind (expression_composed n) fun _ => .bind (composed_expect (.inl (by decide))) fun _ =>
          .bind (expression_composed n) fun _ => .pure _

theorem binary_composed : ∀ n levels {ahead}, (binary n levels).Composed crosses ahead
  | 0, _, _ => by
    rw [binary]
    exact .exhausted
  | n + 1, [], _ => by
    rw [binary]
    exact unary_composed n
  | n + 1, level :: tighter, _ => by
    rw [binary]
    exact .bind (binary_composed n tighter) fun _ => chain_composed n level tighter _

theorem chain_composed : ∀ n level tighter left {ahead}, (chain n level tighter left).Composed crosses ahead
  | 0, _, _, _, _ => by
    rw [chain]
    exact .exhausted
  | n + 1, level, tighter, left, _ => by
    rw [chain]
    exact .bind (.take? (.inl rfl)) fun
      | none => .pure _
      | some (_, _) => .bind (binary_composed n tighter) fun _ => chain_composed n level tighter _

theorem unary_composed : ∀ n {ahead}, (unary n).Composed crosses ahead
  | 0, _ => .exhausted
  | n + 1, _ => by
    rw [unary]
    exact .bind (.take? (.inl rfl)) fun
      | none => suffixed_composed n
      | some (_, _) => .bind (unary_composed n) fun _ => .pure _

theorem suffixed_composed : ∀ n {ahead}, (suffixed n).Composed crosses ahead
  | 0, _ => .exhausted
  | n + 1, _ => by
    rw [suffixed]
    exact .bind (primary_composed n) fun _ => suffixes_composed n _

theorem suffixes_composed : ∀ n operand {ahead}, (suffixes n operand).Composed crosses ahead
  | 0, _, _ => by
    rw [suffixes]
    exact .exhausted
  | n + 1, operand, _ => by
    rw [suffixes]
    refine .bind (composed_accept (.inl (by decide))) fun
      | none => composed_bind_look (Session.follows_of_next _) fun _ _ => composed_ite ?_ (.pure _)
      | some _ => .bind (expression_composed n) fun _ => .bind (composed_expect (.inl (by decide))) fun _ =>
          suffixes_composed n _
    cases operand.callee? with
    | none => exact .failHere _
    | some callee =>
      exact .bind (composed_expect (.inl (by decide))) fun _ => .bind (callArguments_composed n) fun _ =>
        .bind (composed_expect (.inl (by decide))) fun _ => suffixes_composed n _

theorem callArguments_composed : ∀ n {ahead}, (callArguments n).Composed crosses ahead
  | 0, _ => .exhausted
  | n + 1, _ => by
    rw [callArguments]
    exact composed_bind_look (Session.follows_of_next _) fun _ _ =>
      composed_ite (.pure _) (expressions_composed n)

theorem expressions_composed : ∀ n {ahead}, (expressions n).Composed crosses ahead
  | 0, _ => .exhausted
  | n + 1, _ => by
    rw [expressions]
    exact .bind (expression_composed n) fun _ => .bind (composed_accept (.inl (by decide))) fun
      | none => .pure _
      | some _ => .bind (expressions_composed n) fun _ => .pure _

theorem primary_composed : ∀ n {ahead}, (primary n).Composed crosses ahead
  | 0, _ => .exhausted
  | n + 1, _ => by
    rw [primary]
    exact .bind (.take? (.inl rfl)) fun
      | some (_, _) => .pure _
      | none => .bind (composed_expect (.inl (by decide))) fun _ => .bind (expression_composed n) fun _ =>
          .bind (composed_expect (.inl (by decide))) fun _ => .pure _

end

theorem guard_composed (n : Nat) {ahead : Token → Prop} : (guard n).Composed crosses ahead :=
  .guard n (binary_composed n _)

theorem assignment_composed (n : Nat) {ahead : Token → Prop} : (assignment n).Composed crosses ahead :=
  .bind .increment fun
    | some _ => .pure _
    | none => composed_bind_here fun _ _ => .bind (suffixed_composed n) fun _ =>
        .bind (composed_expect (.inl (by decide))) fun _ => .bind (expression_composed n) fun _ => .pure _

mutual

theorem statement_composed : ∀ n {ahead}, (statement n).Composed crosses ahead
  | 0, _ => .exhausted
  | n + 1, _ => by
    rw [statement]
    exact .bind (composed_accept (.inl (by decide))) fun
      | some _ => selection_composed n _
      | none => .bind (composed_accept (.inl (by decide))) fun
        | some _ => iteration_composed n _
        | none => .bind (composed_accept (.inl (by decide))) fun
          | some _ => block_composed n _
          | none => .bind (assignment_composed n) fun _ => .bind (composed_expect (.inl (by decide))) fun _ =>
              .pure _

theorem selection_composed : ∀ n loc {ahead}, (selection n loc).Composed crosses ahead
  | 0, _, _ => .exhausted
  | n + 1, loc, _ => by
    rw [selection]
    exact .bind (composed_expect (.inl (by decide))) fun _ => .bind (expression_composed n) fun _ =>
      .bind (composed_expect (.inl (by decide))) fun _ => .bind (statement_composed n) fun _ =>
        .bind (composed_accept (.inl (by decide))) fun
          | none => .pure _
          | some _ => .bind (statement_composed n) fun _ => .pure _

theorem iteration_composed : ∀ n loc {ahead}, (iteration n loc).Composed crosses ahead
  | 0, _, _ => .exhausted
  | n + 1, loc, _ => by
    rw [iteration]
    exact .bind (composed_expect (.inl (by decide))) fun _ => .bind (assignment_composed n) fun _ =>
      .bind (composed_expect (.inl (by decide))) fun _ => .bind (guard_composed n) fun _ =>
        .bind (composed_expect (.inl (by decide))) fun _ => .bind (assignment_composed n) fun _ =>
          .bind (composed_expect (.inl (by decide))) fun _ => .bind (composed_accept (.inl (by decide))) fun
            | none => .failHere _
            | some _ => .bind (block_composed n _) fun _ => .pure _

theorem block_composed : ∀ n loc {ahead}, (block n loc).Composed crosses ahead
  | 0, _, _ => .exhausted
  | n + 1, loc, _ => by
    rw [block]
    exact .bind (statements_composed n) fun _ => .bind (composed_expect (.inl (by decide))) fun _ => .pure _

theorem statements_composed : ∀ n {ahead}, (statements n).Composed crosses ahead
  | 0, _ => .exhausted
  | n + 1, _ => by
    rw [statements]
    refine .look Session.atBlockEnd_of_next fun session _ => ?_
    split
    · exact .pure _
    · next hend =>
      refine .bind (statementIfSound_composed n fun hnext => ?_) fun _ =>
        .bind (statements_composed n) fun _ => .pure _
      rwa [Session.atBlockEnd_of_next hnext]

/-- A statement is repaired only where its block does not end. -/
theorem statementIfSound_composed : ∀ n {ahead},
    (∀ {session : Session}, ahead session.next → ¬ atBlockEnd session = true) →
    (statementIfSound n).Composed crosses ahead
  | 0, _, _ => .exhausted
  | n + 1, ahead, hahead => by
    rw [statementIfSound_eq]
    refine .recovering .statement (statement_composed n) resume_suffix_of_failed ?_
    intro key hkey session before hrest hnext others behind
    have hend := hahead hnext
    cases before with
    | nil => simp [atBlockEnd, Session.follows, hrest, hkey] at hend
    | cons first before => exact Recovery.resume_stopsAt hkey first before others behind

end

theorem dataType_composed {ahead : Token → Prop} : dataType.Composed crosses ahead :=
  .bind (.take? (.inl rfl)) fun
    | none => .failHere _
    | some (_, _) => .bind (composed_accept (.inl (by decide))) fun _ => .pure _

theorem argument_composed {ahead : Token → Prop} : argument.Composed crosses ahead :=
  composed_bind_here fun _ _ => .bind dataType_composed fun _ => .bind composed_identifier fun (_, _) => .pure _

theorem argumentIfSound_composed {ahead : Token → Prop} : argumentIfSound.Composed crosses ahead := by
  rw [argumentIfSound_eq]
  exact composed_recovering .argument rfl argument_composed Recovery.skipArgument_suffix Recovery.skipArgument_stopsAt

theorem arguments_composed : ∀ n {ahead}, (arguments n).Composed crosses ahead
  | 0, _ => .exhausted
  | n + 1, _ => by
    rw [arguments]
    exact .bind argumentIfSound_composed fun _ => .bind (composed_accept (.inl (by decide))) fun
      | none => .pure _
      | some _ => .bind (arguments_composed n) fun _ => .pure _

theorem identifiers_composed : ∀ n {ahead}, (identifiers n).Composed crosses ahead
  | 0, _ => .exhausted
  | n + 1, _ => by
    rw [identifiers]
    refine .bind composed_identifier fun name => .bind (composed_accept (.inl (by decide))) fun comma => ?_
    cases comma with
    | none => exact .pure _
    | some => exact .bind (identifiers_composed n) fun _ => .pure _

section

variable (n : Nat) {ahead : Token → Prop}

theorem argumentList_composed : (argumentList n).Composed crosses ahead :=
  composed_bind_look (Session.follows_of_next _) fun _ _ => composed_ite (.pure _) (arguments_composed n)

theorem identifierList_composed : (identifierList n).Composed crosses ahead :=
  composed_bind_look (Session.follows_of_next _) fun _ _ => composed_ite (.pure _) (identifiers_composed n)

theorem returnsClause_composed : (returnsClause n).Composed crosses ahead :=
  .bind (composed_expect (.inl (by decide))) fun _ => .bind (composed_expect (.inl (by decide))) fun _ =>
    .bind (identifierList_composed n) fun _ => .bind (composed_expect (.inl (by decide))) fun _ => .pure _

theorem localsClause_composed : (localsClause n).Composed crosses ahead :=
  .bind (composed_expect (.inl (by decide))) fun _ => .bind (composed_expect (.inl (by decide))) fun _ =>
    .bind (argumentList_composed n) fun _ => .bind (composed_expect (.inl (by decide))) fun _ => .pure _

theorem joinBody_composed : (joinBody n).Composed crosses ahead := by
  rw [joinBody_eq]
  exact composed_bind_here fun _ _ =>
    composed_recovering .body rfl (statement_composed n) Recovery.skipToSequential_suffix
      Recovery.skipToSequential_stopsAt

theorem joinSpec_composed : (joinSpec n).Composed crosses ahead :=
  composed_bind_here fun _ _ => .bind (composed_expect (.inl (by decide))) fun _ =>
    .bind (composed_expect (.inl (by decide))) fun _ => .bind (argumentList_composed n) fun _ =>
      .bind (composed_expect (.inl (by decide))) fun _ => .bind (argumentList_composed n) fun _ =>
        .bind (composed_expect (.inl (by decide))) fun _ => .bind (returnsClause_composed n) fun _ =>
          .bind (localsClause_composed n) fun _ => .bind (joinBody_composed n) fun _ => .pure _

theorem sequentialBehind_composed (loc : Location) : (sequentialBehind n loc).Composed crosses ahead :=
  .bind (composed_expect (.inl (by decide))) fun _ => .bind (argumentList_composed n) fun _ =>
    .bind (composed_expect (.inl (by decide))) fun _ => .bind (returnsClause_composed n) fun _ =>
      .bind (localsClause_composed n) fun _ => .bind (statement_composed n) fun _ => .pure _

theorem sequentialSpec_composed (h : crosses) : (sequentialSpec n).Composed crosses ahead := by
  rw [sequentialSpec_eq]
  exact composed_bind_here fun _ _ => .bind (composed_expect (.inr h)) fun _ => sequentialBehind_composed n _

theorem programBehind_composed (h : crosses) (loc : Location) (join : Tree) :
    (programBehind n loc join).Composed crosses ahead :=
  .bind (sequentialSpec_composed n h) fun _ => composed_bind_look Session.atEnd_of_next fun _ _ =>
    composed_ite (.pure _) (.failHere _)

end

end Grammar

end RoutineSpec
