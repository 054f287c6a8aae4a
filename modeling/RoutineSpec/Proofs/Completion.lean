import RoutineSpec.Proofs.ProgramSound

/-! # What completes a phrase

A phrase that breaks off is completed by lexemes that close what is open, and by short phrases for the parts that
are missing: a zero for an operand, two braces for a statement, an empty list in parentheses for a clause.
-/

namespace RoutineSpec

/-- Some lexemes that, with others behind them, make a whole. -/
inductive Begins (Whole : List Lexeme → Prop) (span : List Lexeme) : Prop where
  | with (more : List Lexeme) : Whole (span ++ more) → Begins Whole span

/-- The lexemes are a phrase, whatever it stands for. -/
inductive Phrase.Of {α : Type} (Item : List Lexeme → α → Prop) (span : List Lexeme) : Prop where
  | phrase {value : α} : Item span value → Of Item span

namespace Phrase

variable {Adjacent : Location → Location → Prop}

/-- A zero, where an operand is missing. -/
def filler : Lexeme := ⟨.integer 0, .start⟩

/-- A mark that closes what is open. -/
abbrev closer (sign : Mark) : Lexeme := ⟨.mark sign, .start⟩

theorem suffixed_filler : Suffixed [filler] (.constant .start (.int 0)) :=
  .primary .integer

theorem operand_filler (levels : List Precedence) : Operand levels [filler] (.constant .start (.int 0)) :=
  Unary.operand (.suffixed suffixed_filler) levels

theorem expression_filler : Expression [filler] (.constant .start (.int 0)) :=
  suffixed_filler.expression

/-- What is assigned to can be any suffixed phrase. -/
theorem Suffixed.assigned {target value : List Lexeme}
    {targetTree valueTree : Tree} {equal : Location} (h : Suffixed target targetTree)
    (hvalue : Expression value valueTree) :
    Of (Assignment Adjacent) (target ++ ⟨.mark .equal, equal⟩ :: value) := by
  cases target with
  | nil => exact absurd rfl h.ne_nil
  | cons first others => exact ⟨.equation h hvalue⟩

/-! ## Statements -/

theorem assignment_filler : Of (Assignment Adjacent) [filler, closer .equal, filler] :=
  suffixed_filler.assigned expression_filler

theorem statement_filler : Statement Adjacent [closer .openBrace, closer .closeBrace] (.block .start []) :=
  .block .none

theorem Statements.append : ∀ {span trees}, Statements Adjacent span trees →
    ∀ {more others}, Statements Adjacent more others → Statements Adjacent (span ++ more) (trees ++ others)
  | _, _, .none, _, _, phrase => phrase
  | _, _, .more first rest, _, _, phrase => by simpa using Statements.more first (rest.append phrase)

/-- Whatever the branch before the `else` is, the whole is a statement, given that a branch which takes the `else`
    is a statement with it. -/
theorem statement_of_dangling {condition onTrue onFalse : List Lexeme} {conditionTree trueTree falseTree : Tree}
    {loc paren close other : Location} (hcondition : Expression condition conditionTree)
    (htrue : Statement Adjacent onTrue trueTree) (hfalse : Statement Adjacent onFalse falseTree)
    (hdangling : trueTree.takesElse = true →
      Of (Statement Adjacent) (onTrue ++ ⟨.keyword .else_, other⟩ :: onFalse)) :
    Of (Statement Adjacent) (⟨.keyword .if_, loc⟩ :: ⟨.mark .openParen, paren⟩ :: condition ++
      ⟨.mark .closeParen, close⟩ :: onTrue ++ ⟨.keyword .else_, other⟩ :: onFalse) := by
  cases htakes : trueTree.takesElse with
  | false => exact ⟨.ifThenElse hcondition htrue htakes hfalse⟩
  | true =>
    obtain ⟨phrase⟩ := hdangling htakes
    exact ⟨by simpa using Statement.ifThen hcondition phrase⟩

/-- An `else` behind a statement that takes one makes a statement with it. -/
theorem Statement.append_else {onFalse : List Lexeme} {falseTree : Tree} (other : Location)
    (hfalse : Statement Adjacent onFalse falseTree) : ∀ {span tree}, Statement Adjacent span tree →
    tree.takesElse = true → Of (Statement Adjacent) (span ++ ⟨.keyword .else_, other⟩ :: onFalse)
  | _, _, .assignment phrase, htakes => by simp [phrase.takesElse] at htakes
  | _, _, .iteration .., htakes | _, _, .block .., htakes => by cases htakes
  | _, _, .ifThen conditionPhrase truePhrase, _ =>
    statement_of_dangling conditionPhrase truePhrase hfalse (append_else other hfalse truePhrase)
  | _, _, .ifThenElse conditionPhrase truePhrase htrue inner, htakes => by
    obtain ⟨phrase⟩ := append_else other hfalse inner htakes
    exact ⟨by simpa using Statement.ifThenElse conditionPhrase truePhrase htrue phrase⟩

theorem statement_of_else {condition onTrue onFalse : List Lexeme} {conditionTree trueTree falseTree : Tree}
    {loc paren close other : Location} (hcondition : Expression condition conditionTree)
    (htrue : Statement Adjacent onTrue trueTree) (hfalse : Statement Adjacent onFalse falseTree) :
    Of (Statement Adjacent) (⟨.keyword .if_, loc⟩ :: ⟨.mark .openParen, paren⟩ :: condition ++
      ⟨.mark .closeParen, close⟩ :: onTrue ++ ⟨.keyword .else_, other⟩ :: onFalse) :=
  statement_of_dangling hcondition htrue hfalse (Statement.append_else other hfalse htrue)

/-- A guard is a disjunction, and a binary expression. -/
inductive Guard : List Lexeme → Prop where
  | binary {span loc op left right} :
      Operand Precedence.ladder span (.binary loc op left right) → Guard span

theorem Operand.guard {span : List Lexeme} {tree : Tree} (h : Operand Precedence.ladder span tree) :
    Begins Guard span := by
  cases h with
  | chain phrase =>
    exact ⟨[closer BinaryOp.or.mark, filler], .binary (.chain (.operator phrase rfl (operand_filler _)))⟩

theorem guard_filler : Guard [filler, closer BinaryOp.or.mark, filler] :=
  .binary (.chain (.operator (.operand (operand_filler _)) rfl (operand_filler _)))

/-- What follows the opening brace of a block. -/
inductive Braced (Adjacent : Location → Location → Prop) : List Lexeme → Prop where
  | statements {span trees close} :
      Statements Adjacent span trees → Braced Adjacent (span ++ [⟨.mark .closeBrace, close⟩])

theorem Braced.block {span : List Lexeme} (h : Braced Adjacent span) (loc : Location) :
    Of (Statement Adjacent) (⟨.mark .openBrace, loc⟩ :: span) := by
  obtain ⟨phrase⟩ := h
  exact ⟨.block phrase⟩

theorem braced_filler : Braced Adjacent [closer .closeBrace] :=
  @Braced.statements _ [] [] .start .none

theorem statement_of_for {init test update body : List Lexeme} {loc paren first second close brace : Location}
    (hinit : Of (Assignment Adjacent) init) (htest : Guard test) (hupdate : Of (Assignment Adjacent) update)
    (hbody : Braced Adjacent body) :
    Of (Statement Adjacent) (⟨.keyword .for_, loc⟩ :: ⟨.mark .openParen, paren⟩ :: init ++
      ⟨.mark .semicolon, first⟩ :: test ++ ⟨.mark .semicolon, second⟩ :: update ++
      ⟨.mark .closeParen, close⟩ :: ⟨.mark .openBrace, brace⟩ :: body) := by
  obtain ⟨init⟩ := hinit
  obtain ⟨test⟩ := htest
  obtain ⟨update⟩ := hupdate
  obtain ⟨body⟩ := hbody
  exact ⟨by simpa using Statement.iteration init test update body⟩

/-- The end of the header of a loop, and a body. -/
abbrev emptyBody : List Lexeme := [closer .closeParen, closer .openBrace, closer .closeBrace]

/-! ## Specifications -/

theorem DeclaredType.declares {span : List Lexeme} {type : DataType} (h : DeclaredType span type) (name : String)
    (loc : Location) : Of Argument (span ++ [⟨.identifier name, loc⟩]) := by
  cases span with
  | nil => cases h
  | cons first star => exact ⟨.declaration h⟩

theorem argument_filler : Of Argument [⟨.keyword BaseType.int.keyword, .start⟩, ⟨.identifier "x", .start⟩] :=
  DeclaredType.base.declares "x" .start

/-- A keyword, and a list in parentheses behind it. -/
inductive Clause (word : Keyword) (Item : List Lexeme → Tree → Prop) : List Lexeme → List Tree → Prop where
  | listed {span trees loc paren close} :
      AnyListed Item span trees →
      Clause word Item
        (⟨.keyword word, loc⟩ :: ⟨.mark .openParen, paren⟩ :: span ++ [⟨.mark .closeParen, close⟩]) trees

/-- An empty clause. -/
abbrev emptyClause (word : Keyword) : List Lexeme :=
  [⟨.keyword word, .start⟩, closer .openParen, closer .closeParen]

theorem clause_filler {word : Keyword} {Item : List Lexeme → Tree → Prop} :
    Of (Clause word Item) (emptyClause word) :=
  ⟨@Clause.listed word Item [] [] .start .start .start .none⟩

/-- What follows the arguments of a specification, whatever it stands for. -/
def Details (Adjacent : Location → Location → Prop) (span : List Lexeme) : Prop :=
  ∃ returned locals body, Clauses Adjacent span returned locals body

theorem details_of_clauses {returned locals body : List Lexeme} (hreturned : Of (Clause .returns Returned) returned)
    (hlocals : Of (Clause .locals Argument) locals) (hbody : Of (Statement Adjacent) body) :
    Details Adjacent (returned ++ locals ++ body) := by
  obtain ⟨⟨returned⟩⟩ := hreturned
  obtain ⟨⟨locals⟩⟩ := hlocals
  obtain ⟨body⟩ := hbody
  exact ⟨_, _, _, by simpa using Clauses.clauses returned locals body⟩

/-- What follows the arguments of a specification that has nothing to say. -/
abbrev emptyDetails : List Lexeme :=
  emptyClause .returns ++ emptyClause .locals ++ [closer .openBrace, closer .closeBrace]

theorem details_filler : Details Adjacent emptyDetails :=
  details_of_clauses clause_filler clause_filler ⟨statement_filler⟩

theorem joinSpec_of_details {left right details : List Lexeme} {loc paren pipe close : Location}
    (hleft : Of (AnyListed Argument) left) (hright : Of (AnyListed Argument) right)
    (hdetails : Details Adjacent details) :
    Of (JoinSpec Adjacent) (⟨.keyword .join, loc⟩ :: ⟨.mark .openParen, paren⟩ :: left ++
      ⟨.mark .pipe, pipe⟩ :: right ++ ⟨.mark .closeParen, close⟩ :: details) := by
  obtain ⟨left⟩ := hleft
  obtain ⟨right⟩ := hright
  obtain ⟨returned, locals, body, details⟩ := hdetails
  exact ⟨.join left right details⟩

theorem sequentialSpec_of_details {args details : List Lexeme} {loc paren close : Location}
    (hargs : Of (AnyListed Argument) args) (hdetails : Details Adjacent details) :
    Of (SequentialSpec Adjacent) (⟨.keyword .sequential, loc⟩ :: ⟨.mark .openParen, paren⟩ :: args ++
      ⟨.mark .closeParen, close⟩ :: details) := by
  obtain ⟨args⟩ := hargs
  obtain ⟨returned, locals, body, details⟩ := hdetails
  exact ⟨.sequential args details⟩

theorem arguments_filler : Of (AnyListed Argument) [] :=
  ⟨.none⟩

theorem joinSpec_filler : Of (JoinSpec Adjacent)
    (⟨.keyword .join, .start⟩ :: closer .openParen :: closer .pipe :: closer .closeParen :: emptyDetails) :=
  joinSpec_of_details arguments_filler arguments_filler details_filler

theorem sequentialSpec_filler : Of (SequentialSpec Adjacent) (emptyClause .sequential ++ emptyDetails) :=
  sequentialSpec_of_details arguments_filler details_filler

theorem JoinSpec.begins_program {span : List Lexeme} {tree : Tree} (h : JoinSpec Adjacent span tree) :
    Begins (Of (Program Adjacent)) span := by
  obtain ⟨phrase⟩ : Of (SequentialSpec Adjacent) _ := sequentialSpec_filler
  exact ⟨_, ⟨.program h phrase⟩⟩

end Phrase

end RoutineSpec
