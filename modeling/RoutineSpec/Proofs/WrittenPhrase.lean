import RoutineSpec.Proofs.Writing

/-! # What is written is a phrase

Wherever the terminals of an expressible tree stand, they are a phrase for that tree, up to its places. An
expression in a slot is a phrase of the tightness that the slot demands, because it is in parentheses if it is
not tight enough by itself.
-/

namespace RoutineSpec

namespace Lexeme

variable {lexemes : List Lexeme} {terminal : Terminal} {terminals more : List Terminal}

theorem exists_cons (h : lexemes.map Lexeme.terminal = terminal :: terminals) :
    ∃ loc others, lexemes = ⟨terminal, loc⟩ :: others ∧ others.map Lexeme.terminal = terminals := by
  obtain ⟨lexeme, others, rfl, rfl, hothers⟩ := List.map_eq_cons_iff.1 h
  exact ⟨lexeme.loc, others, rfl, hothers⟩

theorem exists_singleton (h : lexemes.map Lexeme.terminal = [terminal]) :
    ∃ loc, lexemes = [⟨terminal, loc⟩] := by
  obtain ⟨loc, others, rfl, hothers⟩ := exists_cons h
  rw [List.map_eq_nil_iff.1 hothers]
  exact ⟨loc, rfl⟩

/-- The lexemes around one terminal in the middle. -/
theorem exists_between (h : lexemes.map Lexeme.terminal = terminals ++ terminal :: more) :
    ∃ before loc behind, lexemes = before ++ ⟨terminal, loc⟩ :: behind ∧
      before.map Lexeme.terminal = terminals ∧ behind.map Lexeme.terminal = more := by
  obtain ⟨before, rest, rfl, hbefore, hrest⟩ := List.map_eq_append_iff.1 h
  obtain ⟨loc, behind, rfl, hbehind⟩ := exists_cons hrest
  exact ⟨before, loc, behind, rfl, hbefore, hbehind⟩

end Lexeme

namespace Phrase

/-- Phrases for expressions that bind at least as tightly as is demanded. -/
def Tight : Nat → List Lexeme → Tree → Prop
  | 0 => Expression
  | 8 => Suffixed
  | _ + 9 => Primary
  | n + 1 => Operand (Precedence.ladder.drop n)

theorem tight_level (level : Precedence) :
    Tight (level.depth + 1) = Operand (level :: Precedence.ladder.drop (level.depth + 1)) := by
  cases level <;> rfl

theorem tight_tighter (level : Precedence) :
    Tight (level.depth + 2) = Operand (Precedence.ladder.drop (level.depth + 1)) := by
  cases level <;> rfl

theorem Tight.loosen {span : List Lexeme} {tree : Tree} :
    ∀ {demanded : Nat}, Tight (demanded + 1) span tree → Tight demanded span tree
  | 0, h => .disjunction h
  | 1, h | 2, h | 3, h | 4, h | 5, h | 6, h => .chain (.operand h)
  | 7, h => .unary (.suffixed h)
  | 8, h => .primary h
  | _ + 9, h => h

theorem Tight.mono {demanded found : Nat} {span : List Lexeme} {tree : Tree} (h : Tight found span tree)
    (hle : demanded ≤ found) : Tight demanded span tree := by
  induction hle with
  | refl => exact h
  | step _ ih => exact ih h.loosen

/-- Wherever the terminals stand, they are a phrase for the value, up to its places. -/
def Stands {α : Type} (forget : α → α) (Phrase : List Lexeme → α → Prop) (terminals : List Terminal)
    (value : α) : Prop :=
  ∀ lexemes : List Lexeme, lexemes.map Lexeme.terminal = terminals →
    ∃ copy, Phrase lexemes copy ∧ forget copy = forget value

theorem Listed.expressions {span : List Lexeme} {trees : List Tree} (h : Listed Expression span trees) :
    Expressions span trees := by
  induction h with
  | last phrase => exact .last phrase
  | more phrase _ ih => exact .more phrase ih

theorem AnyListed.callArguments {span : List Lexeme} {trees : List Tree} (h : AnyListed Expression span trees) :
    CallArguments span trees := by
  cases h with
  | none => exact .none
  | some phrase => exact .some phrase.expressions

theorem stands_fitted {demanded : Nat} {tree : Tree} (hdemanded : demanded ≤ 9)
    (h : Stands Tree.unplaced (Tight tree.tightness) tree.terminals tree) :
    Stands Tree.unplaced (Tight demanded) (tree.fitted demanded tree.terminals) tree := by
  intro lexemes hlexemes
  unfold Tree.fitted at hlexemes
  split at hlexemes
  · obtain ⟨paren, others, rfl, hothers⟩ := Lexeme.exists_cons hlexemes
    obtain ⟨inside, close, behind, rfl, hinside, hbehind⟩ := Lexeme.exists_between hothers
    cases List.map_eq_nil_iff.1 hbehind
    obtain ⟨copy, phrase, hcopy⟩ := h inside hinside
    have group : Tight 9 (⟨.mark .openParen, paren⟩ :: inside ++ [⟨.mark .closeParen, close⟩]) copy :=
      Primary.group (phrase.mono (Nat.zero_le _))
    exact ⟨copy, group.mono hdemanded, hcopy⟩
  · next hloose =>
    obtain ⟨copy, phrase, hcopy⟩ := h lexemes hlexemes
    exact ⟨copy, phrase.mono (Nat.le_of_not_lt hloose), hcopy⟩

theorem stands_listed {Item : List Lexeme → Tree → Prop} {tree : Tree} {trees : List Tree}
    (h : ∀ item ∈ tree :: trees, Stands Tree.unplaced Item item.terminals item) :
    Stands (List.map Tree.unplaced) (Listed Item) (Terminal.listed (Tree.terminalLists (tree :: trees)))
      (tree :: trees) := by
  induction trees generalizing tree with
  | nil =>
    intro lexemes hlexemes
    simp only [Terminal.listed, Tree.terminalLists, List.intercalate_singleton] at hlexemes
    obtain ⟨copy, phrase, hcopy⟩ := h tree List.mem_cons_self lexemes hlexemes
    exact ⟨[copy], .last phrase, by simp [hcopy]⟩
  | cons other trees ih =>
    intro lexemes hlexemes
    simp only [Terminal.listed, Tree.terminalLists] at hlexemes
    rw [List.intercalate_cons_cons] at hlexemes
    simp only [List.append_assoc, List.cons_append, List.nil_append] at hlexemes
    obtain ⟨first, comma, others, rfl, hfirst, hothers⟩ := Lexeme.exists_between hlexemes
    obtain ⟨copy, phrase, hcopy⟩ := h tree List.mem_cons_self first hfirst
    obtain ⟨copies, phrases, hcopies⟩ := ih (fun item hmem => h item (List.mem_cons_of_mem _ hmem)) others hothers
    exact ⟨copy :: copies, .more phrase phrases, by simp [hcopy, hcopies]⟩

theorem stands_anyListed {Item : List Lexeme → Tree → Prop} {trees : List Tree}
    (h : ∀ item ∈ trees, Stands Tree.unplaced Item item.terminals item) :
    Stands (List.map Tree.unplaced) (AnyListed Item) (Terminal.listed (Tree.terminalLists trees)) trees := by
  intro lexemes hlexemes
  cases trees with
  | nil =>
    cases List.map_eq_nil_iff.1 hlexemes
    exact ⟨[], .none, rfl⟩
  | cons tree trees =>
    obtain ⟨copies, phrase, hcopies⟩ := stands_listed h lexemes hlexemes
    exact ⟨copies, .some phrase, hcopies⟩

end Phrase

namespace Expressible

open Phrase

variable {vocabulary : Vocabulary} {tree : Tree}

theorem Expression.stands (h : Expression vocabulary tree) :
    Stands Tree.unplaced (Tight tree.tightness) tree.terminals tree := by
  induction h with
  | @var _ name _ =>
    intro lexemes hlexemes
    obtain ⟨loc, rfl⟩ := Lexeme.exists_singleton hlexemes
    exact ⟨.var loc name none none, Primary.name, rfl⟩
  | @integer _ value _ =>
    intro lexemes hlexemes
    obtain ⟨loc, rfl⟩ := Lexeme.exists_singleton hlexemes
    exact ⟨.constant loc (.int value), Primary.integer, rfl⟩
  | @truth _ value =>
    intro lexemes hlexemes
    obtain ⟨loc, rfl⟩ := Lexeme.exists_singleton hlexemes
    cases value with
    | true => exact ⟨.constant loc (.bool true), Primary.true_, rfl⟩
    | false => exact ⟨.constant loc (.bool false), Primary.false_, rfl⟩
  | @binary _ op left right _ _ ihl ihr =>
    intro lexemes hlexemes
    have hdepth := op.precedence.depth_lt
    obtain ⟨before, loc, behind, rfl, hbefore, hbehind⟩ := Lexeme.exists_between hlexemes
    obtain ⟨leftCopy, leftPhrase, hleft⟩ := stands_fitted (by omega) ihl before hbefore
    obtain ⟨rightCopy, rightPhrase, hright⟩ := stands_fitted (by omega) ihr behind hbehind
    rw [tight_level] at leftPhrase
    rw [tight_tighter] at rightPhrase
    cases leftPhrase with
    | chain chainPhrase =>
      refine ⟨.binary loc op leftCopy rightCopy, ?_, by simp [Tree.unplaced, hleft, hright]⟩
      show Tight (op.precedence.depth + 1) _ _
      rw [tight_level]
      exact .chain (.operator chainPhrase rfl rightPhrase)
  | @unary _ op operand _ ih =>
    intro lexemes hlexemes
    obtain ⟨loc, others, rfl, hothers⟩ := Lexeme.exists_cons hlexemes
    obtain ⟨copy, phrase, hcopy⟩ := stands_fitted (by omega) ih others hothers
    cases phrase with
    | unary phrase =>
      exact ⟨.unary loc op copy, Operand.unary (.operator phrase), by simp [Tree.unplaced, hcopy]⟩
  | @call _ name args _ _ ih =>
    intro lexemes hlexemes
    simp only [Tree.terminals, List.cons_append] at hlexemes
    obtain ⟨loc, others, rfl, hothers⟩ := Lexeme.exists_cons hlexemes
    obtain ⟨paren, rest, rfl, hrest⟩ := Lexeme.exists_cons hothers
    obtain ⟨inside, close, behind, rfl, hinside, hbehind⟩ := Lexeme.exists_between hrest
    cases List.map_eq_nil_iff.1 hbehind
    have hargs : ∀ arg ∈ args, Stands Tree.unplaced Phrase.Expression arg.terminals arg := by
      intro arg hmem lexemes hlexemes
      obtain ⟨copy, phrase, hcopy⟩ := ih arg hmem lexemes hlexemes
      exact ⟨copy, phrase.mono (Nat.zero_le _), hcopy⟩
    obtain ⟨copies, phrases, hcopies⟩ := stands_anyListed hargs inside hinside
    refine ⟨.call loc name copies, ?_, by simp [Tree.unplaced, Tree.unplacedList_eq_map, hcopies]⟩
    exact Suffixed.call (.primary .name) phrases.callArguments
  | @index _ base subscript _ _ ihb ihs =>
    intro lexemes hlexemes
    simp only [Tree.terminals, List.append_assoc, List.cons_append] at hlexemes
    obtain ⟨before, bracket, behind, rfl, hbefore, hbehind⟩ := Lexeme.exists_between hlexemes
    obtain ⟨inside, close, last, rfl, hinside, hlast⟩ := Lexeme.exists_between hbehind
    cases List.map_eq_nil_iff.1 hlast
    obtain ⟨baseCopy, basePhrase, hbase⟩ := stands_fitted (by omega) ihb before hbefore
    obtain ⟨subscriptCopy, subscriptPhrase, hsubscript⟩ := ihs inside hinside
    refine ⟨.index bracket baseCopy subscriptCopy, ?_, by simp [Tree.unplaced, hbase, hsubscript]⟩
    show Suffixed _ _
    simpa using Suffixed.index basePhrase (subscriptPhrase.mono (Nat.zero_le _))
  | @conditional _ condition onTrue onFalse _ _ _ ihc iht ihf =>
    intro lexemes hlexemes
    simp only [Tree.terminals, List.append_assoc, List.cons_append] at hlexemes
    obtain ⟨test, question, behind, rfl, htest, hbehind⟩ := Lexeme.exists_between hlexemes
    obtain ⟨first, colon, second, rfl, hfirst, hsecond⟩ := Lexeme.exists_between hbehind
    obtain ⟨testCopy, testPhrase, htest⟩ := stands_fitted (by omega) ihc test htest
    obtain ⟨trueCopy, truePhrase, htrue⟩ := iht first hfirst
    obtain ⟨falseCopy, falsePhrase, hfalse⟩ := ihf second hsecond
    refine ⟨.conditional question testCopy trueCopy falseCopy, ?_, by simp [Tree.unplaced, htest, htrue, hfalse]⟩
    show Phrase.Expression _ _
    simpa using Phrase.Expression.conditional testPhrase (truePhrase.mono (Nat.zero_le _))
      (falsePhrase.mono (Nat.zero_le _))

theorem Expression.stands_expression (h : Expression vocabulary tree) :
    Stands Tree.unplaced Phrase.Expression tree.terminals tree := by
  intro lexemes hlexemes
  obtain ⟨copy, phrase, hcopy⟩ := h.stands lexemes hlexemes
  exact ⟨copy, phrase.mono (Nat.zero_le _), hcopy⟩

theorem Statement.exists_assignment (h : Statement vocabulary tree) (hkind : tree.kind = .assignment) :
    ∃ loc target value, tree = .assignment loc target value ∧
      Expression vocabulary target ∧ Expression vocabulary value := by
  cases h with
  | assignment target value => exact ⟨_, _, _, rfl, target, value⟩
  | ifThen | ifThenElse | iteration | block => cases hkind

theorem Statement.stands_assignment (Adjacent : Location → Location → Prop) (h : Statement vocabulary tree)
    (hkind : tree.kind = .assignment) :
    Stands Tree.unplaced (Assignment Adjacent) tree.terminals tree := by
  intro lexemes hlexemes
  obtain ⟨_, target, value, rfl, targetExpression, valueExpression⟩ := h.exists_assignment hkind
  obtain ⟨before, equal, behind, rfl, hbefore, hbehind⟩ := Lexeme.exists_between hlexemes
  obtain ⟨targetCopy, targetPhrase, htarget⟩ := stands_fitted (by decide) targetExpression.stands before hbefore
  obtain ⟨valueCopy, valuePhrase, hvalue⟩ := valueExpression.stands_expression behind hbehind
  cases before with
  | nil => exact absurd rfl (Suffixed.ne_nil targetPhrase)
  | cons first others =>
    exact ⟨_, .equation targetPhrase valuePhrase, by simp [Tree.unplaced, htarget, hvalue]⟩

end Expressible

theorem Tree.exists_binary {tree : Tree} (h : tree.kind = .binary) :
    ∃ loc op left right, tree = .binary loc op left right := by
  cases tree with
  | binary loc op left right => exact ⟨loc, op, left, right, rfl⟩
  | _ => cases h

namespace Phrase

variable {Adjacent : Location → Location → Prop}

theorem Statement.exists_block {span : List Lexeme} {tree : Tree} (h : Statement Adjacent span tree)
    (hkind : tree.kind = .block) :
    ∃ brace inside close trees, span = ⟨.mark .openBrace, brace⟩ :: inside ++ [⟨.mark .closeBrace, close⟩] ∧
      tree = .block brace trees ∧ Statements Adjacent inside trees := by
  cases h with
  | assignment phrase => rw [phrase.kind_eq] at hkind; cases hkind
  | block phrase => exact ⟨_, _, _, _, rfl, rfl, phrase⟩
  | ifThen | ifThenElse | iteration => cases hkind

theorem stands_statements {trees : List Tree}
    (h : ∀ tree ∈ trees, Stands Tree.unplaced (Statement Adjacent) (tree.ended tree.terminals) tree) :
    Stands (List.map Tree.unplaced) (Statements Adjacent) (Tree.endedTerminals trees) trees := by
  induction trees with
  | nil =>
    intro lexemes hlexemes
    cases List.map_eq_nil_iff.1 hlexemes
    exact ⟨[], .none, rfl⟩
  | cons tree trees ih =>
    intro lexemes hlexemes
    obtain ⟨first, others, rfl, hfirst, hothers⟩ := List.map_eq_append_iff.1 hlexemes
    obtain ⟨copy, phrase, hcopy⟩ := h tree List.mem_cons_self first hfirst
    obtain ⟨copies, phrases, hcopies⟩ := ih (fun tree hmem => h tree (List.mem_cons_of_mem _ hmem)) others hothers
    exact ⟨copy :: copies, .more phrase phrases, by simp [hcopy, hcopies]⟩

end Phrase

namespace Expressible

open Phrase

variable {vocabulary : Vocabulary} {Adjacent : Location → Location → Prop} {tree : Tree}

theorem Statement.stands (h : Statement vocabulary tree) :
    Stands Tree.unplaced (Phrase.Statement Adjacent) (tree.ended tree.terminals) tree := by
  induction h with
  | @assignment loc target value targetExpression valueExpression =>
    have statement : Statement vocabulary (.assignment loc target value) :=
      .assignment targetExpression valueExpression
    intro lexemes hlexemes
    obtain ⟨span, semicolon, behind, rfl, hspan, hbehind⟩ := Lexeme.exists_between hlexemes
    cases List.map_eq_nil_iff.1 hbehind
    obtain ⟨copy, phrase, hcopy⟩ := statement.stands_assignment Adjacent rfl span hspan
    exact ⟨copy, .assignment phrase, hcopy⟩
  | ifThen condition _ ih =>
    intro lexemes hlexemes
    obtain ⟨loc, rest, rfl, hrest⟩ := Lexeme.exists_cons hlexemes
    obtain ⟨paren, inside, rfl, hinside⟩ := Lexeme.exists_cons hrest
    obtain ⟨test, close, branch, rfl, htest, hbranch⟩ := Lexeme.exists_between hinside
    obtain ⟨testCopy, testPhrase, htest⟩ := condition.stands_expression test htest
    obtain ⟨copy, phrase, hcopy⟩ := ih branch hbranch
    exact ⟨.ifThen loc testCopy copy, .ifThen testPhrase phrase, by simp [Tree.unplaced, htest, hcopy]⟩
  | ifThenElse condition _ htakes _ iht ihf =>
    intro lexemes hlexemes
    obtain ⟨loc, rest, rfl, hrest⟩ := Lexeme.exists_cons hlexemes
    obtain ⟨paren, inside, rfl, hinside⟩ := Lexeme.exists_cons hrest
    obtain ⟨before, other, second, rfl, hbefore, hsecond⟩ := Lexeme.exists_between hinside
    obtain ⟨test, close, first, rfl, htest, hfirst⟩ := Lexeme.exists_between hbefore
    obtain ⟨testCopy, testPhrase, htest⟩ := condition.stands_expression test htest
    obtain ⟨trueCopy, truePhrase, htrue⟩ := iht first hfirst
    obtain ⟨falseCopy, falsePhrase, hfalse⟩ := ihf second hsecond
    have hcopyTakes : trueCopy.takesElse = false := by
      rw [← Tree.takesElse_unplaced, htrue, Tree.takesElse_unplaced]
      exact htakes
    exact ⟨.ifThenElse loc testCopy trueCopy falseCopy, .ifThenElse testPhrase truePhrase hcopyTakes falsePhrase,
      by simp [Tree.unplaced, htest, htrue, hfalse]⟩
  | iteration hinit init hguard guard hupdate update hbody _ _ _ ih =>
    intro lexemes hlexemes
    obtain ⟨loc, rest, rfl, hrest⟩ := Lexeme.exists_cons hlexemes
    obtain ⟨paren, inside, rfl, hinside⟩ := Lexeme.exists_cons hrest
    obtain ⟨header, close, last, rfl, hheader, hlast⟩ := Lexeme.exists_between hinside
    obtain ⟨header, second, third, rfl, hheader, hthird⟩ := Lexeme.exists_between hheader
    obtain ⟨first, semicolon, test, rfl, hfirst, htest⟩ := Lexeme.exists_between hheader
    obtain ⟨initCopy, initPhrase, hinitCopy⟩ := init.stands_assignment Adjacent hinit first hfirst
    obtain ⟨testCopy, testPhrase, htestCopy⟩ := stands_fitted (by decide) guard.stands test htest
    obtain ⟨updateCopy, updatePhrase, hupdateCopy⟩ := update.stands_assignment Adjacent hupdate third hthird
    have htestKind : testCopy.kind = .binary := by
      rw [← Tree.kind_unplaced, htestCopy, Tree.kind_unplaced]
      exact hguard
    obtain ⟨opLoc, op, left, right, rfl⟩ := Tree.exists_binary htestKind
    obtain ⟨bodyCopy, bodyPhrase, hbodyCopy⟩ := ih last (by simp [Tree.ended, hbody, hlast])
    have hbodyKind : bodyCopy.kind = .block := by
      rw [← Tree.kind_unplaced, hbodyCopy, Tree.kind_unplaced]
      exact hbody
    obtain ⟨brace, statements, closeBrace, copies, rfl, rfl, statementPhrases⟩ := bodyPhrase.exists_block hbodyKind
    refine ⟨.iteration loc initCopy (.binary opLoc op left right) updateCopy (.block brace copies), ?_,
      by simp [Tree.unplaced, ← hinitCopy, ← htestCopy, ← hupdateCopy, ← hbodyCopy]⟩
    simpa using Phrase.Statement.iteration initPhrase testPhrase updatePhrase statementPhrases
  | block _ ih =>
    intro lexemes hlexemes
    obtain ⟨brace, rest, rfl, hrest⟩ := Lexeme.exists_cons hlexemes
    obtain ⟨inside, close, behind, rfl, hinside, hbehind⟩ := Lexeme.exists_between hrest
    cases List.map_eq_nil_iff.1 hbehind
    obtain ⟨copies, phrase, hcopies⟩ := stands_statements ih inside hinside
    exact ⟨.block brace copies, .block phrase, by simp [Tree.unplaced, Tree.unplacedList_eq_map, hcopies]⟩

theorem Argument.stands (h : Argument vocabulary tree) : Stands Tree.unplaced Phrase.Argument tree.terminals tree := by
  cases h with
  | @declaration _ _ _ type name _ =>
    obtain ⟨base, pointer⟩ := type
    intro lexemes hlexemes
    obtain ⟨star, loc, behind, rfl, hstar, hbehind⟩ := Lexeme.exists_between hlexemes
    cases List.map_eq_nil_iff.1 hbehind
    obtain ⟨typeLoc, rest, rfl, hrest⟩ := Lexeme.exists_cons hstar
    refine ⟨.argument typeLoc (.dataType typeLoc ⟨base, pointer⟩) (.var loc name (some ⟨base, pointer⟩) none), ?_,
      rfl⟩
    cases pointer with
    | false =>
      cases List.map_eq_nil_iff.1 hrest
      exact .declaration .base
    | true =>
      obtain ⟨starLoc, rfl⟩ := Lexeme.exists_singleton hrest
      exact .declaration .pointer

theorem Returned.stands (h : Returned vocabulary tree) : Stands Tree.unplaced Phrase.Returned tree.terminals tree := by
  cases h with
  | @name _ name _ =>
    intro lexemes hlexemes
    obtain ⟨loc, rfl⟩ := Lexeme.exists_singleton hlexemes
    exact ⟨.var loc name none none, .name, rfl⟩

theorem stands_clauses {returned locals : List Tree} {body : Tree}
    (hreturned : ∀ name ∈ returned, Returned vocabulary name) (hlocals : ∀ arg ∈ locals, Argument vocabulary arg)
    (hbody : Statement vocabulary body) {lexemes : List Lexeme}
    (hlexemes : lexemes.map Lexeme.terminal = Terminal.clauses (Terminal.listed (Tree.terminalLists returned))
      (Terminal.listed (Tree.terminalLists locals)) (body.ended body.terminals)) :
    ∃ returnedCopies localCopies bodyCopy, Clauses Adjacent lexemes returnedCopies localCopies bodyCopy ∧
      returnedCopies.map Tree.unplaced = returned.map Tree.unplaced ∧
      localCopies.map Tree.unplaced = locals.map Tree.unplaced ∧
      bodyCopy.unplaced = body.unplaced := by
  obtain ⟨returns, rest, rfl, hrest⟩ := Lexeme.exists_cons hlexemes
  obtain ⟨paren, inside, rfl, hinside⟩ := Lexeme.exists_cons hrest
  obtain ⟨before, close', last, rfl, hbefore, hlast⟩ := Lexeme.exists_between hinside
  obtain ⟨names, close, clause, rfl, hnames, hclause⟩ := Lexeme.exists_between hbefore
  obtain ⟨localsLoc, clauseRest, rfl, hclauseRest⟩ := Lexeme.exists_cons hclause
  obtain ⟨paren', args, rfl, hargs⟩ := Lexeme.exists_cons hclauseRest
  obtain ⟨returnedCopies, returnedPhrase, hreturnedCopies⟩ :=
    stands_anyListed (fun name hmem => (hreturned name hmem).stands) names hnames
  obtain ⟨localCopies, localPhrase, hlocalCopies⟩ :=
    stands_anyListed (fun arg hmem => (hlocals arg hmem).stands) args hargs
  obtain ⟨bodyCopy, bodyPhrase, hbodyCopy⟩ := hbody.stands last hlast
  exact ⟨returnedCopies, localCopies, bodyCopy, .clauses returnedPhrase localPhrase bodyPhrase, hreturnedCopies,
    hlocalCopies, hbodyCopy⟩

theorem JoinSpec.stands (h : JoinSpec vocabulary tree) :
    Stands Tree.unplaced (Phrase.JoinSpec Adjacent) tree.terminals tree := by
  obtain ⟨hleft, hright, hreturned, hlocals, hbody⟩ := h
  intro lexemes hlexemes
  obtain ⟨loc, rest, rfl, hrest⟩ := Lexeme.exists_cons hlexemes
  obtain ⟨paren, inside, rfl, hinside⟩ := Lexeme.exists_cons hrest
  obtain ⟨before, close, clauses, rfl, hbefore, hclauses⟩ := Lexeme.exists_between hinside
  obtain ⟨left, pipe, right, rfl, hlefts, hrights⟩ := Lexeme.exists_between hbefore
  obtain ⟨leftCopies, leftPhrase, hleftCopies⟩ :=
    stands_anyListed (fun arg hmem => (hleft arg hmem).stands) left hlefts
  obtain ⟨rightCopies, rightPhrase, hrightCopies⟩ :=
    stands_anyListed (fun arg hmem => (hright arg hmem).stands) right hrights
  obtain ⟨returnedCopies, localCopies, bodyCopy, clausePhrase, hreturnedCopies, hlocalCopies, hbodyCopy⟩ :=
    stands_clauses hreturned hlocals hbody hclauses
  exact ⟨.joinSpec loc leftCopies rightCopies returnedCopies localCopies bodyCopy,
    .join leftPhrase rightPhrase clausePhrase,
    by simp [Tree.unplaced, Tree.unplacedList_eq_map, hleftCopies, hrightCopies, hreturnedCopies, hlocalCopies,
      hbodyCopy]⟩

theorem SequentialSpec.stands (h : SequentialSpec vocabulary tree) :
    Stands Tree.unplaced (Phrase.SequentialSpec Adjacent) tree.terminals tree := by
  obtain ⟨hargs, hreturned, hlocals, hbody⟩ := h
  intro lexemes hlexemes
  obtain ⟨loc, rest, rfl, hrest⟩ := Lexeme.exists_cons hlexemes
  obtain ⟨paren, inside, rfl, hinside⟩ := Lexeme.exists_cons hrest
  obtain ⟨args, close, clauses, rfl, hargList, hclauses⟩ := Lexeme.exists_between hinside
  obtain ⟨argCopies, argPhrase, hargCopies⟩ :=
    stands_anyListed (fun arg hmem => (hargs arg hmem).stands) args hargList
  obtain ⟨returnedCopies, localCopies, bodyCopy, clausePhrase, hreturnedCopies, hlocalCopies, hbodyCopy⟩ :=
    stands_clauses hreturned hlocals hbody hclauses
  exact ⟨.sequentialSpec loc argCopies returnedCopies localCopies bodyCopy, .sequential argPhrase clausePhrase,
    by simp [Tree.unplaced, Tree.unplacedList_eq_map, hargCopies, hreturnedCopies, hlocalCopies, hbodyCopy]⟩

theorem Program.stands (h : Program vocabulary tree) :
    Stands Tree.unplaced (Phrase.Program Adjacent) tree.terminals tree := by
  obtain ⟨join, sequential⟩ := h
  intro lexemes hlexemes
  obtain ⟨first, second, rfl, hfirst, hsecond⟩ := List.map_eq_append_iff.1 hlexemes
  obtain ⟨joinCopy, joinPhrase, hjoin⟩ := join.stands first hfirst
  obtain ⟨sequentialCopy, sequentialPhrase, hsequential⟩ := sequential.stands second hsecond
  exact ⟨.program joinCopy.loc joinCopy sequentialCopy, .program joinPhrase sequentialPhrase,
    by simp [Tree.unplaced, hjoin, hsequential]⟩

end Expressible

end RoutineSpec
