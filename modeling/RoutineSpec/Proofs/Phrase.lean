import RoutineSpec.Grammar.Program

/-! # Phrases

Which runs of lexemes are phrases of the grammar, and which tree stands for a phrase. Nothing is said here about
how a phrase is found: the relations are the productions, with the three readings that make them unambiguous.
Only a name is called, an increment is two signs side by side, and an `else` belongs to the nearest `if` that
can take it.
-/

namespace RoutineSpec

namespace Location

/-- `next` is in the next column of the same line. -/
def Adjoins (loc next : Location) : Prop :=
  loc.line = next.line ∧ loc.column + 1 = next.column

/-- Short of the last column there is no difference between the next column and the one that touches. -/
theorem touches_iff_adjoins {loc next : Location} (h : loc.column + 1 < columnCount) :
    loc.Touches next ↔ loc.Adjoins next := by
  simp only [Touches, Adjoins, Nat.mod_eq_of_lt h]

end Location

/-- The statement ends in an `if` without an `else`, to which an `else` behind it would belong. -/
def Tree.takesElse : Tree → Bool
  | .ifThen .. => true
  | .ifThenElse _ _ _ onFalse => onFalse.takesElse
  | _ => false

namespace Phrase

mutual

/-- A disjunction, alone or as the test of a conditional. -/
inductive Expression : List Lexeme → Tree → Prop where
  | disjunction {span tree} : Operand Precedence.ladder span tree → Expression span tree
  | conditional {test onTrue onFalse testTree trueTree falseTree question colon} :
      Operand Precedence.ladder test testTree →
      Expression onTrue trueTree →
      Expression onFalse falseTree →
      Expression (test ++ ⟨.mark .question, question⟩ :: onTrue ++ ⟨.mark .colon, colon⟩ :: onFalse)
        (.conditional question testTree trueTree falseTree)

/-- An operand that may hold binary operators of the given levels, the loosest first. -/
inductive Operand : List Precedence → List Lexeme → Tree → Prop where
  | unary {span tree} : Unary span tree → Operand [] span tree
  | chain {level tighter span tree} : Chain level tighter span tree → Operand (level :: tighter) span tree

/-- Operands of the tighter levels with operators of one level between them, which group to the left. -/
inductive Chain : Precedence → List Precedence → List Lexeme → Tree → Prop where
  | operand {level tighter span tree} : Operand tighter span tree → Chain level tighter span tree
  | operator {level tighter left right leftTree rightTree loc} {op : BinaryOp} :
      Chain level tighter left leftTree →
      op.precedence = level →
      Operand tighter right rightTree →
      Chain level tighter (left ++ ⟨.mark op.mark, loc⟩ :: right) (.binary loc op leftTree rightTree)

inductive Unary : List Lexeme → Tree → Prop where
  | suffixed {span tree} : Suffixed span tree → Unary span tree
  | operator {span tree loc} {op : UnaryOp} :
      Unary span tree → Unary (⟨.mark op.mark, loc⟩ :: span) (.unary loc op tree)

/-- A primary with indices and calls behind it. What is called has to be a name. -/
inductive Suffixed : List Lexeme → Tree → Prop where
  | primary {span tree} : Primary span tree → Suffixed span tree
  | index {base subscript baseTree subscriptTree bracket close} :
      Suffixed base baseTree →
      Expression subscript subscriptTree →
      Suffixed (base ++ ⟨.mark .openBracket, bracket⟩ :: subscript ++ [⟨.mark .closeBracket, close⟩])
        (.index bracket baseTree subscriptTree)
  | call {callee args name loc type id trees paren close} :
      Suffixed callee (.var loc name type id) →
      CallArguments args trees →
      Suffixed (callee ++ ⟨.mark .openParen, paren⟩ :: args ++ [⟨.mark .closeParen, close⟩])
        (.call loc name trees)

inductive CallArguments : List Lexeme → List Tree → Prop where
  | none : CallArguments [] []
  | some {span trees} : Expressions span trees → CallArguments span trees

/-- Expressions with commas between them. -/
inductive Expressions : List Lexeme → List Tree → Prop where
  | last {span tree} : Expression span tree → Expressions span [tree]
  | more {first others tree trees comma} :
      Expression first tree →
      Expressions others trees →
      Expressions (first ++ ⟨.mark .comma, comma⟩ :: others) (tree :: trees)

inductive Primary : List Lexeme → Tree → Prop where
  | integer {value loc} : Primary [⟨.integer value, loc⟩] (.constant loc (.int value))
  | true_ {loc} : Primary [⟨.keyword .true_, loc⟩] (.constant loc (.bool true))
  | false_ {loc} : Primary [⟨.keyword .false_, loc⟩] (.constant loc (.bool false))
  | name {name loc} : Primary [⟨.identifier name, loc⟩] (.var loc name none none)
  | group {span tree paren close} :
      Expression span tree →
      Primary (⟨.mark .openParen, paren⟩ :: span ++ [⟨.mark .closeParen, close⟩]) tree

end

/-- A name, maybe in parentheses. -/
inductive Named : List Lexeme → Location → String → Prop where
  | bare {name loc} : Named [⟨.identifier name, loc⟩] loc name
  | group {span name loc paren close} :
      Named span loc name →
      Named (⟨.mark .openParen, paren⟩ :: span ++ [⟨.mark .closeParen, close⟩]) loc name

/-! What is called is a name, maybe in parentheses: no other phrase stands for a variable. -/

mutual

theorem Expression.named : ∀ {span tree}, Expression span tree → ∀ {loc name type id},
    tree = .var loc name type id → Named span loc name ∧ type = none ∧ id = none
  | _, _, .disjunction phrase, _, _, _, _, htree => phrase.named htree
  | _, _, .conditional .., _, _, _, _, htree => by cases htree

theorem Operand.named : ∀ {levels span tree}, Operand levels span tree → ∀ {loc name type id},
    tree = .var loc name type id → Named span loc name ∧ type = none ∧ id = none
  | _, _, _, .unary phrase, _, _, _, _, htree => phrase.named htree
  | _, _, _, .chain phrase, _, _, _, _, htree => phrase.named htree

theorem Chain.named : ∀ {level tighter span tree}, Chain level tighter span tree → ∀ {loc name type id},
    tree = .var loc name type id → Named span loc name ∧ type = none ∧ id = none
  | _, _, _, _, .operand phrase, _, _, _, _, htree => phrase.named htree
  | _, _, _, _, .operator .., _, _, _, _, htree => by cases htree

theorem Unary.named : ∀ {span tree}, Unary span tree → ∀ {loc name type id},
    tree = .var loc name type id → Named span loc name ∧ type = none ∧ id = none
  | _, _, .suffixed phrase, _, _, _, _, htree => phrase.named htree
  | _, _, .operator .., _, _, _, _, htree => by cases htree

theorem Suffixed.named : ∀ {span tree}, Suffixed span tree → ∀ {loc name type id},
    tree = .var loc name type id → Named span loc name ∧ type = none ∧ id = none
  | _, _, .primary phrase, _, _, _, _, htree => phrase.named htree
  | _, _, .index .., _, _, _, _, htree => by cases htree
  | _, _, .call .., _, _, _, _, htree => by cases htree

theorem Primary.named : ∀ {span tree}, Primary span tree → ∀ {loc name type id},
    tree = .var loc name type id → Named span loc name ∧ type = none ∧ id = none
  | _, _, .name, _, _, _, _, htree => by cases htree; exact ⟨.bare, rfl, rfl⟩
  | _, _, .group phrase, _, _, _, _, htree => by
    obtain ⟨hnamed, htype, hid⟩ := phrase.named htree
    exact ⟨.group hnamed, htype, hid⟩
  | _, _, .integer, _, _, _, _, htree | _, _, .true_, _, _, _, _, htree
  | _, _, .false_, _, _, _, _, htree => by cases htree

end

theorem Unary.operand {span : List Lexeme} {tree : Tree} (h : Unary span tree) (levels : List Precedence) :
    Operand levels span tree := by
  induction levels with
  | nil => exact .unary h
  | cons level tighter ih => exact .chain (.operand ih)

theorem Suffixed.expression {span : List Lexeme} {tree : Tree} (h : Suffixed span tree) :
    Expression span tree :=
  .disjunction (Unary.operand (.suffixed h) _)

theorem Named.suffixed {span : List Lexeme} {loc : Location} {name : String} (h : Named span loc name) :
    Suffixed span (.var loc name none none) := by
  induction h with
  | bare => exact .primary .name
  | group _ ih => exact .primary (.group ih.expression)

/-- The phrases that can be called: the names, in any number of parentheses. -/
theorem suffixed_var_iff {span : List Lexeme} {loc : Location} {name : String} {type : Option DataType}
    {id : Option Nat} :
    Suffixed span (.var loc name type id) ↔ Named span loc name ∧ type = none ∧ id = none := by
  constructor
  · intro h
    exact h.named rfl
  · rintro ⟨h, rfl, rfl⟩
    exact h.suffixed

/-- An assignment without what ends it. The signs of an increment are of the places that `Adjacent` allows. -/
inductive Assignment (Adjacent : Location → Location → Prop) : List Lexeme → Tree → Prop where
  | increment {name loc first second} {op : BinaryOp} :
      op = .add ∨ op = .sub →
      Adjacent first second →
      Assignment Adjacent [⟨.identifier name, loc⟩, ⟨.mark op.mark, first⟩, ⟨.mark op.mark, second⟩]
        (.assignment loc (.var loc name none none)
          (.binary first op (.var loc name none none) (.constant first (.int 0))))
  | equation {first target value targetTree valueTree equal} :
      Suffixed (first :: target) targetTree →
      Expression value valueTree →
      Assignment Adjacent (first :: target ++ ⟨.mark .equal, equal⟩ :: value)
        (.assignment first.loc targetTree valueTree)

mutual

inductive Statement (Adjacent : Location → Location → Prop) : List Lexeme → Tree → Prop where
  | assignment {span tree semicolon} :
      Assignment Adjacent span tree → Statement Adjacent (span ++ [⟨.mark .semicolon, semicolon⟩]) tree
  | ifThen {condition onTrue conditionTree trueTree loc paren close} :
      Expression condition conditionTree →
      Statement Adjacent onTrue trueTree →
      Statement Adjacent
        (⟨.keyword .if_, loc⟩ :: ⟨.mark .openParen, paren⟩ :: condition ++
          ⟨.mark .closeParen, close⟩ :: onTrue)
        (.ifThen loc conditionTree trueTree)
  /-- The branch before the `else` has no `if` of its own that would take it. -/
  | ifThenElse {condition onTrue onFalse conditionTree trueTree falseTree loc paren close other} :
      Expression condition conditionTree →
      Statement Adjacent onTrue trueTree →
      trueTree.takesElse = false →
      Statement Adjacent onFalse falseTree →
      Statement Adjacent
        (⟨.keyword .if_, loc⟩ :: ⟨.mark .openParen, paren⟩ :: condition ++
          ⟨.mark .closeParen, close⟩ :: onTrue ++ ⟨.keyword .else_, other⟩ :: onFalse)
        (.ifThenElse loc conditionTree trueTree falseTree)
  /-- The guard is a disjunction, and a binary expression. -/
  | iteration {init guard update body initTree left right updateTree trees loc op opLoc}
      {paren first second close brace closeBrace : Location} :
      Assignment Adjacent init initTree →
      Operand Precedence.ladder guard (.binary opLoc op left right) →
      Assignment Adjacent update updateTree →
      Statements Adjacent body trees →
      Statement Adjacent
        (⟨.keyword .for_, loc⟩ :: ⟨.mark .openParen, paren⟩ :: init ++
          ⟨.mark .semicolon, first⟩ :: guard ++ ⟨.mark .semicolon, second⟩ :: update ++
          ⟨.mark .closeParen, close⟩ :: ⟨.mark .openBrace, brace⟩ :: body ++
          [⟨.mark .closeBrace, closeBrace⟩])
        (.iteration loc initTree (.binary opLoc op left right) updateTree (.block brace trees))
  | block {span trees brace close} :
      Statements Adjacent span trees →
      Statement Adjacent (⟨.mark .openBrace, brace⟩ :: span ++ [⟨.mark .closeBrace, close⟩])
        (.block brace trees)

inductive Statements (Adjacent : Location → Location → Prop) : List Lexeme → List Tree → Prop where
  | none : Statements Adjacent [] []
  | more {first others tree trees} :
      Statement Adjacent first tree →
      Statements Adjacent others trees →
      Statements Adjacent (first ++ others) (tree :: trees)

end

inductive DeclaredType : List Lexeme → DataType → Prop where
  | base {loc} {base : BaseType} : DeclaredType [⟨.keyword base.keyword, loc⟩] ⟨base, false⟩
  | pointer {loc star} {base : BaseType} :
      DeclaredType [⟨.keyword base.keyword, loc⟩, ⟨.mark .star, star⟩] ⟨base, true⟩

inductive Argument : List Lexeme → Tree → Prop where
  | declaration {first star type name loc} :
      DeclaredType (first :: star) type →
      Argument (first :: star ++ [⟨.identifier name, loc⟩])
        (.argument first.loc (.dataType first.loc type) (.var loc name (some type) none))

inductive Returned : List Lexeme → Tree → Prop where
  | name {name loc} : Returned [⟨.identifier name, loc⟩] (.var loc name none none)

/-- Items with commas between them. -/
inductive Listed (Item : List Lexeme → Tree → Prop) : List Lexeme → List Tree → Prop where
  | last {span tree} : Item span tree → Listed Item span [tree]
  | more {first others tree trees comma} :
      Item first tree →
      Listed Item others trees →
      Listed Item (first ++ ⟨.mark .comma, comma⟩ :: others) (tree :: trees)

/-- A list of items, which may be empty. -/
inductive AnyListed (Item : List Lexeme → Tree → Prop) : List Lexeme → List Tree → Prop where
  | none : AnyListed Item [] []
  | some {span trees} : Listed Item span trees → AnyListed Item span trees

/-- What follows the arguments of a specification: the returned names, the locals and the body. -/
inductive Clauses (Adjacent : Location → Location → Prop) :
    List Lexeme → List Tree → List Tree → Tree → Prop where
  | clauses {returned locals body returnedTrees localTrees bodyTree}
      {returns open_ close locals_ open' close' : Location} :
      AnyListed Returned returned returnedTrees →
      AnyListed Argument locals localTrees →
      Statement Adjacent body bodyTree →
      Clauses Adjacent
        (⟨.keyword .returns, returns⟩ :: ⟨.mark .openParen, open_⟩ :: returned ++
          ⟨.mark .closeParen, close⟩ :: ⟨.keyword .locals, locals_⟩ :: ⟨.mark .openParen, open'⟩ ::
          locals ++ ⟨.mark .closeParen, close'⟩ :: body)
        returnedTrees localTrees bodyTree

inductive JoinSpec (Adjacent : Location → Location → Prop) : List Lexeme → Tree → Prop where
  | join {left right clauses leftTrees rightTrees returned locals body loc paren pipe close} :
      AnyListed Argument left leftTrees →
      AnyListed Argument right rightTrees →
      Clauses Adjacent clauses returned locals body →
      JoinSpec Adjacent
        (⟨.keyword .join, loc⟩ :: ⟨.mark .openParen, paren⟩ :: left ++ ⟨.mark .pipe, pipe⟩ :: right ++
          ⟨.mark .closeParen, close⟩ :: clauses)
        (.joinSpec loc leftTrees rightTrees returned locals body)

inductive SequentialSpec (Adjacent : Location → Location → Prop) : List Lexeme → Tree → Prop where
  | sequential {args clauses argTrees returned locals body loc paren close} :
      AnyListed Argument args argTrees →
      Clauses Adjacent clauses returned locals body →
      SequentialSpec Adjacent
        (⟨.keyword .sequential, loc⟩ :: ⟨.mark .openParen, paren⟩ :: args ++
          ⟨.mark .closeParen, close⟩ :: clauses)
        (.sequentialSpec loc argTrees returned locals body)

/-- A whole program. Its place is that of its first specification. -/
inductive Program (Adjacent : Location → Location → Prop) : List Lexeme → Tree → Prop where
  | program {join sequential joinTree sequentialTree} :
      JoinSpec Adjacent join joinTree →
      SequentialSpec Adjacent sequential sequentialTree →
      Program Adjacent (join ++ sequential) (.program joinTree.loc joinTree sequentialTree)

end Phrase

end RoutineSpec
