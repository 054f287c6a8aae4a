import RoutineSpec.Proofs.ProgramSound
import RoutineSpec.Reading

/-! # Expressible trees

The trees that phrases stand for, told by their shape and not by a phrase. Which names and integers occur in them
depends on the vocabulary of the phrase.
-/

namespace RoutineSpec

/-- The text is a word and no reserved one. -/
def isName (text : String) : Bool :=
  match text.toList with
  | [] => false
  | c :: cs => isWordStart c && cs.all isWordChar && (Keyword.ofSpelling? text).isNone

/-- The names and integers that can occur. -/
structure Vocabulary where
  name : String → Prop
  integer : Int → Prop
  /-- An increment stands for the addition of a zero that nobody has written. -/
  zero : integer 0

namespace Vocabulary

/-- Whatever a token can hold. -/
def any : Vocabulary := ⟨fun _ => True, fun _ => True, trivial⟩

/-- Whatever can be written in a source text. -/
def written : Vocabulary where
  name text := isName text = true
  integer value := 0 ≤ value ∧ value ≤ maxInteger
  zero := by decide

/-- The name or integer of a terminal, if it has one, can occur. -/
def Admits (vocabulary : Vocabulary) : Terminal → Prop
  | .identifier name => vocabulary.name name
  | .integer value => vocabulary.integer value
  | .keyword _ | .mark _ => True

section Admits

variable {vocabulary : Vocabulary}

@[simp] theorem admits_identifier {name : String} :
    vocabulary.Admits (.identifier name) ↔ vocabulary.name name := .rfl

@[simp] theorem admits_integer {value : Int} : vocabulary.Admits (.integer value) ↔ vocabulary.integer value :=
  .rfl

@[simp] theorem admits_keyword {word : Keyword} : vocabulary.Admits (.keyword word) := trivial

@[simp] theorem admits_mark {sign : Mark} : vocabulary.Admits (.mark sign) := trivial

end Admits

end Vocabulary

namespace Expressible

inductive Expression (vocabulary : Vocabulary) : Tree → Prop where
  | var {loc name} : vocabulary.name name → Expression vocabulary (.var loc name none none)
  | integer {loc value} : vocabulary.integer value → Expression vocabulary (.constant loc (.int value))
  | truth {loc value} : Expression vocabulary (.constant loc (.bool value))
  | binary {loc op left right} :
      Expression vocabulary left → Expression vocabulary right → Expression vocabulary (.binary loc op left right)
  | unary {loc op operand} : Expression vocabulary operand → Expression vocabulary (.unary loc op operand)
  | call {loc name args} :
      vocabulary.name name →
      (∀ arg ∈ args, Expression vocabulary arg) →
      Expression vocabulary (.call loc name args)
  | index {loc base subscript} :
      Expression vocabulary base →
      Expression vocabulary subscript →
      Expression vocabulary (.index loc base subscript)
  | conditional {loc condition onTrue onFalse} :
      Expression vocabulary condition →
      Expression vocabulary onTrue →
      Expression vocabulary onFalse →
      Expression vocabulary (.conditional loc condition onTrue onFalse)

inductive Statement (vocabulary : Vocabulary) : Tree → Prop where
  | assignment {loc target value} :
      Expression vocabulary target →
      Expression vocabulary value →
      Statement vocabulary (.assignment loc target value)
  | ifThen {loc condition onTrue} :
      Expression vocabulary condition →
      Statement vocabulary onTrue →
      Statement vocabulary (.ifThen loc condition onTrue)
  /-- The branch before the `else` has no `if` of its own that would take it. -/
  | ifThenElse {loc condition onTrue onFalse} :
      Expression vocabulary condition →
      Statement vocabulary onTrue →
      onTrue.takesElse = false →
      Statement vocabulary onFalse →
      Statement vocabulary (.ifThenElse loc condition onTrue onFalse)
  | iteration {loc init guard update body} :
      init.kind = .assignment → Statement vocabulary init →
      guard.kind = .binary → Expression vocabulary guard →
      update.kind = .assignment → Statement vocabulary update →
      body.kind = .block → Statement vocabulary body →
      Statement vocabulary (.iteration loc init guard update body)
  | block {loc trees} :
      (∀ tree ∈ trees, Statement vocabulary tree) → Statement vocabulary (.block loc trees)

/-- A type and a name that carries the same type. -/
inductive Argument (vocabulary : Vocabulary) : Tree → Prop where
  | declaration {loc typeLoc nameLoc type name} :
      vocabulary.name name →
      Argument vocabulary (.argument loc (.dataType typeLoc type) (.var nameLoc name (some type) none))

inductive Returned (vocabulary : Vocabulary) : Tree → Prop where
  | name {loc name} : vocabulary.name name → Returned vocabulary (.var loc name none none)

inductive JoinSpec (vocabulary : Vocabulary) : Tree → Prop where
  | join {loc left right returned locals body} :
      (∀ arg ∈ left, Argument vocabulary arg) →
      (∀ arg ∈ right, Argument vocabulary arg) →
      (∀ name ∈ returned, Returned vocabulary name) →
      (∀ arg ∈ locals, Argument vocabulary arg) →
      Statement vocabulary body →
      JoinSpec vocabulary (.joinSpec loc left right returned locals body)

inductive SequentialSpec (vocabulary : Vocabulary) : Tree → Prop where
  | sequential {loc args returned locals body} :
      (∀ arg ∈ args, Argument vocabulary arg) →
      (∀ name ∈ returned, Returned vocabulary name) →
      (∀ arg ∈ locals, Argument vocabulary arg) →
      Statement vocabulary body →
      SequentialSpec vocabulary (.sequentialSpec loc args returned locals body)

inductive Program (vocabulary : Vocabulary) : Tree → Prop where
  | program {loc join sequential} :
      JoinSpec vocabulary join →
      SequentialSpec vocabulary sequential →
      Program vocabulary (.program loc join sequential)

end Expressible

namespace Phrase

variable {vocabulary : Vocabulary} {Adjacent : Location → Location → Prop}

mutual

theorem Expression.expressible : ∀ {span tree}, Expression span tree →
    (∀ lexeme ∈ span, vocabulary.Admits lexeme.terminal) → Expressible.Expression vocabulary tree
  | _, _, .disjunction phrase, hspan => phrase.expressible hspan
  | _, _, .conditional testPhrase truePhrase falsePhrase, hspan =>
    .conditional (testPhrase.expressible fun lexeme hmem => hspan lexeme (by simp [hmem]))
      (truePhrase.expressible fun lexeme hmem => hspan lexeme (by simp [hmem]))
      (falsePhrase.expressible fun lexeme hmem => hspan lexeme (by simp [hmem]))

theorem Operand.expressible : ∀ {levels span tree}, Operand levels span tree →
    (∀ lexeme ∈ span, vocabulary.Admits lexeme.terminal) → Expressible.Expression vocabulary tree
  | _, _, _, .unary phrase, hspan => phrase.expressible hspan
  | _, _, _, .chain phrase, hspan => phrase.expressible hspan

theorem Chain.expressible : ∀ {level tighter span tree}, Chain level tighter span tree →
    (∀ lexeme ∈ span, vocabulary.Admits lexeme.terminal) → Expressible.Expression vocabulary tree
  | _, _, _, _, .operand phrase, hspan => phrase.expressible hspan
  | _, _, _, _, .operator leftPhrase _ rightPhrase, hspan =>
    .binary (leftPhrase.expressible fun lexeme hmem => hspan lexeme (by simp [hmem]))
      (rightPhrase.expressible fun lexeme hmem => hspan lexeme (by simp [hmem]))

theorem Unary.expressible : ∀ {span tree}, Unary span tree →
    (∀ lexeme ∈ span, vocabulary.Admits lexeme.terminal) → Expressible.Expression vocabulary tree
  | _, _, .suffixed phrase, hspan => phrase.expressible hspan
  | _, _, .operator phrase, hspan =>
    .unary (phrase.expressible fun lexeme hmem => hspan lexeme (by simp [hmem]))

theorem Suffixed.expressible : ∀ {span tree}, Suffixed span tree →
    (∀ lexeme ∈ span, vocabulary.Admits lexeme.terminal) → Expressible.Expression vocabulary tree
  | _, _, .primary phrase, hspan => phrase.expressible hspan
  | _, _, .index basePhrase subscriptPhrase, hspan =>
    .index (basePhrase.expressible fun lexeme hmem => hspan lexeme (by simp [hmem]))
      (subscriptPhrase.expressible fun lexeme hmem => hspan lexeme (by simp [hmem]))
  | _, _, .call calleePhrase argPhrase, hspan => by
    have hargs := argPhrase.expressible fun lexeme hmem => hspan lexeme (by simp [hmem])
    cases calleePhrase.expressible fun lexeme hmem => hspan lexeme (by simp [hmem]) with
    | var hname => exact .call hname hargs

theorem CallArguments.expressible : ∀ {span trees}, CallArguments span trees →
    (∀ lexeme ∈ span, vocabulary.Admits lexeme.terminal) →
    ∀ tree ∈ trees, Expressible.Expression vocabulary tree
  | _, _, .none, _ => by simp
  | _, _, .some phrase, hspan => phrase.expressible hspan

theorem Expressions.expressible : ∀ {span trees}, Expressions span trees →
    (∀ lexeme ∈ span, vocabulary.Admits lexeme.terminal) →
    ∀ tree ∈ trees, Expressible.Expression vocabulary tree
  | _, _, .last phrase, hspan => by simpa using phrase.expressible hspan
  | _, _, .more phrase others, hspan =>
    List.forall_mem_cons.2 ⟨phrase.expressible fun lexeme hmem => hspan lexeme (by simp [hmem]),
      others.expressible fun lexeme hmem => hspan lexeme (by simp [hmem])⟩

theorem Primary.expressible : ∀ {span tree}, Primary span tree →
    (∀ lexeme ∈ span, vocabulary.Admits lexeme.terminal) → Expressible.Expression vocabulary tree
  | _, _, .integer, hspan => .integer (hspan ⟨.integer _, _⟩ List.mem_cons_self)
  | _, _, .true_, _ | _, _, .false_, _ => .truth
  | _, _, .name, hspan => .var (hspan ⟨.identifier _, _⟩ List.mem_cons_self)
  | _, _, .group phrase, hspan => phrase.expressible fun lexeme hmem => hspan lexeme (by simp [hmem])

end

theorem Assignment.kind_eq {span : List Lexeme} {tree : Tree} (h : Assignment Adjacent span tree) :
    tree.kind = .assignment := by
  cases h with
  | increment | equation => rfl

theorem Assignment.expressible {span : List Lexeme} {tree : Tree} (h : Assignment Adjacent span tree)
    (hspan : ∀ lexeme ∈ span, vocabulary.Admits lexeme.terminal) : Expressible.Statement vocabulary tree := by
  cases h with
  | increment =>
    have hname := hspan ⟨.identifier _, _⟩ List.mem_cons_self
    exact .assignment (.var hname) (.binary (.var hname) (.integer vocabulary.zero))
  | equation targetPhrase valuePhrase =>
    exact .assignment (targetPhrase.expressible fun lexeme hmem => hspan lexeme (List.mem_append_left _ hmem))
      (valuePhrase.expressible fun lexeme hmem => hspan lexeme (by simp [hmem]))

mutual

theorem Statement.expressible : ∀ {span tree}, Statement Adjacent span tree →
    (∀ lexeme ∈ span, vocabulary.Admits lexeme.terminal) → Expressible.Statement vocabulary tree
  | _, _, .assignment phrase, hspan =>
    phrase.expressible fun lexeme hmem => hspan lexeme (by simp [hmem])
  | _, _, .ifThen conditionPhrase truePhrase, hspan =>
    .ifThen (conditionPhrase.expressible fun lexeme hmem => hspan lexeme (by simp [hmem]))
      (truePhrase.expressible fun lexeme hmem => hspan lexeme (by simp [hmem]))
  | _, _, .ifThenElse conditionPhrase truePhrase htakes falsePhrase, hspan =>
    .ifThenElse (conditionPhrase.expressible fun lexeme hmem => hspan lexeme (by simp [hmem]))
      (truePhrase.expressible fun lexeme hmem => hspan lexeme (by simp [hmem])) htakes
      (falsePhrase.expressible fun lexeme hmem => hspan lexeme (by simp [hmem]))
  | _, _, .iteration initPhrase guardPhrase updatePhrase bodyPhrase, hspan =>
    .iteration initPhrase.kind_eq (initPhrase.expressible fun lexeme hmem => hspan lexeme (by simp [hmem]))
      rfl (guardPhrase.expressible fun lexeme hmem => hspan lexeme (by simp [hmem]))
      updatePhrase.kind_eq (updatePhrase.expressible fun lexeme hmem => hspan lexeme (by simp [hmem]))
      rfl (.block (bodyPhrase.expressible fun lexeme hmem => hspan lexeme (by simp [hmem])))
  | _, _, .block phrase, hspan =>
    .block (phrase.expressible fun lexeme hmem => hspan lexeme (by simp [hmem]))

theorem Statements.expressible : ∀ {span trees}, Statements Adjacent span trees →
    (∀ lexeme ∈ span, vocabulary.Admits lexeme.terminal) →
    ∀ tree ∈ trees, Expressible.Statement vocabulary tree
  | _, _, .none, _ => by simp
  | _, _, .more phrase others, hspan =>
    List.forall_mem_cons.2 ⟨phrase.expressible fun lexeme hmem => hspan lexeme (by simp [hmem]),
      others.expressible fun lexeme hmem => hspan lexeme (by simp [hmem])⟩

end

theorem Argument.expressible {span : List Lexeme} {tree : Tree} (h : Argument span tree)
    (hspan : ∀ lexeme ∈ span, vocabulary.Admits lexeme.terminal) : Expressible.Argument vocabulary tree := by
  cases h with
  | declaration =>
    exact .declaration (hspan ⟨.identifier _, _⟩ (List.mem_append_right _ List.mem_cons_self))

theorem Returned.expressible {span : List Lexeme} {tree : Tree} (h : Returned span tree)
    (hspan : ∀ lexeme ∈ span, vocabulary.Admits lexeme.terminal) : Expressible.Returned vocabulary tree := by
  cases h with
  | name => exact .name (hspan ⟨.identifier _, _⟩ List.mem_cons_self)

/-- What holds of the items of a list, given the vocabulary, holds of the whole list. -/
theorem AnyListed.expressible {Item : List Lexeme → Tree → Prop} {Holds : Tree → Prop} {span : List Lexeme}
    {trees : List Tree}
    (hitem : ∀ {span tree}, Item span tree → (∀ lexeme ∈ span, vocabulary.Admits lexeme.terminal) → Holds tree)
    (h : AnyListed Item span trees) (hspan : ∀ lexeme ∈ span, vocabulary.Admits lexeme.terminal) :
    ∀ tree ∈ trees, Holds tree := by
  cases h with
  | none => simp
  | some phrase =>
    induction phrase with
    | last phrase => simpa using hitem phrase hspan
    | more phrase _ ih =>
      intro tree htree
      cases htree with
      | head => exact hitem phrase fun lexeme hmem => hspan lexeme (by simp [hmem])
      | tail _ htree => exact ih (fun lexeme hmem => hspan lexeme (by simp [hmem])) tree htree

theorem JoinSpec.expressible {span : List Lexeme} {tree : Tree} (h : JoinSpec Adjacent span tree)
    (hspan : ∀ lexeme ∈ span, vocabulary.Admits lexeme.terminal) : Expressible.JoinSpec vocabulary tree := by
  obtain ⟨leftPhrase, rightPhrase, clausePhrase⟩ := h
  obtain ⟨returnedPhrase, localPhrase, bodyPhrase⟩ := clausePhrase
  constructor
  · exact leftPhrase.expressible Argument.expressible fun lexeme hmem => hspan lexeme (by simp [hmem])
  · exact rightPhrase.expressible Argument.expressible fun lexeme hmem => hspan lexeme (by simp [hmem])
  · exact returnedPhrase.expressible Returned.expressible fun lexeme hmem => hspan lexeme (by simp [hmem])
  · exact localPhrase.expressible Argument.expressible fun lexeme hmem => hspan lexeme (by simp [hmem])
  · exact bodyPhrase.expressible fun lexeme hmem => hspan lexeme (by simp [hmem])

theorem SequentialSpec.expressible {span : List Lexeme} {tree : Tree} (h : SequentialSpec Adjacent span tree)
    (hspan : ∀ lexeme ∈ span, vocabulary.Admits lexeme.terminal) :
    Expressible.SequentialSpec vocabulary tree := by
  obtain ⟨argPhrase, clausePhrase⟩ := h
  obtain ⟨returnedPhrase, localPhrase, bodyPhrase⟩ := clausePhrase
  constructor
  · exact argPhrase.expressible Argument.expressible fun lexeme hmem => hspan lexeme (by simp [hmem])
  · exact returnedPhrase.expressible Returned.expressible fun lexeme hmem => hspan lexeme (by simp [hmem])
  · exact localPhrase.expressible Argument.expressible fun lexeme hmem => hspan lexeme (by simp [hmem])
  · exact bodyPhrase.expressible fun lexeme hmem => hspan lexeme (by simp [hmem])

theorem Program.expressible {span : List Lexeme} {tree : Tree} (h : Program Adjacent span tree)
    (hspan : ∀ lexeme ∈ span, vocabulary.Admits lexeme.terminal) : Expressible.Program vocabulary tree := by
  obtain ⟨joinPhrase, sequentialPhrase⟩ := h
  constructor
  · exact joinPhrase.expressible fun lexeme hmem => hspan lexeme (by simp [hmem])
  · exact sequentialPhrase.expressible fun lexeme hmem => hspan lexeme (by simp [hmem])

end Phrase

/-- Whatever is read from a session, repaired or not, is an expressible program in the vocabulary of the
    session. -/
theorem Session.expressible_of_finish {vocabulary : Vocabulary} {session : Session} {reading : Reading}
    (h : session.finish = .ok reading)
    (hrest : ∀ lexeme ∈ session.rest, vocabulary.Admits lexeme.terminal) :
    Expressible.Program vocabulary reading.program := by
  obtain ⟨next, hdone, -⟩ := finish_eq_ok_iff.1 h
  obtain ⟨-, span, hreads, phrase⟩ := Grammar.program_sound hdone
  apply phrase.expressible
  intro lexeme hmem
  rcases hreads.source lexeme hmem with hsource | hbrace | hbrace
  · exact hrest lexeme hsource
  · rw [hbrace]; trivial
  · rw [hbrace]; trivial

/-- Whatever is read is expressible in some words. -/
theorem Session.expressible_any_of_finish {session : Session} {reading : Reading} (h : session.finish = .ok reading) :
    Expressible.Program .any reading.program := by
  apply expressible_of_finish h
  intro lexeme _
  cases lexeme.terminal <;> trivial

end RoutineSpec
