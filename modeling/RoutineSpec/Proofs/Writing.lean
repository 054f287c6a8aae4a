import RoutineSpec.Proofs.Expressible

/-! # Writing trees as source text

The terminals that stand for a tree, with a blank between any two of them. An expression is in parentheses where
it binds less tightly than its slot demands, and nowhere else: not every tree is written as it was read, but what
is written is read as the tree.
-/

namespace RoutineSpec

/-- How many levels of binary operators are looser. -/
def Precedence.depth : Precedence → Nat
  | .disjunction => 0
  | .conjunction => 1
  | .equality => 2
  | .comparison => 3
  | .sum => 4
  | .product => 5

theorem Precedence.depth_lt (level : Precedence) : level.depth < 6 := by
  cases level <;> decide

theorem Precedence.depth_of_suffix {level : Precedence} {tighter : List Precedence}
    (h : level :: tighter <:+ Precedence.ladder) : level.depth + tighter.length = 5 := by
  simp only [Precedence.ladder, List.suffix_cons_iff, List.suffix_nil, reduceCtorEq, or_false] at h
  rcases h with h | h | h | h | h | h <;> cases h <;> rfl

/-- The text of a terminal. -/
def Terminal.spelling : Terminal → String
  | .identifier name => name
  | .integer value => toString value
  | .keyword word => word.spelling
  | .mark sign => sign.spelling

/-- Runs of terminals with commas between them. -/
def Terminal.listed (items : List (List Terminal)) : List Terminal :=
  [.mark .comma].intercalate items

/-- The clauses behind the arguments of a specification. -/
def Terminal.clauses (returned locals body : List Terminal) : List Terminal :=
  .keyword .returns :: .mark .openParen :: returned ++ .mark .closeParen :: .keyword .locals ::
    .mark .openParen :: locals ++ .mark .closeParen :: body

/-- The terminals of a declared type. -/
def DataType.terminals (type : DataType) : List Terminal :=
  .keyword type.base.keyword :: if type.pointer then [.mark .star] else []

namespace Tree

/-- How tightly an expression binds: a conditional is the loosest, then come the six levels of binary operators,
    unary operators and suffixes, and names, literals and groups are the tightest. -/
def tightness : Tree → Nat
  | .conditional .. => 0
  | .binary _ op _ _ => op.precedence.depth + 1
  | .unary .. => 7
  | .call .. | .index .. => 8
  | _ => 9

/-- The terminals of an expression, in parentheses where its slot demands one that binds more tightly. -/
def fitted (demanded : Nat) (tree : Tree) (terminals : List Terminal) : List Terminal :=
  if tree.tightness < demanded then .mark .openParen :: terminals ++ [.mark .closeParen] else terminals

/-- The terminals of a statement, with the semicolon behind an assignment. -/
def ended (tree : Tree) (terminals : List Terminal) : List Terminal :=
  if tree.kind = .assignment then terminals ++ [.mark .semicolon] else terminals

mutual

/-- The terminals that stand for a tree. -/
def terminals : Tree → List Terminal
  | .var _ name _ _ => [.identifier name]
  | .constant _ (.int value) => [.integer value]
  | .constant _ (.bool value) => [.keyword (if value then .true_ else .false_)]
  | .binary _ op left right =>
    left.fitted (op.precedence.depth + 1) left.terminals ++ .mark op.mark ::
      right.fitted (op.precedence.depth + 2) right.terminals
  | .unary _ op operand => .mark op.mark :: operand.fitted 7 operand.terminals
  | .call _ name args =>
    .identifier name :: .mark .openParen :: Terminal.listed (terminalLists args) ++
      [.mark .closeParen]
  | .index _ base subscript =>
    base.fitted 8 base.terminals ++ .mark .openBracket :: subscript.terminals ++ [.mark .closeBracket]
  | .conditional _ condition onTrue onFalse =>
    condition.fitted 1 condition.terminals ++ .mark .question :: onTrue.terminals ++
      .mark .colon :: onFalse.terminals
  | .block _ statements => .mark .openBrace :: endedTerminals statements ++ [.mark .closeBrace]
  | .assignment _ target value => target.fitted 8 target.terminals ++ .mark .equal :: value.terminals
  | .ifThen _ condition onTrue =>
    .keyword .if_ :: .mark .openParen :: condition.terminals ++ .mark .closeParen ::
      onTrue.ended onTrue.terminals
  | .ifThenElse _ condition onTrue onFalse =>
    .keyword .if_ :: .mark .openParen :: condition.terminals ++ .mark .closeParen ::
      onTrue.ended onTrue.terminals ++ .keyword .else_ :: onFalse.ended onFalse.terminals
  | .iteration _ init guard update body =>
    .keyword .for_ :: .mark .openParen :: init.terminals ++ .mark .semicolon ::
      guard.fitted 1 guard.terminals ++ .mark .semicolon :: update.terminals ++
      .mark .closeParen :: body.terminals
  | .dataType _ type => type.terminals
  | .argument _ type name => type.terminals ++ name.terminals
  | .joinSpec _ left right returns locals body =>
    .keyword .join :: .mark .openParen :: Terminal.listed (terminalLists left) ++ .mark .pipe ::
      Terminal.listed (terminalLists right) ++ .mark .closeParen ::
      Terminal.clauses (Terminal.listed (terminalLists returns)) (Terminal.listed (terminalLists locals))
        (body.ended body.terminals)
  | .sequentialSpec _ args returns locals body =>
    .keyword .sequential :: .mark .openParen :: Terminal.listed (terminalLists args) ++
      .mark .closeParen ::
      Terminal.clauses (Terminal.listed (terminalLists returns)) (Terminal.listed (terminalLists locals))
        (body.ended body.terminals)
  | .program _ join sequential => join.terminals ++ sequential.terminals

/-- The terminals of several trees, one list for each. -/
def terminalLists : List Tree → List (List Terminal)
  | [] => []
  | tree :: trees => tree.terminals :: terminalLists trees

/-- The terminals of statements one behind the other. -/
def endedTerminals : List Tree → List Terminal
  | [] => []
  | tree :: trees => tree.ended tree.terminals ++ endedTerminals trees

end

/-- The source text that stands for a tree. -/
def source (tree : Tree) : String :=
  " ".intercalate (tree.terminals.map Terminal.spelling)

mutual

/-- The tree with every place forgotten. Two trees are equal up to their places if they are equal then. -/
def unplaced : Tree → Tree
  | .var _ name type id => .var .start name type id
  | .constant _ value => .constant .start value
  | .binary _ op left right => .binary .start op left.unplaced right.unplaced
  | .unary _ op operand => .unary .start op operand.unplaced
  | .call _ name args => .call .start name (unplacedList args)
  | .index _ base subscript => .index .start base.unplaced subscript.unplaced
  | .conditional _ condition onTrue onFalse =>
    .conditional .start condition.unplaced onTrue.unplaced onFalse.unplaced
  | .block _ statements => .block .start (unplacedList statements)
  | .assignment _ target value => .assignment .start target.unplaced value.unplaced
  | .ifThen _ condition onTrue => .ifThen .start condition.unplaced onTrue.unplaced
  | .ifThenElse _ condition onTrue onFalse =>
    .ifThenElse .start condition.unplaced onTrue.unplaced onFalse.unplaced
  | .iteration _ init guard update body =>
    .iteration .start init.unplaced guard.unplaced update.unplaced body.unplaced
  | .dataType _ type => .dataType .start type
  | .argument _ type name => .argument .start type.unplaced name.unplaced
  | .joinSpec _ left right returns locals body =>
    .joinSpec .start (unplacedList left) (unplacedList right) (unplacedList returns) (unplacedList locals)
      body.unplaced
  | .sequentialSpec _ args returns locals body =>
    .sequentialSpec .start (unplacedList args) (unplacedList returns) (unplacedList locals) body.unplaced
  | .program _ join sequential => .program .start join.unplaced sequential.unplaced

def unplacedList : List Tree → List Tree
  | [] => []
  | tree :: trees => tree.unplaced :: unplacedList trees

end

section

attribute [local simp] unplaced unplacedList

theorem unplacedList_eq_map (trees : List Tree) : unplacedList trees = trees.map unplaced := by
  induction trees with
  | nil => rfl
  | cons tree trees ih => simp [ih]

end

@[simp] theorem kind_unplaced (tree : Tree) : tree.unplaced.kind = tree.kind := by
  cases tree <;> rfl

theorem takesElse_unplaced : ∀ tree : Tree, tree.unplaced.takesElse = tree.takesElse
  | .ifThenElse _ _ _ onFalse => takesElse_unplaced onFalse
  | .var .. | .constant .. | .binary .. | .unary .. | .call .. | .index .. | .conditional .. | .block ..
  | .assignment .. | .ifThen .. | .iteration .. | .dataType .. | .argument .. | .joinSpec ..
  | .sequentialSpec .. | .program .. => rfl

@[simp] theorem tightness_unplaced (tree : Tree) : tree.unplaced.tightness = tree.tightness := by
  cases tree <;> rfl

theorem fitted_unplaced (demanded : Nat) (tree : Tree) (terminals : List Terminal) :
    tree.unplaced.fitted demanded terminals = tree.fitted demanded terminals := by
  rw [fitted, tightness_unplaced, fitted]

theorem ended_unplaced (tree : Tree) (terminals : List Terminal) :
    tree.unplaced.ended terminals = tree.ended terminals := by
  rw [ended, kind_unplaced, ended]

section

attribute [local simp] unplaced terminals terminalLists endedTerminals unplacedList fitted_unplaced ended_unplaced

mutual

/-- What is written of a tree does not depend on its places. -/
theorem terminals_unplaced : ∀ tree : Tree, tree.unplaced.terminals = tree.terminals
  | .var .. | .dataType .. => by simp
  | .constant _ (.int _) | .constant _ (.bool _) => by simp
  | .binary _ _ left right => by simp [terminals_unplaced left, terminals_unplaced right]
  | .unary _ _ operand => by simp [terminals_unplaced operand]
  | .call _ _ args => by simp [terminalLists_unplaced args]
  | .index _ base subscript => by simp [terminals_unplaced base, terminals_unplaced subscript]
  | .conditional _ condition onTrue onFalse => by
    simp [terminals_unplaced condition, terminals_unplaced onTrue, terminals_unplaced onFalse]
  | .block _ statements => by simp [endedTerminals_unplaced statements]
  | .assignment _ target value => by simp [terminals_unplaced target, terminals_unplaced value]
  | .ifThen _ condition onTrue => by simp [terminals_unplaced condition, terminals_unplaced onTrue]
  | .ifThenElse _ condition onTrue onFalse => by
    simp [terminals_unplaced condition, terminals_unplaced onTrue, terminals_unplaced onFalse]
  | .iteration _ init guard update body => by
    simp [terminals_unplaced init, terminals_unplaced guard, terminals_unplaced update, terminals_unplaced body]
  | .argument _ type name => by simp [terminals_unplaced type, terminals_unplaced name]
  | .joinSpec _ left right returns locals body => by
    simp [terminalLists_unplaced left, terminalLists_unplaced right, terminalLists_unplaced returns,
      terminalLists_unplaced locals, terminals_unplaced body]
  | .sequentialSpec _ args returns locals body => by
    simp [terminalLists_unplaced args, terminalLists_unplaced returns, terminalLists_unplaced locals,
      terminals_unplaced body]
  | .program _ join sequential => by simp [terminals_unplaced join, terminals_unplaced sequential]

theorem terminalLists_unplaced : ∀ trees : List Tree, terminalLists (unplacedList trees) = terminalLists trees
  | [] => rfl
  | tree :: trees => by simp [terminals_unplaced tree, terminalLists_unplaced trees]

theorem endedTerminals_unplaced : ∀ trees : List Tree, endedTerminals (unplacedList trees) = endedTerminals trees
  | [] => rfl
  | tree :: trees => by simp [terminals_unplaced tree, endedTerminals_unplaced trees]

end

end

end Tree

namespace Expressible

variable {vocabulary : Vocabulary} {tree : Tree}

attribute [local simp] Tree.terminals Tree.terminalLists Tree.endedTerminals

theorem admits_fitted {demanded : Nat} (h : ∀ terminal ∈ tree.terminals, vocabulary.Admits terminal) :
    ∀ terminal ∈ tree.fitted demanded tree.terminals, vocabulary.Admits terminal := by
  unfold Tree.fitted
  split
  · simpa [or_imp, forall_and] using h
  · exact h

theorem admits_ended (h : ∀ terminal ∈ tree.terminals, vocabulary.Admits terminal) :
    ∀ terminal ∈ tree.ended tree.terminals, vocabulary.Admits terminal := by
  unfold Tree.ended
  split
  · simpa [or_imp, forall_and] using h
  · exact h

theorem admits_listed {trees : List Tree}
    (h : ∀ tree ∈ trees, ∀ terminal ∈ tree.terminals, vocabulary.Admits terminal) :
    ∀ terminal ∈ Terminal.listed (Tree.terminalLists trees), vocabulary.Admits terminal := by
  induction trees with
  | nil => simp [Terminal.listed]
  | cons tree trees ih =>
    simp only [List.forall_mem_cons] at h
    cases trees with
    | nil => simpa [Terminal.listed] using h.1
    | cons other trees =>
      have hothers := ih h.2
      simp only [Terminal.listed, Tree.terminalLists] at hothers ⊢
      rw [List.intercalate_cons_cons]
      simpa [or_imp, forall_and] using ⟨h.1, hothers⟩

theorem admits_endedTerminals {trees : List Tree}
    (h : ∀ tree ∈ trees, ∀ terminal ∈ tree.terminals, vocabulary.Admits terminal) :
    ∀ terminal ∈ Tree.endedTerminals trees, vocabulary.Admits terminal := by
  induction trees with
  | nil => simp
  | cons tree trees ih =>
    simp only [List.forall_mem_cons] at h
    simpa [or_imp, forall_and] using And.intro (admits_ended h.1) (ih h.2)

/-- What is written of an expression is in its vocabulary. -/
theorem Expression.admits (h : Expression vocabulary tree) :
    ∀ terminal ∈ tree.terminals, vocabulary.Admits terminal := by
  induction h with
  | var hname => simpa using hname
  | integer hvalue => simpa using hvalue
  | truth => simp
  | binary _ _ ihl ihr =>
    simpa [or_imp, forall_and] using And.intro (admits_fitted ihl) (admits_fitted ihr)
  | unary _ ih => simpa [or_imp, forall_and] using admits_fitted ih
  | call hname _ ih =>
    simpa [or_imp, forall_and] using And.intro hname (admits_listed ih)
  | index _ _ ihb ihs =>
    simpa [or_imp, forall_and] using And.intro (admits_fitted ihb) ihs
  | conditional _ _ _ ihc iht ihf =>
    simpa [or_imp, forall_and] using And.intro (admits_fitted ihc) (And.intro iht ihf)

theorem Statement.admits (h : Statement vocabulary tree) :
    ∀ terminal ∈ tree.terminals, vocabulary.Admits terminal := by
  induction h with
  | assignment target value =>
    simpa [or_imp, forall_and] using And.intro (admits_fitted target.admits) value.admits
  | ifThen condition _ iht =>
    simpa [or_imp, forall_and] using And.intro condition.admits (admits_ended iht)
  | ifThenElse condition _ _ _ iht ihf =>
    simpa [or_imp, forall_and] using
      And.intro condition.admits (And.intro (admits_ended iht) (admits_ended ihf))
  | iteration _ _ _ guard _ _ _ _ ihi ihu ihb =>
    simpa [or_imp, forall_and] using
      And.intro ihi (And.intro (admits_fitted guard.admits) (And.intro ihu ihb))
  | block _ ih => simpa [or_imp, forall_and] using admits_endedTerminals ih

theorem Argument.admits (h : Argument vocabulary tree) :
    ∀ terminal ∈ tree.terminals, vocabulary.Admits terminal := by
  cases h with
  | @declaration _ _ _ type _ hname =>
    cases hpointer : type.pointer <;>
      simpa [DataType.terminals, hpointer, or_imp, forall_and] using hname

theorem Returned.admits (h : Returned vocabulary tree) :
    ∀ terminal ∈ tree.terminals, vocabulary.Admits terminal := by
  cases h with
  | name hname => simpa using hname

theorem admits_clauses {returned locals : List Tree} {body : Tree}
    (hreturned : ∀ name ∈ returned, Returned vocabulary name) (hlocals : ∀ arg ∈ locals, Argument vocabulary arg)
    (hbody : Statement vocabulary body) :
    ∀ terminal ∈ Terminal.clauses (Terminal.listed (Tree.terminalLists returned))
        (Terminal.listed (Tree.terminalLists locals)) (body.ended body.terminals),
      vocabulary.Admits terminal := by
  have hnames := admits_listed fun name hmem => (hreturned name hmem).admits
  have hargs := admits_listed fun arg hmem => (hlocals arg hmem).admits
  simpa [Terminal.clauses, or_imp, forall_and] using
    And.intro hnames (And.intro hargs (admits_ended hbody.admits))

/-- What is written of a program is in its vocabulary. -/
theorem Program.admits (h : Program vocabulary tree) :
    ∀ terminal ∈ tree.terminals, vocabulary.Admits terminal := by
  obtain ⟨join, sequential⟩ := h
  obtain ⟨hleft, hright, hreturned, hlocals, hbody⟩ := join
  obtain ⟨hargs, hreturned', hlocals', hbody'⟩ := sequential
  have lefts := admits_listed fun arg hmem => (hleft arg hmem).admits
  have rights := admits_listed fun arg hmem => (hright arg hmem).admits
  have args := admits_listed fun arg hmem => (hargs arg hmem).admits
  have clauses := admits_clauses hreturned hlocals hbody
  have clauses' := admits_clauses hreturned' hlocals' hbody'
  simpa [or_imp, forall_and] using
    And.intro lefts (And.intro rights (And.intro clauses (And.intro args clauses')))

end Expressible

end RoutineSpec
