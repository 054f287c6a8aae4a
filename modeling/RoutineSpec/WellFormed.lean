import RoutineSpec.Tree.Children

/-! # Well-formed trees

What each slot of a tree demands of its child, and the violations of these demands in a whole tree:
all of them, or the first one only.
-/

namespace RoutineSpec

/-- What a slot admits. -/
inductive Shape where
  | expression
  | statement
  | exactly (kind : Kind)
  deriving Repr, DecidableEq

namespace Shape

def admits : Shape → Kind → Bool
  | .expression, kind => kind.isExpression
  | .statement, kind => kind.isStatement
  | .exactly demanded, kind => demanded = kind

def describe : Shape → String
  | .expression => "an expression"
  | .statement => "a statement"
  | .exactly kind => kind.name

end Shape

/-- A child of a kind that its slot does not admit. -/
structure Violation where
  /-- The kind of the tree that the slot belongs to. -/
  parent : Kind
  slot : Slot
  expected : Shape
  found : Kind
  /-- The place of the child. -/
  loc : Location
  deriving Repr, DecidableEq

def Violation.message (violation : Violation) : String :=
  s!"{violation.parent.name}.{violation.slot.label} at line {violation.loc.line}, column " ++
    s!"{violation.loc.column}: expected {violation.expected.describe}, found {violation.found.name}"

/-- A child and what its slot admits. -/
structure Demand where
  child : Child
  expected : Shape

namespace Demand

/-- The demand of a slot that holds one tree. -/
def only (name : String) (expected : Shape) (node : Tree) : Demand :=
  ⟨.only name node, expected⟩

/-- The demands of a slot that holds a list. -/
def each (name : String) (expected : Shape) (nodes : List Tree) : List Demand :=
  (Child.each name nodes).map fun child => ⟨child, expected⟩

theorem child_mem_of_mem_each {name : String} {expected : Shape} {nodes : List Tree} {demand : Demand}
    (h : demand ∈ each name expected nodes) : demand.child ∈ Child.each name nodes := by
  obtain ⟨child, hmem, rfl⟩ := List.mem_map.1 h
  exact hmem

/-- The violation that a demand of `parent` gives rise to, unless the child is of an admitted kind. -/
def violation? (parent : Kind) (demand : Demand) : Option Violation :=
  let node := demand.child.node
  if demand.expected.admits node.kind then none
  else some ⟨parent, demand.child.slot, demand.expected, node.kind, node.loc⟩

end Demand

namespace Tree

/-- The demands of a tree on its children, in the order in which they are examined: a program's
    sequential specification comes before its join specification. -/
def demands : Tree → List Demand
  | .var .. | .constant .. | .dataType .. => []
  | .binary _ _ left right => [.only "lexpr" .expression left, .only "rexpr" .expression right]
  | .unary _ _ operand => [.only "expr" .expression operand]
  | .call _ _ args => Demand.each "args" .expression args
  | .index _ base subscript => [.only "name" .expression base, .only "subscript" .expression subscript]
  | .conditional _ condition onTrue onFalse =>
    [.only "condition" .expression condition, .only "lexpr" .expression onTrue,
      .only "rexpr" .expression onFalse]
  | .block _ statements => Demand.each "statements" .statement statements
  | .assignment _ target value => [.only "lvalue" .expression target, .only "rvalue" .expression value]
  | .ifThen _ condition onTrue => [.only "cond" .expression condition, .only "thenb" .statement onTrue]
  | .ifThenElse _ condition onTrue onFalse =>
    [.only "cond" .expression condition, .only "thenb" .statement onTrue,
      .only "elseb" .statement onFalse]
  | .iteration _ init guard update body =>
    [.only "init" (.exactly .assignment) init, .only "guard" (.exactly .binary) guard,
      .only "update" (.exactly .assignment) update, .only "body" (.exactly .block) body]
  | .argument _ type name => [.only "type" (.exactly .dataType) type, .only "name" (.exactly .var) name]
  | .joinSpec _ left right returns locals body =>
    Demand.each "argsl" (.exactly .argument) left ++ Demand.each "argsr" (.exactly .argument) right ++
      Demand.each "returns" (.exactly .var) returns ++ Demand.each "locals" (.exactly .argument) locals ++
      [.only "body" (.exactly .block) body]
  | .sequentialSpec _ args returns locals body =>
    Demand.each "args" (.exactly .argument) args ++ Demand.each "returns" (.exactly .var) returns ++
      Demand.each "locals" (.exactly .argument) locals ++ [.only "body" (.exactly .block) body]
  | .program _ join sequential =>
    [.only "sequential" (.exactly .sequentialSpec) sequential, .only "join" (.exactly .joinSpec) join]

theorem child_mem_children {tree : Tree} {demand : Demand} (h : demand ∈ tree.demands) :
    demand.child ∈ tree.children := by
  cases tree <;>
    simp only [demands, children, List.mem_append, List.mem_cons, List.not_mem_nil, or_false] at h ⊢
  case call | block => exact Demand.child_mem_of_mem_each h
  case joinSpec =>
    rcases h with (((h | h) | h) | h) | rfl
    case inr => exact .inr rfl
    all_goals
      have := Demand.child_mem_of_mem_each h
      simp only [this, true_or, or_true]
  case sequentialSpec =>
    rcases h with ((h | h) | h) | rfl
    case inr => exact .inr rfl
    all_goals
      have := Demand.child_mem_of_mem_each h
      simp only [this, true_or, or_true]
  case unary => rw [h]; rfl
  case program => exact h.symm.imp (congrArg Demand.child) (congrArg Demand.child)
  case binary | index | assignment | ifThen | argument =>
    exact h.imp (congrArg Demand.child) (congrArg Demand.child)
  case conditional | ifThenElse =>
    exact h.imp (congrArg Demand.child) (.imp (congrArg Demand.child) (congrArg Demand.child))
  case iteration =>
    exact h.imp (congrArg Demand.child)
      (.imp (congrArg Demand.child) (.imp (congrArg Demand.child) (congrArg Demand.child)))

theorem sizeOf_lt_of_mem_demands {tree : Tree} {demand : Demand} (h : demand ∈ tree.demands) :
    sizeOf demand.child.node < sizeOf tree :=
  sizeOf_lt_of_mem_children (child_mem_children h)

/-- Every violation in a tree, depth first: a violation comes before those below the same child. -/
def violations (tree : Tree) : List Violation :=
  tree.demands.attach.flatMap fun ⟨demand, _⟩ =>
    (demand.violation? tree.kind).toList ++ demand.child.node.violations
termination_by sizeOf tree
decreasing_by exact sizeOf_lt_of_mem_demands ‹_›

theorem violations_eq (tree : Tree) :
    tree.violations = tree.demands.flatMap fun demand =>
      (demand.violation? tree.kind).toList ++ demand.child.node.violations := by
  rw [violations]
  simp [List.flatMap_subtype]

/-- The first violation in a tree. The search ends where it finds one. -/
def firstViolation? (tree : Tree) : Option Violation :=
  tree.demands.attach.findSome? fun ⟨demand, _⟩ =>
    match demand.violation? tree.kind with
    | some violation => some violation
    | none => demand.child.node.firstViolation?
termination_by sizeOf tree
decreasing_by exact sizeOf_lt_of_mem_demands ‹_›

theorem firstViolation?_eq (tree : Tree) :
    tree.firstViolation? = tree.demands.findSome? fun demand =>
      match demand.violation? tree.kind with
      | some violation => some violation
      | none => demand.child.node.firstViolation? := by
  rw [firstViolation?]
  simp [List.findSome?_subtype]

/-- No child in a tree is of a kind that its slot does not admit. -/
def isWellFormed (tree : Tree) : Bool :=
  tree.firstViolation?.isNone

end Tree

/-- How many violations the trees of one kind have. -/
structure Tally where
  kind : Kind
  count : Nat
  deriving Repr, DecidableEq

/-- The number of violations for each kind of parent that has any. -/
def Tally.ofViolations (violations : List Violation) : List Tally :=
  (Kind.all.map fun kind => ⟨kind, violations.countP (·.parent = kind)⟩).filter (0 < ·.count)

end RoutineSpec
