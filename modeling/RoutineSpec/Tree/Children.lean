import RoutineSpec.Tree

/-! # Children and visits

The children of a tree, each with the slot that it fills, and the visit of a whole tree in preorder.
-/

namespace RoutineSpec

/-- A slot of a tree, and the position in it where the slot holds a list. -/
structure Slot where
  name : String
  index : Option Nat
  deriving Repr, DecidableEq

/-- The slot's name, with the position in brackets. -/
def Slot.label (slot : Slot) : String :=
  match slot.index with
  | none => slot.name
  | some i => s!"{slot.name}[{i}]"

/-- A subtree and the slot of its parent that it fills. -/
structure Child where
  slot : Slot
  node : Tree

namespace Child

/-- The child in a slot that holds one tree. -/
def only (name : String) (node : Tree) : Child := ⟨⟨name, none⟩, node⟩

/-- The children in a slot that holds a list. -/
def each (name : String) (nodes : List Tree) : List Child :=
  nodes.zipIdx.map fun (node, i) => ⟨⟨name, some i⟩, node⟩

@[simp] theorem node_only (name : String) (node : Tree) : (only name node).node = node := rfl

@[simp] theorem map_node_each (name : String) (nodes : List Tree) : (each name nodes).map node = nodes := by
  simp [each, Function.comp_def]

theorem node_mem_of_mem_each {name : String} {nodes : List Tree} {child : Child}
    (h : child ∈ each name nodes) : child.node ∈ nodes := by
  obtain ⟨⟨node, i⟩, hmem, rfl⟩ := List.mem_map.1 h
  exact List.fst_mem_of_mem_zipIdx hmem

end Child

namespace Tree

/-- The children of a tree, slot by slot. -/
def children : Tree → List Child
  | .var .. | .constant .. | .dataType .. => []
  | .binary _ _ left right => [.only "lexpr" left, .only "rexpr" right]
  | .unary _ _ operand => [.only "expr" operand]
  | .call _ _ args => Child.each "args" args
  | .index _ base subscript => [.only "name" base, .only "subscript" subscript]
  | .conditional _ condition onTrue onFalse =>
    [.only "condition" condition, .only "lexpr" onTrue, .only "rexpr" onFalse]
  | .block _ statements => Child.each "statements" statements
  | .assignment _ target value => [.only "lvalue" target, .only "rvalue" value]
  | .ifThen _ condition onTrue => [.only "cond" condition, .only "thenb" onTrue]
  | .ifThenElse _ condition onTrue onFalse =>
    [.only "cond" condition, .only "thenb" onTrue, .only "elseb" onFalse]
  | .iteration _ init guard update body =>
    [.only "init" init, .only "guard" guard, .only "update" update, .only "body" body]
  | .argument _ type name => [.only "type" type, .only "name" name]
  | .joinSpec _ left right returns locals body =>
    Child.each "argsl" left ++ Child.each "argsr" right ++ Child.each "returns" returns ++
      Child.each "locals" locals ++ [.only "body" body]
  | .sequentialSpec _ args returns locals body =>
    Child.each "args" args ++ Child.each "returns" returns ++ Child.each "locals" locals ++
      [.only "body" body]
  | .program _ join sequential => [.only "join" join, .only "sequential" sequential]

theorem sizeOf_lt_of_mem_children {tree : Tree} {child : Child} (h : child ∈ tree.children) :
    sizeOf child.node < sizeOf tree := by
  have inList : ∀ {name nodes}, child ∈ Child.each name nodes → sizeOf child.node < sizeOf nodes :=
    fun h => List.sizeOf_lt_of_mem (Child.node_mem_of_mem_each h)
  cases tree <;> simp only [children, List.mem_append, List.mem_cons, List.not_mem_nil, or_false] at h
  case call | block =>
    have := inList h
    simp only [call.sizeOf_spec, block.sizeOf_spec]
    omega
  case joinSpec =>
    simp only [joinSpec.sizeOf_spec]
    rcases h with (((h | h) | h) | h) | rfl
    case inr => simp only [Child.only]; omega
    all_goals
      have := inList h
      omega
  case sequentialSpec =>
    simp only [sequentialSpec.sizeOf_spec]
    rcases h with ((h | h) | h) | rfl
    case inr => simp only [Child.only]; omega
    all_goals
      have := inList h
      omega
  case unary => subst h; simp +arith [Child.only]
  case binary | index | assignment | ifThen | argument | program =>
    rcases h with rfl | rfl <;> simp +arith [Child.only]
  case conditional | ifThenElse => rcases h with rfl | rfl | rfl <;> simp +arith [Child.only]
  case iteration => rcases h with rfl | rfl | rfl | rfl <;> simp +arith [Child.only]

end Tree

/-- A subtree met on the way through a tree, and the slots that lead to it, the outermost first. -/
structure Visit where
  path : List Slot
  node : Tree

namespace Tree

/-- A tree and all below it in preorder, `path` leading to the tree. -/
def visitsFrom (path : List Slot) (tree : Tree) : List Visit :=
  ⟨path, tree⟩ :: tree.children.attach.flatMap fun ⟨child, _⟩ =>
    visitsFrom (path ++ [child.slot]) child.node
termination_by sizeOf tree
decreasing_by exact sizeOf_lt_of_mem_children ‹_›

/-- A tree and all below it in preorder. -/
def visits (tree : Tree) : List Visit :=
  visitsFrom [] tree

theorem visitsFrom_eq (path : List Slot) (tree : Tree) :
    visitsFrom path tree =
      ⟨path, tree⟩ :: tree.children.flatMap fun child => visitsFrom (path ++ [child.slot]) child.node := by
  rw [visitsFrom]
  simp [List.flatMap_subtype]

end Tree

/-- The written form of a path: each label behind a slash. -/
def Visit.pathText (visit : Visit) : String :=
  String.join (visit.path.map fun slot => "/" ++ slot.label)

/-- A scalar attribute of a tree. -/
structure Attribute where
  name : String
  value : String
  deriving Repr, DecidableEq

/-- What a tree holds besides its place and its children. -/
def Tree.attributes : Tree → List Attribute
  | .var _ name type id =>
    ⟨"name", name⟩ :: ((type.map fun type => ⟨"type", type.spelling⟩).toList ++
      (id.map fun id => ⟨"id", toString id⟩).toList)
  | .constant _ value => [⟨"value", value.spelling⟩]
  | .binary _ op _ _ => [⟨"op", op.spelling⟩]
  | .unary _ op _ => [⟨"op", op.spelling⟩]
  | .call _ name _ => [⟨"name", name⟩]
  | .dataType _ type => [⟨"base", type.base.spelling⟩, ⟨"pointer", truthWord type.pointer⟩]
  | _ => []

end RoutineSpec
