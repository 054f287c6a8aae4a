import Mathlib.Data.List.Perm.Basic
import RoutineSpec.WellFormed

/-! # Edges

An edge leads from a tree to one of its children. The rules of well-formedness, slot by slot, say which kinds an edge may
lead to, and a tree has one violation for each of its edges that leads to another kind. So the children that are examined
are those that a tree has, however ill-formed it is.
-/

namespace RoutineSpec

/-- The rule for a slot, given by the kind of its tree and its name. No slot has another name. -/
def Kind.rule? : Kind → String → Option Shape
  | .binary, "lexpr" | .binary, "rexpr" | .unary, "expr" | .call, "args" => some .expression
  | .index, "name" | .index, "subscript" => some .expression
  | .conditional, "condition" | .conditional, "lexpr" | .conditional, "rexpr" => some .expression
  | .block, "statements" => some .statement
  | .assignment, "lvalue" | .assignment, "rvalue" => some .expression
  | .selection, "cond" => some .expression
  | .selection, "thenb" | .selection, "elseb" => some .statement
  | .iteration, "init" | .iteration, "update" => some (.exactly .assignment)
  | .iteration, "guard" => some (.exactly .binary)
  | .iteration, "body" => some (.exactly .block)
  | .argument, "type" => some (.exactly .dataType)
  | .argument, "name" => some (.exactly .var)
  | .joinSpec, "argsl" | .joinSpec, "argsr" | .joinSpec, "locals" => some (.exactly .argument)
  | .sequentialSpec, "args" | .sequentialSpec, "locals" => some (.exactly .argument)
  | .joinSpec, "returns" | .sequentialSpec, "returns" => some (.exactly .var)
  | .joinSpec, "body" | .sequentialSpec, "body" => some (.exactly .block)
  | .program, "sequential" => some (.exactly .sequentialSpec)
  | .program, "join" => some (.exactly .joinSpec)
  | _, _ => none

/-- A tree and one of its children. -/
structure Edge where
  parent : Tree
  child : Child

/-- The violation that an edge stands for, unless the rule admits the kind of the child. -/
def Edge.violation? (edge : Edge) : Option Violation :=
  match edge.parent.kind.rule? edge.child.slot.name with
  | none => none
  | some shape =>
    if shape.admits edge.child.node.kind then none
    else some ⟨edge.parent.kind, edge.child.slot, shape, edge.child.node.kind, edge.child.node.loc⟩

namespace Tree

/-- The children of a tree as they are examined: the second specification of a program comes before the first. -/
def examined (tree : Tree) : List Child :=
  if tree.kind = .program then tree.children.reverse else tree.children

theorem examined_perm (tree : Tree) : tree.examined.Perm tree.children := by
  unfold examined
  split
  · exact List.reverse_perm _
  · exact List.Perm.refl _

/-- The edges of a tree, depth first: an edge comes before those below its child. -/
def edges (tree : Tree) : List Edge :=
  tree.examined.attach.flatMap fun ⟨child, _⟩ => ⟨tree, child⟩ :: child.node.edges
termination_by sizeOf tree
decreasing_by exact sizeOf_lt_of_mem_children (tree.examined_perm.mem_iff.1 ‹_›)

theorem edges_eq (tree : Tree) :
    tree.edges = tree.examined.flatMap fun child => ⟨tree, child⟩ :: child.node.edges := by
  rw [edges]
  simp [List.flatMap_subtype]

/-- The edges are those from the trees that are visited to their children. -/
theorem edges_perm_visitsFrom (path : List Slot) (tree : Tree) :
    tree.edges.Perm ((visitsFrom path tree).flatMap fun visit => visit.node.children.map (Edge.mk visit.node)) := by
  rw [edges_eq, visitsFrom_eq, List.flatMap_cons, List.flatMap_assoc]
  -- Visits give the edges to all siblings before those below the first one.
  have hbelow : ∀ child ∈ tree.children, child.node.edges.Perm
      ((visitsFrom (path ++ [child.slot]) child.node).flatMap fun visit =>
        visit.node.children.map (Edge.mk visit.node)) :=
    fun child hmem => edges_perm_visitsFrom (path ++ [child.slot]) child.node
  have hsiblings : (tree.children.flatMap fun child => Edge.mk tree child :: child.node.edges).Perm
      (tree.children.map (Edge.mk tree) ++ tree.children.flatMap fun child => child.node.edges) :=
    (List.map_append_flatMap_perm _ _ _).symm
  have hdescend := (List.Perm.flatMap_left _ hbelow).append_left (tree.children.map (Edge.mk tree))
  exact ((tree.examined_perm.flatMap_right _).trans hsiblings).trans hdescend
termination_by sizeOf tree
decreasing_by exact sizeOf_lt_of_mem_children hmem

/-! ## Demands and rules -/

/-- The children that demands are made on are those that a tree has. -/
theorem map_child_demands (tree : Tree) : tree.demands.map Demand.child = tree.examined := by
  have heach : ∀ name shape nodes, (Demand.each name shape nodes).map Demand.child = Child.each name nodes := by
    intro name shape nodes
    simp [Demand.each, Function.comp_def]
  cases tree <;> simp [demands, examined, children, kind, heach, Demand.only]

/-- Every demand follows the rule for its slot. -/
theorem rule?_of_mem_demands {tree : Tree} {demand : Demand} (h : demand ∈ tree.demands) :
    tree.kind.rule? demand.child.slot.name = some demand.expected := by
  have heach : ∀ {name shape nodes}, demand ∈ Demand.each name shape nodes →
      demand.child.slot.name = name ∧ demand.expected = shape := by
    intro name shape nodes hmem
    obtain ⟨child, hchild, rfl⟩ := List.mem_map.1 hmem
    obtain ⟨⟨node, i⟩, -, rfl⟩ := List.mem_map.1 hchild
    exact ⟨rfl, rfl⟩
  cases tree <;> simp only [demands, List.mem_append, List.mem_cons, List.not_mem_nil, or_false] at h
  case call | block =>
    obtain ⟨hname, hshape⟩ := heach h
    rw [hname, hshape]
    rfl
  case joinSpec =>
    rcases h with (((h | h) | h) | h) | rfl
    case inr => rfl
    all_goals
      obtain ⟨hname, hshape⟩ := heach h
      rw [hname, hshape]
      rfl
  case sequentialSpec =>
    rcases h with ((h | h) | h) | rfl
    case inr => rfl
    all_goals
      obtain ⟨hname, hshape⟩ := heach h
      rw [hname, hshape]
      rfl
  case unary => rw [h]; rfl
  case binary | index | assignment | ifThen | argument | program => rcases h with rfl | rfl <;> rfl
  case conditional | ifThenElse => rcases h with rfl | rfl | rfl <;> rfl
  case iteration => rcases h with rfl | rfl | rfl | rfl <;> rfl

theorem violation?_of_mem_demands {tree : Tree} {demand : Demand} (h : demand ∈ tree.demands) :
    demand.violation? tree.kind = Edge.violation? ⟨tree, demand.child⟩ := by
  simp only [Demand.violation?, Edge.violation?, rule?_of_mem_demands h]

/-- There is a rule for every edge. -/
theorem exists_rule_of_mem_edges {tree : Tree} {edge : Edge} (h : edge ∈ tree.edges) :
    ∃ shape, edge.parent.kind.rule? edge.child.slot.name = some shape := by
  rw [edges_eq, List.mem_flatMap] at h
  obtain ⟨child, hchild, hedge⟩ := h
  cases hedge with
  | tail _ hbelow => exact exists_rule_of_mem_edges hbelow
  | head =>
    rw [← map_child_demands] at hchild
    obtain ⟨demand, hdemand, rfl⟩ := List.mem_map.1 hchild
    exact ⟨demand.expected, rule?_of_mem_demands hdemand⟩
termination_by sizeOf tree
decreasing_by exact sizeOf_lt_of_mem_children (tree.examined_perm.mem_iff.1 hchild)

theorem violations_eq_filterMap (tree : Tree) : tree.violations = tree.edges.filterMap Edge.violation? := by
  have hbelow : ∀ demand ∈ tree.demands,
      (demand.violation? tree.kind).toList ++ demand.child.node.violations =
        (Edge.mk tree demand.child :: demand.child.node.edges).filterMap Edge.violation? := by
    intro demand hmem
    rw [violation?_of_mem_demands hmem, violations_eq_filterMap demand.child.node, List.filterMap_cons]
    cases Edge.violation? ⟨tree, demand.child⟩ <;> rfl
  calc
    tree.violations
    _ = tree.demands.flatMap fun demand =>
          (Edge.mk tree demand.child :: demand.child.node.edges).filterMap Edge.violation? := by
        rw [violations_eq]
        exact List.flatMap_congr hbelow
    _ = (tree.demands.map Demand.child).flatMap fun child =>
          (Edge.mk tree child :: child.node.edges).filterMap Edge.violation? := by
        rw [List.flatMap_map]
    _ = tree.edges.filterMap Edge.violation? := by
        rw [map_child_demands, edges_eq, List.filterMap_flatMap]
termination_by sizeOf tree
decreasing_by exact sizeOf_lt_of_mem_demands hmem

/-- The violations in a tree are those of its edges, one for each edge that leads to a kind which the rule for its slot
    does not admit, in the order in which the edges are examined. Each child of each tree that is visited is at the end
    of one edge, also below children that do not fit, and there is a rule for every edge. -/
theorem violations_are_bad_edges (tree : Tree) :
    tree.violations = tree.edges.filterMap Edge.violation? ∧
      tree.edges.Perm (tree.visits.flatMap fun visit => visit.node.children.map (Edge.mk visit.node)) ∧
      ∀ edge ∈ tree.edges, ∃ shape, edge.parent.kind.rule? edge.child.slot.name = some shape :=
  ⟨violations_eq_filterMap tree, edges_perm_visitsFrom [] tree, fun _ => exists_rule_of_mem_edges⟩

end Tree

end RoutineSpec
