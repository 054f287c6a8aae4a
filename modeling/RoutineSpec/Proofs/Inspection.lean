import RoutineSpec.WellFormed

/-! # Inspections

An inspection walks through a tree, slot by slot, and notes what does not fit. It comes in two modes. One notes every
violation. The other is over with the first one, though the walk still goes back through all the slots that it came
from. Whatever the tree, the second mode notes the first violation of the first mode, and nothing else.
-/

namespace RoutineSpec

/-- A walk on its way through a tree. -/
structure Inspection where
  /-- It is over with the first violation. -/
  stopsAtFirst : Bool
  /-- The violations so far. -/
  noted : List Violation
  deriving Repr, DecidableEq

namespace Inspection

/-- Nothing more is looked at. -/
def isOver (inspection : Inspection) : Bool :=
  inspection.stopsAtFirst && !inspection.noted.isEmpty

def note (inspection : Inspection) (violation : Violation) : Inspection :=
  { inspection with noted := inspection.noted ++ [violation] }

/-- Look at the child in one slot and then, unless this has ended the inspection, at what is below the child. -/
def examine (inspection : Inspection) (parent : Kind) (demand : Demand) (below : Inspection → Inspection) :
    Inspection :=
  if inspection.isOver then inspection
  else
    match demand.violation? parent with
    | none => below inspection
    | some violation =>
      if (inspection.note violation).isOver then inspection.note violation else below (inspection.note violation)

/-- Walk through all that is below a tree. -/
def walk (tree : Tree) (inspection : Inspection) : Inspection :=
  tree.demands.attach.foldl
    (fun inspection ⟨demand, _⟩ => inspection.examine tree.kind demand (walk demand.child.node)) inspection
termination_by sizeOf tree
decreasing_by exact Tree.sizeOf_lt_of_mem_demands ‹_›

theorem walk_eq (tree : Tree) (inspection : Inspection) :
    walk tree inspection =
      tree.demands.foldl (fun inspection demand => inspection.examine tree.kind demand (walk demand.child.node))
        inspection := by
  rw [walk]
  simp [List.foldl_subtype]

/-- The inspection that has come past these violations. -/
def past (stopsAtFirst : Bool) (violations : List Violation) : Inspection :=
  ⟨stopsAtFirst, if stopsAtFirst then violations.head?.toList else violations⟩

variable {stopsAtFirst : Bool} {violations : List Violation}

/-- What comes after the end of an inspection does not count. -/
theorem past_append_of_isOver (h : (past stopsAtFirst violations).isOver = true) (more : List Violation) :
    past stopsAtFirst (violations ++ more) = past stopsAtFirst violations := by
  cases stopsAtFirst with
  | false => cases h
  | true =>
    cases violations with
    | nil => cases h
    | cons => rfl

theorem note_past (h : (past stopsAtFirst violations).isOver = false) (violation : Violation) :
    (past stopsAtFirst violations).note violation = past stopsAtFirst (violations ++ [violation]) := by
  cases stopsAtFirst with
  | false => rfl
  | true =>
    cases violations with
    | nil => rfl
    | cons => cases h

/-- A slot is come past with the violation of its child and those below the child, whether or not the inspection
    ends there. -/
theorem examine_past {parent : Kind} {demand : Demand} {below : Inspection → Inspection} {found : List Violation}
    (hbelow : ∀ violations, below (past stopsAtFirst violations) = past stopsAtFirst (violations ++ found)) :
    (past stopsAtFirst violations).examine parent demand below =
      past stopsAtFirst (violations ++ ((demand.violation? parent).toList ++ found)) := by
  unfold examine
  split
  · next hover => rw [past_append_of_isOver hover]
  · next hgoes =>
    cases demand.violation? parent with
    | none => exact hbelow violations
    | some violation =>
      simp only [note_past (Bool.eq_false_iff.2 hgoes), Option.toList_some, ← List.append_assoc]
      split
      · next hover => rw [past_append_of_isOver hover]
      · exact hbelow (violations ++ [violation])

/-- A walk comes past all violations below a tree. -/
theorem walk_past (tree : Tree) (stopsAtFirst : Bool) (violations : List Violation) :
    walk tree (past stopsAtFirst violations) = past stopsAtFirst (violations ++ tree.violations) := by
  have hbelow : ∀ demand ∈ tree.demands, ∀ violations, walk demand.child.node (past stopsAtFirst violations) =
      past stopsAtFirst (violations ++ demand.child.node.violations) :=
    fun demand hmem => walk_past demand.child.node stopsAtFirst
  rw [walk_eq, Tree.violations_eq]
  generalize tree.kind = kind, tree.demands = demands at hbelow
  induction demands generalizing violations with
  | nil => simp
  | cons demand demands ih =>
    -- The walk comes to the next slot also when it is over, and then passes it without a look.
    obtain ⟨hfirst, hothers⟩ := List.forall_mem_cons.1 hbelow
    rw [List.foldl_cons, examine_past hfirst, ih _ hothers, List.flatMap_cons, List.append_assoc]
termination_by sizeOf tree
decreasing_by exact Tree.sizeOf_lt_of_mem_demands hmem

end Inspection

namespace Tree

/-- The violations that an inspection of the tree notes. -/
def inspect (stopsAtFirst : Bool) (tree : Tree) : List Violation :=
  (Inspection.walk tree ⟨stopsAtFirst, []⟩).noted

theorem inspect_all (tree : Tree) : tree.inspect false = tree.violations := by
  have hwalk := Inspection.walk_past tree false []
  exact congrArg Inspection.noted hwalk

theorem inspect_first (tree : Tree) : tree.inspect true = tree.violations.head?.toList := by
  have hwalk := Inspection.walk_past tree true []
  exact congrArg Inspection.noted hwalk

/-- The search for the first violation ends with it. -/
theorem firstViolation?_eq_head? (tree : Tree) : tree.firstViolation? = tree.violations.head? := by
  have below : ∀ demand ∈ tree.demands, demand.child.node.firstViolation? = demand.child.node.violations.head? :=
    fun demand hmem => firstViolation?_eq_head? demand.child.node
  rw [firstViolation?_eq, violations_eq]
  generalize tree.kind = kind, tree.demands = demands at below
  induction demands with
  | nil => rfl
  | cons demand demands ih =>
    simp only [List.forall_mem_cons] at below
    simp only [List.findSome?_cons, List.flatMap_cons, List.head?_append, ← ih below.2, below.1]
    cases demand.violation? kind with
    | some violation => simp
    | none => cases demand.child.node.violations.head? <;> simp
termination_by sizeOf tree
decreasing_by exact sizeOf_lt_of_mem_demands hmem

theorem isWellFormed_iff {tree : Tree} : tree.isWellFormed = true ↔ tree.violations = [] := by
  simp [isWellFormed, firstViolation?_eq_head?]

/-- The two modes agree on every tree, whatever is in its slots. The inspection that goes on notes all violations, the
    one that stops notes the first of them, or none if there is none. It finds what the search for the first violation
    finds, and so a tree is well-formed just if nothing is wrong in it. -/
theorem inspect_stops_with_first (tree : Tree) :
    tree.inspect false = tree.violations ∧
      tree.inspect true = tree.violations.head?.toList ∧
      tree.firstViolation? = (tree.inspect true).head? ∧
      tree.isWellFormed = (tree.inspect true).isEmpty ∧
      (tree.isWellFormed = true ↔ tree.violations = []) := by
  refine ⟨tree.inspect_all, tree.inspect_first, ?_, ?_, isWellFormed_iff⟩
  · rw [inspect_first, firstViolation?_eq_head?]
    cases tree.violations <;> rfl
  · rw [isWellFormed, inspect_first, firstViolation?_eq_head?]
    cases tree.violations <;> rfl

end Tree

end RoutineSpec
