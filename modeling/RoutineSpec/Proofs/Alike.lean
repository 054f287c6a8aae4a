import Mathlib.Data.List.Forall2
import RoutineSpec.Proofs.Writing
import RoutineSpec.WellFormed

/-! # Trees that differ in their places

`pairs` says which place of the one tree goes with which place of the other. All else about the trees is the same: they
are equal up to places, and the same is wrong with them.
-/

namespace RoutineSpec

namespace Tree

/-- The trees are the same, but for their places, which go together. -/
inductive Alike (pairs : Location → Location → Prop) : Tree → Tree → Prop where
  | var {loc loc' name type id} : pairs loc loc' → Alike pairs (.var loc name type id) (.var loc' name type id)
  | constant {loc loc' value} : pairs loc loc' → Alike pairs (.constant loc value) (.constant loc' value)
  | binary {loc loc' op left left' right right'} : pairs loc loc' → Alike pairs left left' →
      Alike pairs right right' → Alike pairs (.binary loc op left right) (.binary loc' op left' right')
  | unary {loc loc' op operand operand'} : pairs loc loc' → Alike pairs operand operand' →
      Alike pairs (.unary loc op operand) (.unary loc' op operand')
  | call {loc loc' name args args'} : pairs loc loc' → List.Forall₂ (Alike pairs) args args' →
      Alike pairs (.call loc name args) (.call loc' name args')
  | index {loc loc' base base' subscript subscript'} : pairs loc loc' → Alike pairs base base' →
      Alike pairs subscript subscript' → Alike pairs (.index loc base subscript) (.index loc' base' subscript')
  | conditional {loc loc' condition condition' onTrue onTrue' onFalse onFalse'} : pairs loc loc' →
      Alike pairs condition condition' → Alike pairs onTrue onTrue' → Alike pairs onFalse onFalse' →
      Alike pairs (.conditional loc condition onTrue onFalse) (.conditional loc' condition' onTrue' onFalse')
  | block {loc loc' statements statements'} : pairs loc loc' → List.Forall₂ (Alike pairs) statements statements' →
      Alike pairs (.block loc statements) (.block loc' statements')
  | assignment {loc loc' target target' value value'} : pairs loc loc' → Alike pairs target target' →
      Alike pairs value value' → Alike pairs (.assignment loc target value) (.assignment loc' target' value')
  | ifThen {loc loc' condition condition' onTrue onTrue'} : pairs loc loc' → Alike pairs condition condition' →
      Alike pairs onTrue onTrue' → Alike pairs (.ifThen loc condition onTrue) (.ifThen loc' condition' onTrue')
  | ifThenElse {loc loc' condition condition' onTrue onTrue' onFalse onFalse'} : pairs loc loc' →
      Alike pairs condition condition' → Alike pairs onTrue onTrue' → Alike pairs onFalse onFalse' →
      Alike pairs (.ifThenElse loc condition onTrue onFalse) (.ifThenElse loc' condition' onTrue' onFalse')
  | iteration {loc loc' init init' guard guard' update update' body body'} : pairs loc loc' →
      Alike pairs init init' → Alike pairs guard guard' → Alike pairs update update' → Alike pairs body body' →
      Alike pairs (.iteration loc init guard update body) (.iteration loc' init' guard' update' body')
  | dataType {loc loc' type} : pairs loc loc' → Alike pairs (.dataType loc type) (.dataType loc' type)
  | argument {loc loc' type type' name name'} : pairs loc loc' → Alike pairs type type' → Alike pairs name name' →
      Alike pairs (.argument loc type name) (.argument loc' type' name')
  | joinSpec {loc loc' left left' right right' returns returns' locals locals' body body'} : pairs loc loc' →
      List.Forall₂ (Alike pairs) left left' → List.Forall₂ (Alike pairs) right right' →
      List.Forall₂ (Alike pairs) returns returns' → List.Forall₂ (Alike pairs) locals locals' →
      Alike pairs body body' →
      Alike pairs (.joinSpec loc left right returns locals body) (.joinSpec loc' left' right' returns' locals' body')
  | sequentialSpec {loc loc' args args' returns returns' locals locals' body body'} : pairs loc loc' →
      List.Forall₂ (Alike pairs) args args' → List.Forall₂ (Alike pairs) returns returns' →
      List.Forall₂ (Alike pairs) locals locals' → Alike pairs body body' →
      Alike pairs (.sequentialSpec loc args returns locals body) (.sequentialSpec loc' args' returns' locals' body')
  | program {loc loc' join join' sequential sequential'} : pairs loc loc' → Alike pairs join join' →
      Alike pairs sequential sequential' → Alike pairs (.program loc join sequential) (.program loc' join' sequential')

variable {pairs : Location → Location → Prop} {tree other : Tree}

theorem Alike.kind_eq (h : tree.Alike pairs other) : tree.kind = other.kind := by
  cases h <;> rfl

theorem Alike.loc (h : tree.Alike pairs other) : pairs tree.loc other.loc := by
  cases h <;> assumption

mutual

/-- Trees that are alike are equal up to their places. -/
theorem Alike.unplaced_eq : ∀ {tree other : Tree}, tree.Alike pairs other → tree.unplaced = other.unplaced
  | _, _, .var _ | _, _, .constant _ | _, _, .dataType _ => rfl
  | _, _, .unary _ operand => by simp only [unplaced, operand.unplaced_eq]
  | _, _, .binary _ left right | _, _, .index _ left right | _, _, .assignment _ left right
  | _, _, .ifThen _ left right | _, _, .argument _ left right | _, _, .program _ left right => by
    simp only [unplaced, left.unplaced_eq, right.unplaced_eq]
  | _, _, .conditional _ first second third | _, _, .ifThenElse _ first second third => by
    simp only [unplaced, first.unplaced_eq, second.unplaced_eq, third.unplaced_eq]
  | _, _, .iteration _ init guard update body => by
    simp only [unplaced, init.unplaced_eq, guard.unplaced_eq, update.unplaced_eq, body.unplaced_eq]
  | _, _, .call _ trees | _, _, .block _ trees => by simp only [unplaced, unplacedList_eq_of_alike trees]
  | _, _, .joinSpec _ left right returns locals body => by
    simp only [unplaced, unplacedList_eq_of_alike left, unplacedList_eq_of_alike right,
      unplacedList_eq_of_alike returns, unplacedList_eq_of_alike locals, body.unplaced_eq]
  | _, _, .sequentialSpec _ args returns locals body => by
    simp only [unplaced, unplacedList_eq_of_alike args, unplacedList_eq_of_alike returns,
      unplacedList_eq_of_alike locals, body.unplaced_eq]

theorem unplacedList_eq_of_alike : ∀ {trees others : List Tree}, List.Forall₂ (Alike pairs) trees others →
    unplacedList trees = unplacedList others
  | _, _, .nil => rfl
  | _, _, .cons first rest => by simp only [unplacedList, first.unplaced_eq, unplacedList_eq_of_alike rest]

end

end Tree

/-! ## What is wrong with trees that are alike -/

/-- The violations are the same, but for the places of the children. -/
structure Violation.Alike (pairs : Location → Location → Prop) (violation other : Violation) : Prop where
  parent : violation.parent = other.parent
  slot : violation.slot = other.slot
  expected : violation.expected = other.expected
  found : violation.found = other.found
  loc : pairs violation.loc other.loc

namespace Demand

/-- The same is demanded of children that are alike. -/
structure Alike (pairs : Location → Location → Prop) (demand other : Demand) : Prop where
  slot : demand.child.slot = other.child.slot
  expected : demand.expected = other.expected
  node : demand.child.node.Alike pairs other.child.node

variable {pairs : Location → Location → Prop} {name : String} {shape : Shape}

theorem alike_only {node other : Tree} (h : node.Alike pairs other) :
    Alike pairs (only name shape node) (only name shape other) :=
  ⟨rfl, rfl, h⟩

theorem alike_each {nodes others : List Tree} (h : List.Forall₂ (Tree.Alike pairs) nodes others) :
    List.Forall₂ (Alike pairs) (each name shape nodes) (each name shape others) := by
  unfold each Child.each
  generalize 0 = start
  induction h generalizing start with
  | nil => exact .nil
  | cons first _ ih => exact .cons ⟨rfl, rfl, first⟩ (ih (start + 1))

theorem Alike.violation? {demand other : Demand} (h : demand.Alike pairs other) (parent : Kind) :
    List.Forall₂ (Violation.Alike pairs) (demand.violation? parent).toList (other.violation? parent).toList := by
  unfold Demand.violation?
  dsimp only
  rw [h.expected, h.node.kind_eq]
  split
  · exact .nil
  · exact .cons ⟨rfl, h.slot, rfl, rfl, h.node.loc⟩ .nil

end Demand

namespace Tree

variable {pairs : Location → Location → Prop} {tree other : Tree}

theorem Alike.demands (h : tree.Alike pairs other) :
    List.Forall₂ (Demand.Alike pairs) tree.demands other.demands := by
  open Demand List in
  cases h with
  | var | constant | dataType => exact .nil
  | unary _ operand => exact .cons (alike_only operand) .nil
  | binary _ left right | index _ left right | assignment _ left right | ifThen _ left right
  | argument _ left right => exact .cons (alike_only left) (.cons (alike_only right) .nil)
  | program _ join sequential => exact .cons (alike_only sequential) (.cons (alike_only join) .nil)
  | conditional _ first second third | ifThenElse _ first second third =>
    exact .cons (alike_only first) (.cons (alike_only second) (.cons (alike_only third) .nil))
  | iteration _ init guard update body =>
    exact .cons (alike_only init) (.cons (alike_only guard) (.cons (alike_only update) (.cons (alike_only body) .nil)))
  | call _ trees | block _ trees => exact alike_each trees
  | joinSpec _ left right returns locals body =>
    exact rel_append (rel_append (rel_append (rel_append (alike_each left) (alike_each right)) (alike_each returns))
      (alike_each locals)) (.cons (alike_only body) .nil)
  | sequentialSpec _ args returns locals body =>
    exact rel_append (rel_append (rel_append (alike_each args) (alike_each returns)) (alike_each locals))
      (.cons (alike_only body) .nil)

/-- In trees that are alike the same is wrong. -/
theorem Alike.violations {tree other : Tree} (h : tree.Alike pairs other) :
    List.Forall₂ (Violation.Alike pairs) tree.violations other.violations := by
  have along : ∀ {demands others : List Demand}, List.Forall₂ (Demand.Alike pairs) demands others →
      (∀ demand ∈ demands, ∀ {node}, demand.child.node.Alike pairs node →
        List.Forall₂ (Violation.Alike pairs) demand.child.node.violations node.violations) →
      List.Forall₂ (Violation.Alike pairs)
        (demands.flatMap fun demand => (demand.violation? tree.kind).toList ++ demand.child.node.violations)
        (others.flatMap fun demand => (demand.violation? tree.kind).toList ++ demand.child.node.violations) := by
    intro demands others halike below
    induction halike with
    | nil => exact .nil
    | cons first _ ih =>
      obtain ⟨hfirst, hrest⟩ := List.forall_mem_cons.1 below
      exact List.rel_append (List.rel_append (first.violation? _) (hfirst first.node)) (ih hrest)
  rw [violations_eq, violations_eq, ← h.kind_eq]
  exact along h.demands fun demand hmem _ hnode => hnode.violations
termination_by sizeOf tree
decreasing_by exact sizeOf_lt_of_mem_demands hmem

end Tree

end RoutineSpec
