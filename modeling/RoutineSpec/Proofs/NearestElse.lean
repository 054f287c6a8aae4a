import RoutineSpec.Proofs.Expressible
import RoutineSpec.Proofs.Surroundings

/-! # The nearest `if`

Whatever is read is put together from expressible parts, also where something malformed has been left out inside. An
expressible selection leaves no `if` in front of its `else` that would take the `else`, so every `else` of a program
belongs to the nearest `if` that can take it.
-/

namespace RoutineSpec

/-- What goes from a tree to its children holds of all that is visited. -/
theorem Tree.forall_visits {Holds : Tree → Prop}
    (hchildren : ∀ {tree}, Holds tree → ∀ child ∈ tree.children, Holds child.node) {tree : Tree} (h : Holds tree)
    (path : List Slot) : ∀ visit ∈ tree.visitsFrom path, Holds visit.node := by
  intro visit hmem
  rw [visitsFrom_eq] at hmem
  rcases List.mem_cons.1 hmem with rfl | hmem
  · exact h
  · obtain ⟨child, hchild, hvisit⟩ := List.mem_flatMap.1 hmem
    exact forall_visits hchildren (hchildren h child hchild) _ visit hvisit
termination_by sizeOf tree
decreasing_by exact sizeOf_lt_of_mem_children hchild

namespace Expressible

/-- An expressible program, or what can stand in one. -/
inductive Part (vocabulary : Vocabulary) : Tree → Prop where
  | expression {tree} : Expression vocabulary tree → Part vocabulary tree
  | statement {tree} : Statement vocabulary tree → Part vocabulary tree
  | dataType {loc type} : Part vocabulary (.dataType loc type)
  /-- The name of an argument, which carries the type of the argument. -/
  | declared {loc name type} : vocabulary.name name → Part vocabulary (.var loc name (some type) none)
  | argument {tree} : Argument vocabulary tree → Part vocabulary tree
  | returned {tree} : Returned vocabulary tree → Part vocabulary tree
  | joinSpec {tree} : JoinSpec vocabulary tree → Part vocabulary tree
  | sequentialSpec {tree} : SequentialSpec vocabulary tree → Part vocabulary tree
  | program {tree} : Program vocabulary tree → Part vocabulary tree

section

variable {vocabulary : Vocabulary} {tree : Tree}

theorem Expression.children (h : Expression vocabulary tree) :
    ∀ child ∈ tree.children, Expression vocabulary child.node := by
  cases h with
  | var | integer | truth => simp [Tree.children]
  | binary left right => simp [Tree.children, left, right]
  | unary operand => simp [Tree.children, operand]
  | call _ hargs => exact fun child hmem => hargs _ (Child.node_mem_of_mem_each hmem)
  | index base subscript => simp [Tree.children, base, subscript]
  | conditional condition onTrue onFalse => simp [Tree.children, condition, onTrue, onFalse]

theorem Statement.children (h : Statement vocabulary tree) : ∀ child ∈ tree.children, Part vocabulary child.node := by
  cases h with
  | assignment target value =>
    simp [Tree.children, Part.expression target, Part.expression value]
  | ifThen condition onTrue => simp [Tree.children, Part.expression condition, Part.statement onTrue]
  | ifThenElse condition onTrue _ onFalse =>
    simp [Tree.children, Part.expression condition, Part.statement onTrue, Part.statement onFalse]
  | iteration _ init _ guard _ update _ body =>
    simp [Tree.children, Part.statement init, Part.expression guard, Part.statement update, Part.statement body]
  | block htrees => exact fun child hmem => .statement (htrees _ (Child.node_mem_of_mem_each hmem))

theorem JoinSpec.children (h : JoinSpec vocabulary tree) : ∀ child ∈ tree.children, Part vocabulary child.node := by
  cases h with
  | join hleft hright hreturned hlocals body =>
    intro child hmem
    simp only [Tree.children, List.mem_append, List.mem_singleton] at hmem
    rcases hmem with (((hmem | hmem) | hmem) | hmem) | rfl
    · exact .argument (hleft _ (Child.node_mem_of_mem_each hmem))
    · exact .argument (hright _ (Child.node_mem_of_mem_each hmem))
    · exact .returned (hreturned _ (Child.node_mem_of_mem_each hmem))
    · exact .argument (hlocals _ (Child.node_mem_of_mem_each hmem))
    · exact .statement body

theorem SequentialSpec.children (h : SequentialSpec vocabulary tree) :
    ∀ child ∈ tree.children, Part vocabulary child.node := by
  cases h with
  | sequential hargs hreturned hlocals body =>
    intro child hmem
    simp only [Tree.children, List.mem_append, List.mem_singleton] at hmem
    rcases hmem with ((hmem | hmem) | hmem) | rfl
    · exact .argument (hargs _ (Child.node_mem_of_mem_each hmem))
    · exact .returned (hreturned _ (Child.node_mem_of_mem_each hmem))
    · exact .argument (hlocals _ (Child.node_mem_of_mem_each hmem))
    · exact .statement body

theorem Part.children (h : Part vocabulary tree) : ∀ child ∈ tree.children, Part vocabulary child.node := by
  cases h with
  | expression phrase => exact fun child hmem => .expression (phrase.children child hmem)
  | statement phrase => exact phrase.children
  | dataType | declared => simp [Tree.children]
  | argument phrase =>
    cases phrase with
    | declaration hname => simp [Tree.children, Part.dataType, Part.declared hname]
  | returned phrase =>
    cases phrase with
    | name => simp [Tree.children]
  | joinSpec phrase => exact phrase.children
  | sequentialSpec phrase => exact phrase.children
  | program phrase =>
    cases phrase with
    | program join sequential => simp [Tree.children, Part.joinSpec join, Part.sequentialSpec sequential]

/-- A selection among the parts keeps its `else` from the branch in front of it. -/
theorem Part.takesElse_eq_false {loc : Location} {condition onTrue onFalse : Tree}
    (h : Part vocabulary (.ifThenElse loc condition onTrue onFalse)) : onTrue.takesElse = false := by
  cases h with
  | statement phrase =>
    cases phrase with
    | ifThenElse _ _ htakes _ => exact htakes
  | expression phrase | argument phrase | returned phrase | joinSpec phrase | sequentialSpec phrase
  | program phrase => cases phrase

end

end Expressible

namespace Reading

/-- An `else` belongs to the nearest `if`: wherever a selection with an else branch stands in a program that has been
    read, repaired or not, the branch in front of the `else` does not end in an `if` without one. -/
theorem ofTokens_else_nearest {tokens : List Token} {reading : Reading} (h : ofTokens tokens = .ok reading) :
    ∀ visit ∈ reading.program.visits, ∀ {loc condition onTrue onFalse},
      visit.node = .ifThenElse loc condition onTrue onFalse → onTrue.takesElse = false := by
  intro visit hmem loc condition onTrue onFalse hnode
  have hprogram : Expressible.Part .any reading.program := .program (Session.expressible_any_of_finish h)
  have hpart := Tree.forall_visits Expressible.Part.children hprogram [] visit hmem
  rw [hnode] at hpart
  exact hpart.takesElse_eq_false

/-- Of two `if` in a row the second one takes the `else`, behind a block in which a stray integer has been skipped. -/
theorem ofTokens_else_nearest_of_repaired :
    let terminals : List Terminal :=
      [.keyword .join, .mark .openParen, .mark .pipe, .mark .closeParen,
        .keyword .returns, .mark .openParen, .mark .closeParen, .keyword .locals, .mark .openParen, .mark .closeParen,
        .keyword .if_, .mark .openParen, .identifier "a", .mark .closeParen,
        .keyword .if_, .mark .openParen, .identifier "b", .mark .closeParen,
        .mark .openBrace, .integer 1, .mark .semicolon, .mark .closeBrace,
        .keyword .else_, .identifier "x", .mark .plus, .mark .plus, .mark .semicolon,
        .keyword .sequential, .mark .openParen, .mark .closeParen,
        .keyword .returns, .mark .openParen, .mark .closeParen, .keyword .locals, .mark .openParen, .mark .closeParen,
        .mark .openBrace, .mark .closeBrace]
    let tokens : List Token := terminals.mapIdx fun i terminal => .of terminal ⟨1, i + 1⟩
    let selection : Tree := .ifThenElse ⟨1, 15⟩ (.var ⟨1, 17⟩ "b" none none) (.block ⟨1, 19⟩ [])
      (.increment ⟨1, 24⟩ "x" .add ⟨1, 25⟩)
    let body : Tree := .ifThen ⟨1, 11⟩ (.var ⟨1, 13⟩ "a" none none) selection
    let join : Tree := .joinSpec ⟨1, 1⟩ [] [] [] [] body
    let program : Tree := .program ⟨1, 1⟩ join (.sequentialSpec ⟨1, 28⟩ [] [] [] (.block ⟨1, 37⟩ []))
    let error : SyntaxError := ⟨.expected .equalInAssignment, "';'", ⟨1, 21⟩⟩
    ofTokens tokens = .ok ⟨program, [.syntactic error]⟩ ∧
      ∃ visit ∈ program.visits, visit.node = selection ∧ (Tree.block ⟨1, 19⟩ []).takesElse = false := by
  intro terminals tokens selection body join program error
  have hread : ofTokens tokens = .ok ⟨program, [.syntactic error]⟩ := by
    unfold tokens terminals program join body selection error
    cbv
  have hbody : body.Contains selection := selection.contains_self.of_child (by simp [body, Tree.children])
  have hjoin : join.Contains selection := hbody.of_child (by simp [join, Tree.children])
  have hprogram : program.Contains selection := hjoin.of_child (by simp [program, Tree.children])
  obtain ⟨visit, hmem, hnode⟩ := hprogram []
  exact ⟨hread, visit, hmem, hnode, ofTokens_else_nearest hread visit hmem hnode⟩

end Reading

end RoutineSpec
