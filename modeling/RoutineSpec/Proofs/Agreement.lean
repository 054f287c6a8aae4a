import RoutineSpec.Proofs.Expressible
import RoutineSpec.Proofs.Inspection

/-! # What is read is nearly well-formed

In a program that has been read, repaired or not, every child fits its slot, with one exception: the grammar has
any statement for the body of a specification, where only a block is well-formed.
-/

namespace RoutineSpec

namespace Tree

/-- The tree and all below it are as they should be, in a slot that admits the tree. -/
def Fits (shape : Shape) (tree : Tree) : Prop :=
  shape.admits tree.kind = true ∧ tree.violations = []

/-- A tree has no violations if every child fits its slot. -/
theorem violations_eq_nil {tree : Tree}
    (h : ∀ demand ∈ tree.demands, demand.child.node.Fits demand.expected) : tree.violations = [] := by
  rw [violations_eq, List.flatMap_eq_nil_iff]
  intro demand hmem
  obtain ⟨hadmits, hbelow⟩ := h demand hmem
  simp [Demand.violation?, hadmits, hbelow]

end Tree

theorem Tree.Fits.exactly {shape : Shape} {tree : Tree} {kind : Kind} (h : tree.Fits shape) (hkind : tree.kind = kind) :
    tree.Fits (.exactly kind) :=
  ⟨decide_eq_true hkind.symm, h.2⟩

namespace Demand

variable {name : String} {shape : Shape}

@[simp] theorem node_only (node : Tree) : (only name shape node).child.node = node := rfl

@[simp] theorem expected_only (node : Tree) : (only name shape node).expected = shape := rfl

/-- Every child in a list fits its slot. -/
theorem fits_each {nodes : List Tree} (h : ∀ node ∈ nodes, node.Fits shape) :
    ∀ demand ∈ each name shape nodes, demand.child.node.Fits demand.expected := by
  intro demand hmem
  obtain ⟨child, hchild, rfl⟩ := List.mem_map.1 hmem
  exact h child.node (Child.node_mem_of_mem_each hchild)

end Demand

namespace Expressible

variable {vocabulary : Vocabulary} {tree : Tree}

theorem Expression.fits (h : Expression vocabulary tree) : tree.Fits .expression := by
  induction h with
  | var | integer | truth =>
    exact ⟨rfl, Tree.violations_eq_nil (by simp [Tree.demands])⟩
  | call _ _ ih =>
    exact ⟨rfl, Tree.violations_eq_nil (Demand.fits_each ih)⟩
  | unary _ ih =>
    exact ⟨rfl, Tree.violations_eq_nil (by simpa [Tree.demands] using ih)⟩
  | binary _ _ ihl ihr | index _ _ ihl ihr =>
    exact ⟨rfl, Tree.violations_eq_nil (by simp [Tree.demands, ihl, ihr])⟩
  | conditional _ _ _ ihc iht ihf =>
    exact ⟨rfl, Tree.violations_eq_nil (by simp [Tree.demands, ihc, iht, ihf])⟩

theorem Statement.fits (h : Statement vocabulary tree) : tree.Fits .statement := by
  induction h with
  | assignment target value =>
    exact ⟨rfl, Tree.violations_eq_nil (by simp [Tree.demands, target.fits, value.fits])⟩
  | ifThen condition _ iht =>
    exact ⟨rfl, Tree.violations_eq_nil (by simp [Tree.demands, condition.fits, iht])⟩
  | ifThenElse condition _ _ _ iht ihf =>
    exact ⟨rfl, Tree.violations_eq_nil (by simp [Tree.demands, condition.fits, iht, ihf])⟩
  | iteration hinit _ hguard guard hupdate _ hbody _ ihi ihu ihb =>
    have slots := And.intro (ihi.exactly hinit) (And.intro (guard.fits.exactly hguard)
      (And.intro (ihu.exactly hupdate) (ihb.exactly hbody)))
    exact ⟨rfl, Tree.violations_eq_nil (by simpa [Tree.demands] using slots)⟩
  | block _ ih =>
    exact ⟨rfl, Tree.violations_eq_nil (Demand.fits_each ih)⟩

theorem Argument.fits (h : Argument vocabulary tree) : tree.Fits (.exactly .argument) := by
  cases h with
  | @declaration loc typeLoc nameLoc type name =>
    have htype : (Tree.dataType typeLoc type).Fits (.exactly .dataType) :=
      ⟨rfl, Tree.violations_eq_nil (by simp [Tree.demands])⟩
    have hname : (Tree.var nameLoc name (some type) none).Fits (.exactly .var) :=
      ⟨rfl, Tree.violations_eq_nil (by simp [Tree.demands])⟩
    exact ⟨rfl, Tree.violations_eq_nil (by simp [Tree.demands, htype, hname])⟩

theorem Returned.fits (h : Returned vocabulary tree) : tree.Fits (.exactly .var) := by
  cases h with
  | name => exact ⟨rfl, Tree.violations_eq_nil (by simp [Tree.demands])⟩

end Expressible

/-- The violation of a specification whose body is no block. -/
def Violation.looseBody (parent : Kind) (body : Tree) : Violation :=
  ⟨parent, ⟨"body", none⟩, .exactly .block, body.kind, body.loc⟩

/-- What a specification has to complain about if only its body may be amiss. -/
def Violation.ofBody (parent : Kind) (body : Tree) : List Violation :=
  if body.kind = .block then [] else [looseBody parent body]

namespace Tree

/-- The bodies of the two specifications of a program, that of the join specification first. -/
def bodies? : Tree → Option (Tree × Tree)
  | .program _ (.joinSpec _ _ _ _ _ join) (.sequentialSpec _ _ _ _ sequential) => some (join, sequential)
  | _ => none

/-- Where all slots but that of the body are filled as they should be, the body alone may be amiss. -/
theorem violations_eq_ofBody {tree body : Tree} {others : List Demand}
    (hdemands : tree.demands = others ++ [.only "body" (.exactly .block) body])
    (hothers : ∀ demand ∈ others, demand.child.node.Fits demand.expected) (hbody : body.violations = []) :
    tree.violations = Violation.ofBody tree.kind body := by
  have hnone : (others.flatMap fun demand =>
      (demand.violation? tree.kind).toList ++ demand.child.node.violations) = [] := by
    apply List.flatMap_eq_nil_iff.2
    intro demand hmem
    obtain ⟨hadmits, hbelow⟩ := hothers demand hmem
    simp [Demand.violation?, hadmits, hbelow]
  rw [violations_eq, hdemands, List.flatMap_append, hnone]
  by_cases hblock : body.kind = .block
  · simp [Violation.ofBody, Demand.violation?, Shape.admits, hbody, hblock]
  · have hother : ¬ Kind.block = body.kind := fun h => hblock h.symm
    simp [Violation.ofBody, Violation.looseBody, Demand.violation?, Demand.only, Child.only, Shape.admits, hbody,
      hblock, hother]

end Tree

theorem Violation.ofBody_eq_nil_iff {parent : Kind} {body : Tree} : ofBody parent body = [] ↔ body.kind = .block := by
  simp [ofBody]

/-- A statement that is no block is an assignment, a selection or an iteration. -/
theorem Violation.found_mem_of_mem_ofBody {parent : Kind} {body : Tree} {violation : Violation}
    (hmem : violation ∈ ofBody parent body) (hbody : body.Fits .statement) :
    violation.found ∈ [Kind.assignment, .selection, .iteration] := by
  have hstatement : body.kind.isStatement = true := hbody.1
  unfold ofBody at hmem
  split at hmem
  · simp at hmem
  · next hblock =>
    cases List.mem_singleton.1 hmem
    cases hkind : body.kind <;> simp_all [looseBody, Kind.isStatement, Kind.family]

namespace Expressible

variable {vocabulary : Vocabulary} {tree : Tree}

theorem Program.violations_eq (h : Program vocabulary tree) :
    ∃ join sequential, tree.bodies? = some (join, sequential) ∧
      join.Fits .statement ∧ sequential.Fits .statement ∧
      tree.violations = Violation.ofBody .sequentialSpec sequential ++ Violation.ofBody .joinSpec join := by
  obtain ⟨joinSpec, sequentialSpec⟩ := h
  cases joinSpec with
  | @join joinLoc left right returned locals joinBody hleft hright hreturned hlocals joinStatement =>
  cases sequentialSpec with
  | @sequential loc args returned' locals' body hargs hreturned' hlocals' statement =>
  refine ⟨joinBody, body, rfl, joinStatement.fits, statement.fits, ?_⟩
  have hjoin : (Tree.joinSpec joinLoc left right returned locals joinBody).violations =
      Violation.ofBody .joinSpec joinBody := by
    apply Tree.violations_eq_ofBody rfl
    · simp only [List.forall_mem_append]
      exact ⟨⟨⟨Demand.fits_each fun arg hmem => (hleft arg hmem).fits,
        Demand.fits_each fun arg hmem => (hright arg hmem).fits⟩,
        Demand.fits_each fun name hmem => (hreturned name hmem).fits⟩,
        Demand.fits_each fun arg hmem => (hlocals arg hmem).fits⟩
    · exact joinStatement.fits.2
  have hsequential : (Tree.sequentialSpec loc args returned' locals' body).violations =
      Violation.ofBody .sequentialSpec body := by
    apply Tree.violations_eq_ofBody rfl
    · simp only [List.forall_mem_append]
      exact ⟨⟨Demand.fits_each fun arg hmem => (hargs arg hmem).fits,
        Demand.fits_each fun name hmem => (hreturned' name hmem).fits⟩,
        Demand.fits_each fun arg hmem => (hlocals' arg hmem).fits⟩
    · exact statement.fits.2
  rw [Tree.violations_eq]
  simp [Tree.demands, Demand.violation?, Shape.admits, Tree.kind, hjoin, hsequential]

end Expressible

namespace Reading

/-- Of a program that has been read, the bodies alone may be amiss, and it is well-formed if and only if both of
    them are blocks. -/
theorem violations_of_ofTokens {tokens : List Token} {reading : Reading} (h : ofTokens tokens = .ok reading) :
    ∃ join sequential, reading.program.bodies? = some (join, sequential) ∧
      reading.program.violations =
        Violation.ofBody .sequentialSpec sequential ++ Violation.ofBody .joinSpec join ∧
      (∀ violation ∈ reading.program.violations, violation.found ∈ [Kind.assignment, .selection, .iteration]) ∧
      (reading.program.isWellFormed = true ↔ join.kind = .block ∧ sequential.kind = .block) := by
  have hprogram : Expressible.Program .any reading.program := by
    apply Session.expressible_of_finish h
    intro lexeme _
    cases lexeme.terminal <;> trivial
  obtain ⟨join, sequential, hbodies, hjoin, hsequential, hviolations⟩ := hprogram.violations_eq
  refine ⟨join, sequential, hbodies, hviolations, ?_, ?_⟩
  · intro violation hmem
    rw [hviolations, List.mem_append] at hmem
    rcases hmem with hmem | hmem
    · exact Violation.found_mem_of_mem_ofBody hmem hsequential
    · exact Violation.found_mem_of_mem_ofBody hmem hjoin
  · rw [Tree.isWellFormed_iff, hviolations, List.append_eq_nil_iff, Violation.ofBody_eq_nil_iff,
      Violation.ofBody_eq_nil_iff, and_comm]

/-- The body of the join specification is repaired, and the other body is an assignment. -/
theorem violations_of_repaired :
    let tokens : List Token := [.keyword .join, .mark .openParen, .mark .pipe, .mark .closeParen,
      .keyword .returns, .mark .openParen, .mark .closeParen,
      .keyword .locals, .mark .openParen, .mark .closeParen, .identifier "x", .identifier "y",
      .keyword .sequential, .mark .openParen, .mark .closeParen,
      .keyword .returns, .mark .openParen, .mark .closeParen,
      .keyword .locals, .mark .openParen, .mark .closeParen,
      .identifier "x", .mark .equal, .integer 1, .mark .semicolon].map (Token.of · .start)
    ∃ reading, ofTokens tokens = .ok reading ∧ reading.repaired = true ∧
      ∃ join sequential, reading.program.bodies? = some (join, sequential) ∧
        reading.program.violations =
          Violation.ofBody .sequentialSpec sequential ++ Violation.ofBody .joinSpec join ∧
        (∀ violation ∈ reading.program.violations,
          violation.found ∈ [Kind.assignment, .selection, .iteration]) ∧
        (reading.program.isWellFormed = true ↔ join.kind = .block ∧ sequential.kind = .block) := by
  intro tokens
  have hread : ∃ reading, ofTokens tokens = .ok reading ∧ reading.repaired = true := ⟨_, rfl, rfl⟩
  obtain ⟨reading, hreading, hrepaired⟩ := hread
  exact ⟨reading, hreading, hrepaired, violations_of_ofTokens hreading⟩

end Reading

end RoutineSpec
