import RoutineSpec.Proofs.ExpressionComplete
import RoutineSpec.Grammar.Progress

/-! # How operators group

The tree of operands with binary operators between them, told without the levels of the grammar: of the operators that
bind the loosest, the rightmost one is at the top, and what stands on either side of it is grouped in the same way. The
six levels of the grammar come to the same tree.
-/

namespace RoutineSpec

theorem Precedence.mem_ladder (level : Precedence) : level ∈ ladder := by
  cases level <;> decide

/-- A binary operator at its place, and the operand behind it. -/
structure Operation where
  op : BinaryOp
  loc : Location
  operand : Tree

namespace Operation

/-- The level of the operations that bind the loosest, if there are any. -/
def loosest? (operations : List Operation) : Option Precedence :=
  Precedence.ladder.find? fun level => operations.any fun operation => operation.op.precedence = level

/-- The last operation of a level, between what stands in front of it and what stands behind it. -/
def splitLast? (level : Precedence) : List Operation → Option (List Operation × Operation × List Operation)
  | [] => none
  | operation :: operations =>
    match splitLast? level operations with
    | some (before, last, behind) => some (operation :: before, last, behind)
    | none => if operation.op.precedence = level then some ([], operation, operations) else none

/-- The rightmost of the operations that bind the loosest, between what stands in front of it and behind it. -/
def split? (operations : List Operation) : Option (List Operation × Operation × List Operation) :=
  (loosest? operations).bind fun level => splitLast? level operations

variable {level : Precedence} {tighter : List Precedence} {operations before behind : List Operation}
  {last : Operation}

theorem splitLast?_eq_none (h : splitLast? level operations = none) :
    ∀ operation ∈ operations, operation.op.precedence ≠ level := by
  induction operations with
  | nil => simp
  | cons operation operations ih =>
    rw [splitLast?] at h
    split at h
    · cases h
    · next hnone =>
      split at h
      · cases h
      · next hother => exact List.forall_mem_cons.2 ⟨hother, ih hnone⟩

theorem splitLast?_eq_some (h : splitLast? level operations = some (before, last, behind)) :
    operations = before ++ last :: behind ∧ last.op.precedence = level ∧
      ∀ operation ∈ behind, operation.op.precedence ≠ level := by
  induction operations generalizing before with
  | nil => cases h
  | cons operation operations ih =>
    rw [splitLast?] at h
    split at h
    · next hsome =>
      cases h
      obtain ⟨hsplit, hlevel, hbehind⟩ := ih hsome
      exact ⟨congrArg _ hsplit, hlevel, hbehind⟩
    · next hnone =>
      split at h
      · next hlevel =>
        cases h
        exact ⟨rfl, hlevel, splitLast?_eq_none hnone⟩
      · cases h

theorem length_of_split? (h : split? operations = some (before, last, behind)) :
    before.length < operations.length ∧ behind.length < operations.length := by
  obtain ⟨level, -, hlast⟩ := Option.bind_eq_some_iff.1 h
  obtain ⟨rfl, -, -⟩ := splitLast?_eq_some hlast
  simp only [List.length_append, List.length_cons]
  omega

/-- Where no operation is looser than a level, those of the level are the loosest. -/
theorem loosest?_eq_some (hlevels : level :: tighter <:+ Precedence.ladder)
    (hall : ∀ operation ∈ operations, operation.op.precedence ∈ level :: tighter)
    (hlevel : ∃ operation ∈ operations, operation.op.precedence = level) : loosest? operations = some level := by
  obtain ⟨looser, hladder⟩ := hlevels
  have hdisjoint : ∀ other ∈ looser, other ∉ level :: tighter := by
    have hnodup : (looser ++ level :: tighter).Nodup := hladder ▸ (by decide : Precedence.ladder.Nodup)
    exact fun other hmem hmem' => (List.nodup_append.1 hnodup).2.2 other hmem other hmem' rfl
  have hlooser : looser.find? (fun level => operations.any fun operation => operation.op.precedence = level) = none := by
    simp only [List.find?_eq_none, List.any_eq_true, decide_eq_true_eq, not_exists, not_and]
    rintro other hother operation hmem rfl
    exact hdisjoint _ hother (hall operation hmem)
  have hfound : (operations.any fun operation => operation.op.precedence = level) = true := by simpa using hlevel
  rw [loosest?, ← hladder, List.find?_append, hlooser, List.find?_cons, hfound]
  rfl

end Operation

/-- The tree of a first operand and the operations behind it. -/
def Tree.grouped (first : Tree) (operations : List Operation) : Tree :=
  match _h : Operation.split? operations with
  | none => first
  | some (before, last, behind) => .binary last.loc last.op (first.grouped before) (last.operand.grouped behind)
termination_by operations.length
decreasing_by
  · exact (Operation.length_of_split? _h).1
  · exact (Operation.length_of_split? _h).2

theorem Tree.grouped_nil (first : Tree) : first.grouped [] = first := by
  rw [grouped]
  rfl

theorem Tree.grouped_of_split? {first : Tree} {operations before behind : List Operation} {last : Operation}
    (h : Operation.split? operations = some (before, last, behind)) :
    first.grouped operations = .binary last.loc last.op (first.grouped before) (last.operand.grouped behind) := by
  rw [grouped]
  split
  · next hnone => cases hnone.symm.trans h
  · next hsome =>
    cases hsome.symm.trans h
    rfl

namespace Phrase

/-- Operators, each with a unary expression behind it. -/
inductive Operations : List Lexeme → List Operation → Prop where
  | none : Operations [] []
  | more {op loc operand tree others operations} :
      Unary operand tree →
      Operations others operations →
      Operations (⟨.mark op.mark, loc⟩ :: operand ++ others) (⟨op, loc, tree⟩ :: operations)

theorem Operations.of_append {before behind : List Operation} {last : Operation} {span : List Lexeme}
    (h : Operations span (before ++ last :: behind)) :
    ∃ early operand late, span = early ++ ⟨.mark last.op.mark, last.loc⟩ :: operand ++ late ∧
      Operations early before ∧ Unary operand last.operand ∧ Operations late behind := by
  induction before generalizing span with
  | nil =>
    cases h with
    | more operandPhrase others => exact ⟨[], _, _, rfl, .none, operandPhrase, others⟩
  | cons operation before ih =>
    cases h with
    | more operandPhrase others =>
      obtain ⟨early, operand, late, rfl, hearly, hoperand, hlate⟩ := ih others
      exact ⟨_, operand, late, by simp, .more operandPhrase hearly, hoperand, hlate⟩

/-- Operations that are not looser than a level make a chain of the level, if those of the tighter levels make an
    operand of these. -/
theorem Operations.chain {level : Precedence} {tighter : List Precedence}
    (hlevels : level :: tighter <:+ Precedence.ladder)
    (htighter : ∀ {first tree others operations}, Unary first tree → Operations others operations →
      (∀ operation ∈ operations, operation.op.precedence ∈ tighter) →
      Operand tighter (first ++ others) (tree.grouped operations))
    {first others : List Lexeme} {tree : Tree} {operations : List Operation} (hfirst : Unary first tree)
    (hothers : Operations others operations)
    (hall : ∀ operation ∈ operations, operation.op.precedence ∈ level :: tighter) :
    Chain level tighter (first ++ others) (tree.grouped operations) := by
  cases hsplit : Operation.splitLast? level operations with
  | none =>
    refine .operand (htighter hfirst hothers fun operation hmem => ?_)
    exact (List.mem_cons.1 (hall operation hmem)).resolve_left (Operation.splitLast?_eq_none hsplit operation hmem)
  | some found =>
    obtain ⟨before, last, behind⟩ := found
    obtain ⟨hoperations, hlast, hbehind⟩ := Operation.splitLast?_eq_some hsplit
    have hloosest : Operation.loosest? operations = some level :=
      Operation.loosest?_eq_some hlevels hall ⟨last, by simp [hoperations], hlast⟩
    have hgrouped := @Tree.grouped_of_split? tree operations before behind last
      (by rw [Operation.split?, hloosest, Option.bind_some, hsplit])
    have hshorter : before.length < operations.length := by simp [hoperations]
    subst hoperations
    rw [List.forall_mem_append, List.forall_mem_cons] at hall
    obtain ⟨hbefore, -, hlate⟩ := hall
    obtain ⟨early, operand, late, rfl, hearly, hoperand, hlater⟩ := hothers.of_append
    have hleft := Operations.chain hlevels htighter hfirst hearly hbefore
    have hright := htighter hoperand hlater fun operation hmem =>
      (List.mem_cons.1 (hlate operation hmem)).resolve_left (hbehind operation hmem)
    rw [hgrouped]
    simpa using Chain.operator hleft hlast hright
termination_by operations.length

/-- A unary expression with operations of some levels behind it is an operand of the levels. -/
theorem Operations.operand : ∀ {levels : List Precedence}, levels <:+ Precedence.ladder →
    ∀ {first tree others operations}, Unary first tree → Operations others operations →
      (∀ operation ∈ operations, operation.op.precedence ∈ levels) →
      Operand levels (first ++ others) (tree.grouped operations)
  | [], _, _, tree, _, _, hfirst, .none, _ => by
    rw [List.append_nil, tree.grouped_nil]
    exact .unary hfirst
  | [], _, _, _, _, _, _, .more _ _, hall => absurd (hall _ List.mem_cons_self) List.not_mem_nil
  | _ :: tighter, hlevels, _, _, _, _, hfirst, hothers, hall =>
    have htighter : tighter <:+ Precedence.ladder := (List.suffix_cons _ _).trans hlevels
    .chain (Operations.chain hlevels (Operations.operand htighter) hfirst hothers hall)

theorem Operations.expression {first others : List Lexeme} {tree : Tree} {operations : List Operation}
    (hfirst : Unary first tree) (hothers : Operations others operations) :
    Expression (first ++ others) (tree.grouped operations) :=
  .disjunction (hothers.operand (List.suffix_refl _) hfirst fun _ _ => Precedence.mem_ladder _)

end Phrase

namespace Grammar

open Phrase

/-- Unary expressions with binary operators between them are read in front of a semicolon as the tree in which the
    rightmost of the loosest operators is at the top, and each operator is at its place. -/
theorem expression_of_operations {first others behind : List Lexeme} {tree : Tree} {operations : List Operation}
    {semicolon stop : Location} {diagnostics : List Diagnostic} {n : Nat} (hfirst : Unary first tree)
    (hothers : Operations others operations)
    (hn : 16 * (first ++ others ++ ⟨.mark .semicolon, semicolon⟩ :: behind).length + 11 ≤ n) :
    (expression n).run ⟨first ++ others ++ ⟨.mark .semicolon, semicolon⟩ :: behind, stop, diagnostics⟩ =
      .done (tree.grouped operations) ⟨⟨.mark .semicolon, semicolon⟩ :: behind, stop, diagnostics⟩ := by
  let next : Session := ⟨behind, stop, diagnostics⟩
  have hend : (next.unread [⟨.mark .semicolon, semicolon⟩]).EndsExpression :=
    Session.endsExpression_unread_cons (by decide)
  have hread : (expression n).Reads (first ++ others) (next.unread [⟨.mark .semicolon, semicolon⟩])
      (tree.grouped operations) := expression_complete (hothers.expression hfirst) hend
  refine hread.resolve_left ?_
  exact (expression_within n _ hn).ne_exhausted

/-- Of `a + b * -c == d || e - f - 1` the operator at the top is `||`, and the second of the two signs behind it takes
    the first one as its left operand. -/
theorem expression_of_operations_of_mixed_levels :
    let name (text : String) (column : Nat) : Lexeme := ⟨.identifier text, ⟨1, column⟩⟩
    let sign (mark : Mark) (column : Nat) : Lexeme := ⟨.mark mark, ⟨1, column⟩⟩
    let var (text : String) (column : Nat) : Tree := .var ⟨1, column⟩ text none none
    let negated : Tree := .unary ⟨1, 5⟩ .negate (var "c" 6)
    let one : Tree := .constant ⟨1, 14⟩ (.int 1)
    let operations : List Operation :=
      [⟨.add, ⟨1, 2⟩, var "b" 3⟩, ⟨.mul, ⟨1, 4⟩, negated⟩, ⟨.eq, ⟨1, 7⟩, var "d" 8⟩, ⟨.or, ⟨1, 9⟩, var "e" 10⟩,
        ⟨.sub, ⟨1, 11⟩, var "f" 12⟩, ⟨.sub, ⟨1, 13⟩, one⟩]
    let others : List Lexeme :=
      [sign .plus 2, name "b" 3, sign .star 4, sign .minus 5, name "c" 6, sign .equalEqual 7, name "d" 8, sign .orOr 9,
        name "e" 10, sign .minus 11, name "f" 12, sign .minus 13, ⟨.integer 1, ⟨1, 14⟩⟩]
    let equality : Tree := .binary ⟨1, 7⟩ .eq
      (.binary ⟨1, 2⟩ .add (var "a" 1) (.binary ⟨1, 4⟩ .mul (var "b" 3) negated)) (var "d" 8)
    let difference : Tree := .binary ⟨1, 13⟩ .sub (.binary ⟨1, 11⟩ .sub (var "e" 10) (var "f" 12)) one
    Unary [name "a" 1] (var "a" 1) ∧ Operations others operations ∧
      (var "a" 1).grouped operations = .binary ⟨1, 9⟩ .or equality difference ∧
      (expression 251).run ⟨[name "a" 1] ++ others ++ [sign .semicolon 15], ⟨1, 16⟩, []⟩ =
        .done ((var "a" 1).grouped operations) ⟨[sign .semicolon 15], ⟨1, 16⟩, []⟩ := by
  intro name sign var negated one operations others equality difference
  have hname : ∀ text column, Unary [name text column] (var text column) := fun _ _ => .suffixed (.primary .name)
  have hnegated : Unary [sign .minus 5, name "c" 6] negated := @Unary.operator _ _ _ .negate (hname "c" 6)
  have hmore : ∀ (op : BinaryOp) (column : Nat) {operand tree more operations}, Unary operand tree →
      Operations more operations →
      Operations (sign op.mark column :: operand ++ more) (⟨op, ⟨1, column⟩, tree⟩ :: operations) := fun _ _ => .more
  have hothers : Operations others operations :=
    hmore .add 2 (hname "b" 3) <| hmore .mul 4 hnegated <| hmore .eq 7 (hname "d" 8) <| hmore .or 9 (hname "e" 10) <|
      hmore .sub 11 (hname "f" 12) <| hmore .sub 13 (.suffixed (.primary .integer)) .none
  have hgrouped : (var "a" 1).grouped operations = .binary ⟨1, 9⟩ .or equality difference := by
    unfold operations equality difference one negated var
    cbv
  exact ⟨hname "a" 1, hothers, hgrouped, expression_of_operations (hname "a" 1) hothers (by decide)⟩

end Grammar

end RoutineSpec
