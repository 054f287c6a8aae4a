import RoutineSpec.Grammar.Program

/-! # Larger budgets

A larger budget changes nothing: a rule that is not exhausted comes out the same with more steps to spend. So two
readings can be compared even if their budgets differ.
-/

namespace RoutineSpec

/-- Unless the first rule is exhausted, the second one comes out the same. -/
def Rule.Extends {α : Type} (rule more : Rule α) : Prop :=
  ∀ session, rule.run session ≠ .exhausted → more.run session = rule.run session

namespace Rule

variable {α β : Type} {rule more : Rule α} {follow further : α → Rule β}

theorem Extends.refl (rule : Rule α) : rule.Extends rule :=
  fun _ _ => rfl

theorem extends_exhausted : (exhausted : Rule α).Extends more :=
  fun _ h => absurd rfl h

theorem Extends.bind (h : rule.Extends more) (hfollow : ∀ value, (follow value).Extends (further value)) :
    (rule >>= follow).Extends (more >>= further) := by
  intro session hrun
  have hrule : rule.run session ≠ .exhausted := by
    intro hrule
    rw [run_bind, hrule] at hrun
    exact hrun rfl
  rw [run_bind] at hrun
  rw [run_bind, run_bind, h session hrule]
  cases hfirst : rule.run session with
  | done value next =>
    rw [hfirst] at hrun
    exact hfollow value next hrun
  | failed | exhausted => rfl

theorem Extends.attempt (h : rule.Extends more) : (attempt rule).Extends (attempt more) := by
  intro session hrun
  have hrule : rule.run session ≠ .exhausted := by
    intro hrule
    rw [run_attempt, hrule] at hrun
    exact hrun rfl
  rw [run_attempt, run_attempt, h session hrule]

theorem extends_ite {condition : Prop} [Decidable condition] {other further : Rule α} (h : rule.Extends more)
    (h' : other.Extends further) :
    (if condition then rule else other).Extends (if condition then more else further) := by
  split
  · exact h
  · exact h'

end Rule

namespace Grammar

open Rule

mutual

theorem expression_extends : ∀ {n m}, n ≤ m → (expression n).Extends (expression m)
  | 0, _, _ => extends_exhausted
  | n + 1, m + 1, h => by
    have h := Nat.le_of_succ_le_succ h
    rw [expression, expression]
    exact (binary_extends h _).bind fun _ => (Extends.refl _).bind fun
      | none => .refl _
      | some _ => (expression_extends h).bind fun _ => (Extends.refl _).bind fun _ =>
          (expression_extends h).bind fun _ => .refl _

theorem binary_extends : ∀ {n m}, n ≤ m → ∀ levels, (binary n levels).Extends (binary m levels)
  | 0, _, _, _ => extends_exhausted
  | n + 1, m + 1, h, [] => by
    rw [binary, binary]
    exact unary_extends (Nat.le_of_succ_le_succ h)
  | n + 1, m + 1, h, level :: tighter => by
    have h := Nat.le_of_succ_le_succ h
    rw [binary, binary]
    exact (binary_extends h tighter).bind fun _ => chain_extends h level tighter _

theorem chain_extends : ∀ {n m}, n ≤ m → ∀ level tighter left,
    (chain n level tighter left).Extends (chain m level tighter left)
  | 0, _, _, _, _, _ => extends_exhausted
  | n + 1, m + 1, h, level, tighter, left => by
    have h := Nat.le_of_succ_le_succ h
    rw [chain, chain]
    exact (Extends.refl _).bind fun
      | none => .refl _
      | some (_, _) => (binary_extends h tighter).bind fun _ => chain_extends h level tighter _

theorem unary_extends : ∀ {n m}, n ≤ m → (unary n).Extends (unary m)
  | 0, _, _ => extends_exhausted
  | n + 1, m + 1, h => by
    have h := Nat.le_of_succ_le_succ h
    rw [unary, unary]
    exact (Extends.refl _).bind fun
      | none => suffixed_extends h
      | some (_, _) => (unary_extends h).bind fun _ => .refl _

theorem suffixed_extends : ∀ {n m}, n ≤ m → (suffixed n).Extends (suffixed m)
  | 0, _, _ => extends_exhausted
  | n + 1, m + 1, h => by
    have h := Nat.le_of_succ_le_succ h
    rw [suffixed, suffixed]
    exact (primary_extends h).bind fun _ => suffixes_extends h _

theorem suffixes_extends : ∀ {n m}, n ≤ m → ∀ operand, (suffixes n operand).Extends (suffixes m operand)
  | 0, _, _, _ => extends_exhausted
  | n + 1, m + 1, h, operand => by
    have h := Nat.le_of_succ_le_succ h
    rw [suffixes, suffixes]
    refine (Extends.refl _).bind fun
      | none => (Extends.refl _).bind fun _ => extends_ite ?_ (.refl _)
      | some _ => (expression_extends h).bind fun _ => (Extends.refl _).bind fun _ => suffixes_extends h _
    cases operand.callee? with
    | none => exact .refl _
    | some callee =>
      exact (Extends.refl _).bind fun _ => (callArguments_extends h).bind fun _ =>
        (Extends.refl _).bind fun _ => suffixes_extends h _

theorem callArguments_extends : ∀ {n m}, n ≤ m → (callArguments n).Extends (callArguments m)
  | 0, _, _ => extends_exhausted
  | n + 1, m + 1, h => by
    rw [callArguments, callArguments]
    exact (Extends.refl _).bind fun _ =>
      extends_ite (.refl _) (expressions_extends (Nat.le_of_succ_le_succ h))

theorem expressions_extends : ∀ {n m}, n ≤ m → (expressions n).Extends (expressions m)
  | 0, _, _ => extends_exhausted
  | n + 1, m + 1, h => by
    have h := Nat.le_of_succ_le_succ h
    rw [expressions, expressions]
    exact (expression_extends h).bind fun _ => (Extends.refl _).bind fun
      | none => .refl _
      | some _ => (expressions_extends h).bind fun _ => .refl _

theorem primary_extends : ∀ {n m}, n ≤ m → (primary n).Extends (primary m)
  | 0, _, _ => extends_exhausted
  | n + 1, m + 1, h => by
    rw [primary, primary]
    exact (Extends.refl _).bind fun
      | some (_, _) => .refl _
      | none => (Extends.refl _).bind fun _ =>
          (expression_extends (Nat.le_of_succ_le_succ h)).bind fun _ => .refl _

end

section

variable {n m : Nat}

theorem guard_extends (h : n ≤ m) : (guard n).Extends (guard m) :=
  (Extends.refl _).bind fun _ => (binary_extends h _).bind fun _ => .refl _

theorem assignment_extends (h : n ≤ m) : (assignment n).Extends (assignment m) :=
  (Extends.refl _).bind fun
    | some _ => .refl _
    | none => (Extends.refl _).bind fun _ => (suffixed_extends h).bind fun _ =>
        (Extends.refl _).bind fun _ => (expression_extends h).bind fun _ => .refl _

end

mutual

theorem statement_extends : ∀ {n m}, n ≤ m → (statement n).Extends (statement m)
  | 0, _, _ => extends_exhausted
  | n + 1, m + 1, h => by
    have h := Nat.le_of_succ_le_succ h
    rw [statement, statement]
    exact (Extends.refl _).bind fun
      | some _ => selection_extends h _
      | none => (Extends.refl _).bind fun
        | some _ => iteration_extends h _
        | none => (Extends.refl _).bind fun
          | some _ => block_extends h _
          | none => (assignment_extends h).bind fun _ => .refl _

theorem selection_extends : ∀ {n m}, n ≤ m → ∀ loc, (selection n loc).Extends (selection m loc)
  | 0, _, _, _ => extends_exhausted
  | n + 1, m + 1, h, loc => by
    have h := Nat.le_of_succ_le_succ h
    rw [selection, selection]
    exact (Extends.refl _).bind fun _ => (expression_extends h).bind fun _ => (Extends.refl _).bind fun _ =>
      (statement_extends h).bind fun _ => (Extends.refl _).bind fun
        | none => .refl _
        | some _ => (statement_extends h).bind fun _ => .refl _

theorem iteration_extends : ∀ {n m}, n ≤ m → ∀ loc, (iteration n loc).Extends (iteration m loc)
  | 0, _, _, _ => extends_exhausted
  | n + 1, m + 1, h, loc => by
    have h := Nat.le_of_succ_le_succ h
    rw [iteration, iteration]
    exact (Extends.refl _).bind fun _ => (assignment_extends h).bind fun _ => (Extends.refl _).bind fun _ =>
      (guard_extends h).bind fun _ => (Extends.refl _).bind fun _ => (assignment_extends h).bind fun _ =>
        (Extends.refl _).bind fun _ => (Extends.refl _).bind fun
          | none => .refl _
          | some _ => (block_extends h _).bind fun _ => .refl _

theorem block_extends : ∀ {n m}, n ≤ m → ∀ loc, (block n loc).Extends (block m loc)
  | 0, _, _, _ => extends_exhausted
  | n + 1, m + 1, h, loc => by
    rw [block, block]
    exact (statements_extends (Nat.le_of_succ_le_succ h)).bind fun _ => .refl _

theorem statements_extends : ∀ {n m}, n ≤ m → (statements n).Extends (statements m)
  | 0, _, _ => extends_exhausted
  | n + 1, m + 1, h => by
    have h := Nat.le_of_succ_le_succ h
    rw [statements, statements]
    exact (Extends.refl _).bind fun _ => extends_ite (.refl _)
      ((statementIfSound_extends h).bind fun _ => (statements_extends h).bind fun _ => .refl _)

theorem statementIfSound_extends : ∀ {n m}, n ≤ m → (statementIfSound n).Extends (statementIfSound m)
  | 0, _, _ => extends_exhausted
  | n + 1, m + 1, h => by
    rw [statementIfSound, statementIfSound]
    exact (Extends.refl _).bind fun _ =>
      (statement_extends (Nat.le_of_succ_le_succ h)).attempt.bind fun _ => .refl _

end

theorem arguments_extends : ∀ {n m}, n ≤ m → (arguments n).Extends (arguments m)
  | 0, _, _ => extends_exhausted
  | n + 1, m + 1, h => by
    rw [arguments, arguments]
    exact (Extends.refl _).bind fun _ => (Extends.refl _).bind fun
      | none => .refl _
      | some _ => (arguments_extends (Nat.le_of_succ_le_succ h)).bind fun _ => .refl _

theorem identifiers_extends : ∀ {n m}, n ≤ m → (identifiers n).Extends (identifiers m)
  | 0, _, _ => extends_exhausted
  | n + 1, m + 1, h => by
    rw [identifiers, identifiers]
    exact (Extends.refl _).bind fun (_, _) => (Extends.refl _).bind fun
      | none => .refl _
      | some _ => (identifiers_extends (Nat.le_of_succ_le_succ h)).bind fun _ => .refl _

section

variable {n m : Nat}

theorem argumentList_extends (h : n ≤ m) : (argumentList n).Extends (argumentList m) :=
  (Extends.refl _).bind fun _ => extends_ite (.refl _) (arguments_extends h)

theorem identifierList_extends (h : n ≤ m) : (identifierList n).Extends (identifierList m) :=
  (Extends.refl _).bind fun _ => extends_ite (.refl _) (identifiers_extends h)

theorem returnsClause_extends (h : n ≤ m) : (returnsClause n).Extends (returnsClause m) :=
  (Extends.refl _).bind fun _ => (Extends.refl _).bind fun _ =>
    (identifierList_extends h).bind fun _ => .refl _

theorem localsClause_extends (h : n ≤ m) : (localsClause n).Extends (localsClause m) :=
  (Extends.refl _).bind fun _ => (Extends.refl _).bind fun _ => (argumentList_extends h).bind fun _ => .refl _

theorem joinBody_extends (h : n ≤ m) : (joinBody n).Extends (joinBody m) :=
  (Extends.refl _).bind fun _ => (statement_extends h).attempt.bind fun _ => .refl _

theorem joinSpec_extends (h : n ≤ m) : (joinSpec n).Extends (joinSpec m) :=
  (Extends.refl _).bind fun _ => (Extends.refl _).bind fun _ => (Extends.refl _).bind fun _ =>
    (argumentList_extends h).bind fun _ => (Extends.refl _).bind fun _ =>
      (argumentList_extends h).bind fun _ => (Extends.refl _).bind fun _ =>
        (returnsClause_extends h).bind fun _ => (localsClause_extends h).bind fun _ =>
          (joinBody_extends h).bind fun _ => .refl _

theorem sequentialSpec_extends (h : n ≤ m) : (sequentialSpec n).Extends (sequentialSpec m) :=
  (Extends.refl _).bind fun _ => (Extends.refl _).bind fun _ => (Extends.refl _).bind fun _ =>
    (argumentList_extends h).bind fun _ => (Extends.refl _).bind fun _ =>
      (returnsClause_extends h).bind fun _ => (localsClause_extends h).bind fun _ =>
        (statement_extends h).bind fun _ => .refl _

theorem programBehind_extends (h : n ≤ m) (loc : Location) (join : Tree) :
    (programBehind n loc join).Extends (programBehind m loc join) :=
  (sequentialSpec_extends h).bind fun _ => .refl _

theorem brokenProgram_extends (h : n ≤ m) (error : SyntaxError) :
    (brokenProgram n error).Extends (brokenProgram m error) :=
  (Extends.refl _).bind fun _ => (sequentialSpec_extends h).attempt.bind fun _ => .refl _

theorem program_extends (h : n ≤ m) : (program n).Extends (program m) :=
  (Extends.refl _).bind fun _ => (joinSpec_extends h).attempt.bind fun
    | .ok _ => programBehind_extends h _ _
    | .error _ => brokenProgram_extends h _

end

end Grammar

end RoutineSpec
