import RoutineSpec.Proofs.Phrase
import RoutineSpec.Proofs.Reads
import RoutineSpec.Proofs.ExpressionSound

/-! # Phrases of expressions are read

In front of a phrase the rule for expressions reads that phrase, as long as the lexeme behind it does not go on
with it. Chains of operators and suffixes are built to the left, but read from the left: so a chain that is
built on an operand is read by the rule for the operand and by the loop behind it.
-/

namespace RoutineSpec

namespace Terminal

/-- What the first lexeme of an operand can be, signs in front of it aside. -/
def startsOperand : Terminal → Bool
  | .identifier _ | .integer _ | .keyword .true_ | .keyword .false_ | .mark .openParen => true
  | _ => false

/-- What the first lexeme of an expression can be. -/
def startsExpression (terminal : Terminal) : Bool :=
  terminal.startsOperand || terminal.unaryOp?.isSome

theorem unaryOp?_of_startsOperand {terminal : Terminal} (h : terminal.startsOperand = true) :
    terminal.unaryOp? = none := by
  unfold startsOperand at h
  split at h
  case h_6 => cases h
  all_goals rfl

/-- A terminal that goes on with no operand of the given levels: it is no suffix, and no operator of the levels. -/
def EndsOperand (levels : List Precedence) (terminal : Terminal) : Prop :=
  terminal ≠ .mark .openBracket ∧ terminal ≠ .mark .openParen ∧
    ∀ level ∈ levels, terminal.binaryOp? level = none

instance (levels : List Precedence) (terminal : Terminal) : Decidable (terminal.EndsOperand levels) :=
  inferInstanceAs (Decidable (_ ∧ _ ∧ _))

theorem EndsOperand.subset {levels fewer : List Precedence} {terminal : Terminal}
    (h : terminal.EndsOperand levels) (hsubset : ∀ level ∈ fewer, level ∈ levels) :
    terminal.EndsOperand fewer := by
  obtain ⟨hbracket, hparen, hops⟩ := h
  exact ⟨hbracket, hparen, fun level hlevel => hops level (hsubset level hlevel)⟩

/-- A terminal that goes on with no expression. -/
def EndsExpression (terminal : Terminal) : Prop :=
  terminal.EndsOperand Precedence.ladder ∧ terminal ≠ .mark .question

instance (terminal : Terminal) : Decidable terminal.EndsExpression :=
  inferInstanceAs (Decidable (_ ∧ _))

/-- An operator ends the operands of the levels that it does not belong to. -/
theorem endsOperand_operator {levels : List Precedence} {op : BinaryOp} (h : op.precedence ∉ levels) :
    (Terminal.mark op.mark).EndsOperand levels := by
  refine ⟨by cases op <;> decide, by cases op <;> decide, ?_⟩
  intro level hlevel
  cases hop : (Terminal.mark op.mark).binaryOp? level with
  | none => rfl
  | some other =>
    obtain ⟨hmark, rfl⟩ := Terminal.binaryOp?_eq_some_iff.1 hop
    have hsame : BinaryOp.ofMark? op.mark = BinaryOp.ofMark? other.mark := by
      rw [Terminal.mark.inj hmark]
    simp only [BinaryOp.ofMark?_mark, Option.some.injEq] at hsame
    exact absurd (hsame ▸ hlevel) h

end Terminal

namespace Session

/-- The lexeme that comes next, if any, goes on with no operand of the given levels. -/
def EndsOperand (levels : List Precedence) (next : Session) : Prop :=
  ∀ lexeme ∈ next.rest.head?, lexeme.terminal.EndsOperand levels

/-- The lexeme that comes next, if any, goes on with no expression. -/
def EndsExpression (next : Session) : Prop :=
  ∀ lexeme ∈ next.rest.head?, lexeme.terminal.EndsExpression

variable {levels : List Precedence} {next : Session} {terminal : Terminal} {loc : Location}
  {span : List Lexeme}

theorem endsOperand_unread_cons (h : terminal.EndsOperand levels) :
    (next.unread (⟨terminal, loc⟩ :: span)).EndsOperand levels := by
  intro lexeme hmem
  cases hmem
  exact h

theorem endsExpression_unread_cons (h : terminal.EndsExpression) :
    (next.unread (⟨terminal, loc⟩ :: span)).EndsExpression := by
  intro lexeme hmem
  cases hmem
  exact h

end Session

namespace Phrase

/-! ## How phrases start -/

mutual

theorem Suffixed.starts : ∀ {span tree}, Suffixed span tree →
    ∃ first others, span = first :: others ∧ first.terminal.startsOperand = true
  | _, _, .primary h => Primary.starts h
  | _, _, .index h _ => by
    obtain ⟨first, others, rfl, hstart⟩ := Suffixed.starts h
    exact ⟨first, _, rfl, hstart⟩
  | _, _, .call h _ => by
    obtain ⟨first, others, rfl, hstart⟩ := Suffixed.starts h
    exact ⟨first, _, rfl, hstart⟩

theorem Primary.starts : ∀ {span tree}, Primary span tree →
    ∃ first others, span = first :: others ∧ first.terminal.startsOperand = true
  | _, _, .integer | _, _, .true_ | _, _, .false_ | _, _, .name | _, _, .group _ => ⟨_, _, rfl, rfl⟩

end

mutual

theorem Expression.starts : ∀ {span tree}, Expression span tree →
    ∃ first others, span = first :: others ∧ first.terminal.startsExpression = true
  | _, _, .disjunction h => Operand.starts h
  | _, _, .conditional h _ _ => by
    obtain ⟨first, others, rfl, hstart⟩ := Operand.starts h
    exact ⟨first, _, rfl, hstart⟩

theorem Operand.starts : ∀ {levels span tree}, Operand levels span tree →
    ∃ first others, span = first :: others ∧ first.terminal.startsExpression = true
  | _, _, _, .unary h => Unary.starts h
  | _, _, _, .chain h => Chain.starts h

theorem Chain.starts : ∀ {level tighter span tree}, Chain level tighter span tree →
    ∃ first others, span = first :: others ∧ first.terminal.startsExpression = true
  | _, _, _, _, .operand h => Operand.starts h
  | _, _, _, _, .operator h _ _ => by
    obtain ⟨first, others, rfl, hstart⟩ := Chain.starts h
    exact ⟨first, _, rfl, hstart⟩

theorem Unary.starts : ∀ {span tree}, Unary span tree →
    ∃ first others, span = first :: others ∧ first.terminal.startsExpression = true
  | _, _, .suffixed h => by
    obtain ⟨first, others, rfl, hstart⟩ := Suffixed.starts h
    exact ⟨first, others, rfl, by simp [Terminal.startsExpression, hstart]⟩
  | _, _, .operator _ => by
    refine ⟨_, _, rfl, ?_⟩
    simp [Terminal.startsExpression, Terminal.unaryOp?_eq_some_iff.2 rfl]

end

theorem Expressions.starts {span : List Lexeme} {trees : List Tree} (h : Expressions span trees) :
    ∃ first others, span = first :: others ∧ first.terminal.startsExpression = true := by
  cases h with
  | last h => exact h.starts
  | more h _ =>
    obtain ⟨first, others, rfl, hstart⟩ := h.starts
    exact ⟨first, _, rfl, hstart⟩

end Phrase

namespace Grammar

open Rule Phrase

theorem suffixes_complete {n : Nat} {operand : Tree} {next : Session} (hend : next.EndsOperand []) :
    (suffixes n operand).Reads [] next operand := by
  cases n with
  | zero => rw [suffixes]; exact reads_exhausted
  | succ n =>
    rw [suffixes]
    apply reads_bind_accept_none
    · intro lexeme hmem
      exact (hend lexeme hmem).1
    apply reads_bind_look
    have hparen : (next.unread []).follows [.mark .openParen] = false := by
      unfold Session.follows
      cases hrest : next.rest with
      | nil => simp [hrest]
      | cons lexeme rest => simpa [hrest] using (hend lexeme (by simp [hrest])).2.1
    rw [hparen]
    exact reads_pure

theorem chain_complete {n : Nat} {level : Precedence} {tighter : List Precedence} {tree : Tree}
    {next : Session} (hend : next.EndsOperand (level :: tighter)) :
    (chain n level tighter tree).Reads [] next tree := by
  cases n with
  | zero => rw [chain]; exact reads_exhausted
  | succ n =>
    rw [chain]
    apply reads_bind_take?_none
    · intro lexeme hmem
      exact (hend lexeme hmem).2.2 level (by simp)
    exact reads_pure

mutual

theorem expression_complete : ∀ {span tree}, Expression span tree → ∀ {n next}, next.EndsExpression →
    (expression n).Reads span next tree
  | _, _, _, 0, _, _ => by rw [expression]; exact reads_exhausted
  | _, _, .disjunction phrase, n + 1, next, hend => by
    rw [expression]
    apply (binary_complete phrase (by decide) fun lexeme hmem => (hend lexeme hmem).1).bind_nil
    apply reads_bind_accept_none
    · intro lexeme hmem
      exact (hend lexeme hmem).2
    exact reads_pure
  | _, _, .conditional testPhrase truePhrase falsePhrase, n + 1, next, hend => by
    rw [expression]
    simp only [List.append_assoc, List.cons_append]
    apply (binary_complete testPhrase (by decide) (Session.endsOperand_unread_cons (by decide))).bind
    apply reads_bind_accept_some
    apply (expression_complete truePhrase (Session.endsExpression_unread_cons (by decide))).bind
    apply reads_bind_expect
    apply (expression_complete falsePhrase hend).bind_nil
    exact reads_pure

theorem binary_complete : ∀ {levels span tree}, Operand levels span tree → levels.Nodup →
    ∀ {n next}, next.EndsOperand levels → (binary n levels).Reads span next tree
  | _, _, _, _, _, 0, _, _ => by rw [binary]; exact reads_exhausted
  | _, _, _, .unary phrase, _, n + 1, next, hend => by
    rw [binary]
    exact unary_complete phrase hend
  | _, span, _, .chain phrase, hnodup, n + 1, next, hend => by
    rw [← List.append_nil span]
    apply binary_chain_complete phrase hnodup
    · intro lexeme hmem
      exact (hend lexeme hmem).subset fun level hlevel => List.mem_cons_of_mem _ hlevel
    · exact fun m => chain_complete hend

/-- The operand of a chain is read with the loop behind it, which goes on with the chain that has been read. -/
theorem binary_chain_complete : ∀ {level tighter span tree}, Chain level tighter span tree →
    (level :: tighter).Nodup → ∀ {more next value}, (next.unread more).EndsOperand tighter →
    (∀ m, (chain m level tighter tree).Reads more next value) →
    ∀ n, (binary n (level :: tighter)).Reads (span ++ more) next value
  | _, _, _, _, _, _, _, _, _, _, _, 0 => by rw [binary]; exact reads_exhausted
  | _, _, _, _, .operand phrase, hnodup, _, _, _, hend, hmore, n + 1 => by
    rw [binary]
    apply (binary_complete phrase (List.nodup_cons.1 hnodup).2 hend).bind
    exact hmore n
  | level, tighter, _, _, .operator leftPhrase hlevel rightPhrase, hnodup, more, next, value, hend, hmore,
      n + 1 => by
    obtain ⟨hfresh, htighter⟩ := List.nodup_cons.1 hnodup
    simp only [List.append_assoc, List.cons_append]
    apply binary_chain_complete leftPhrase hnodup
    · exact Session.endsOperand_unread_cons (Terminal.endsOperand_operator (hlevel ▸ hfresh))
    intro m
    cases m with
    | zero => rw [chain]; exact reads_exhausted
    | succ m =>
      rw [chain]
      apply reads_bind_take?_some (Terminal.binaryOp?_eq_some_iff.2 ⟨rfl, hlevel⟩)
      apply (binary_complete rightPhrase htighter hend).bind
      exact hmore m

theorem unary_complete : ∀ {span tree}, Unary span tree → ∀ {n next}, next.EndsOperand [] →
    (unary n).Reads span next tree
  | _, _, _, 0, _, _ => by rw [unary]; exact reads_exhausted
  | _, _, .suffixed phrase, n + 1, next, hend => by
    rw [unary]
    apply reads_bind_take?_none
    · intro lexeme hmem
      obtain ⟨first, others, rfl, hstart⟩ := phrase.starts
      cases hmem
      exact Terminal.unaryOp?_of_startsOperand hstart
    have hread := suffixed_complete phrase (fun m => suffixes_complete hend) n
    rwa [List.append_nil] at hread
  | _, _, .operator phrase, n + 1, next, hend => by
    rw [unary]
    apply reads_bind_take?_some (Terminal.unaryOp?_eq_some_iff.2 rfl)
    apply (unary_complete phrase hend).bind_nil
    exact reads_pure

/-- The primary at the start is read with the loop behind it, which goes on with the suffixes that have been
    read. -/
theorem suffixed_complete : ∀ {span tree}, Suffixed span tree → ∀ {more next value},
    (∀ m, (suffixes m tree).Reads more next value) → ∀ n, (suffixed n).Reads (span ++ more) next value
  | _, _, _, _, _, _, _, 0 => by rw [suffixed]; exact reads_exhausted
  | _, _, .primary phrase, _, _, _, hmore, n + 1 => by
    rw [suffixed]
    apply (primary_complete phrase).bind
    exact hmore n
  | _, _, .index basePhrase subscriptPhrase, more, next, value, hmore, n + 1 => by
    simp only [List.append_assoc, List.cons_append, List.nil_append]
    apply suffixed_complete basePhrase
    intro m
    cases m with
    | zero => rw [suffixes]; exact reads_exhausted
    | succ m =>
      rw [suffixes]
      apply reads_bind_accept_some
      apply (expression_complete subscriptPhrase (Session.endsExpression_unread_cons (by decide))).bind
      apply reads_bind_expect
      exact hmore m
  | _, _, .call calleePhrase argPhrase, more, next, value, hmore, n + 1 => by
    simp only [List.append_assoc, List.cons_append, List.nil_append]
    apply suffixed_complete calleePhrase
    intro m
    cases m with
    | zero => rw [suffixes]; exact reads_exhausted
    | succ m =>
      rw [suffixes]
      apply reads_bind_accept_none
      · intro lexeme hmem
        cases hmem
        simp
      apply reads_bind_look
      apply reads_bind_expect
      apply (callArguments_complete argPhrase).bind
      apply reads_bind_expect
      exact hmore m

theorem callArguments_complete : ∀ {span trees}, CallArguments span trees → ∀ {n loc more} {next : Session},
    (callArguments n).Reads span (next.unread (⟨.mark .closeParen, loc⟩ :: more)) trees
  | _, _, _, 0, _, _, _ => by rw [callArguments]; exact reads_exhausted
  | _, _, .none, n + 1, loc, more, next => by
    rw [callArguments]
    exact reads_pure
  | _, _, .some phrase, n + 1, loc, more, next => by
    have hread : (expressions n).Reads _ (next.unread (⟨.mark .closeParen, loc⟩ :: more)) _ :=
      expressions_complete phrase
    obtain ⟨first, others, rfl, hstart⟩ := phrase.starts
    rw [callArguments]
    apply reads_bind_look
    have hopen : ((next.unread (⟨.mark .closeParen, loc⟩ :: more)).unread (first :: others)).follows
        [.mark .closeParen] = false := by
      cases hclose : decide (first.terminal = .mark .closeParen) with
      | false => simpa [Session.follows] using hclose
      | true => rw [of_decide_eq_true hclose] at hstart; cases hstart
    rw [hopen]
    exact hread

theorem expressions_complete : ∀ {span trees}, Expressions span trees → ∀ {n loc more} {next : Session},
    (expressions n).Reads span (next.unread (⟨.mark .closeParen, loc⟩ :: more)) trees
  | _, _, _, 0, _, _, _ => by rw [expressions]; exact reads_exhausted
  | _, _, .last phrase, n + 1, loc, more, next => by
    rw [expressions]
    apply (expression_complete phrase (Session.endsExpression_unread_cons (by decide))).bind_nil
    apply reads_bind_accept_none
    · intro lexeme hmem
      cases hmem
      simp
    exact reads_pure
  | _, _, .more phrase others, n + 1, loc, more, next => by
    rw [expressions]
    apply (expression_complete phrase (Session.endsExpression_unread_cons (by decide))).bind
    apply reads_bind_accept_some
    apply (expressions_complete others).bind_nil
    exact reads_pure

theorem primary_complete : ∀ {span tree}, Primary span tree → ∀ {n next}, (primary n).Reads span next tree
  | _, _, _, 0, _ => by rw [primary]; exact reads_exhausted
  | _, _, .integer, n + 1, _ | _, _, .true_, n + 1, _ | _, _, .false_, n + 1, _ | _, _, .name, n + 1, _ => by
    rw [primary]
    exact reads_bind_take?_some rfl reads_pure
  | _, _, .group phrase, n + 1, next => by
    rw [primary]
    apply reads_bind_take?_none
    · intro lexeme hmem
      cases hmem
      rfl
    apply reads_bind_expect
    apply (expression_complete phrase (Session.endsExpression_unread_cons (by decide))).bind
    apply reads_bind_expect
    exact reads_pure

end

/-- A suffixed operand is read to its end. -/
theorem whole_suffixed_complete {n : Nat} {span : List Lexeme} {tree : Tree} {next : Session}
    (h : Suffixed span tree) (hend : next.EndsOperand []) : (suffixed n).Reads span next tree := by
  have hread := suffixed_complete h (fun m => suffixes_complete hend) n
  rwa [List.append_nil] at hread

end Grammar

end RoutineSpec
