import RoutineSpec.Proofs.Writing

/-! # No parentheses can be spared

Whatever phrase stands for an expression, it holds all that is written of the expression, in the same order: what is
written has parentheses only where every phrase has them. An increment is written out as an equation, so of a whole
program a phrase may be shorter than what is written, but it has no fewer parentheses.
-/

namespace RoutineSpec

namespace Phrase

/-- The lexemes hold all that is written of the tree in a slot that demands some tightness. -/
def Holds (demanded : Nat) (span : List Lexeme) (tree : Tree) : Prop :=
  (tree.fitted demanded tree.terminals).Sublist (span.map Lexeme.terminal)

variable {span : List Lexeme} {tree : Tree} {demanded : Nat}

theorem holds_of_le (h : demanded ≤ tree.tightness) :
    Holds demanded span tree ↔ tree.terminals.Sublist (span.map Lexeme.terminal) := by
  rw [Holds, Tree.fitted, if_neg (Nat.not_lt_of_le h)]

theorem Holds.loosen {looser : Nat} (h : Holds demanded span tree) (hle : looser ≤ demanded) :
    Holds looser span tree := by
  unfold Holds Tree.fitted at h ⊢
  by_cases hlooser : tree.tightness < looser
  · rw [if_pos (Nat.lt_of_lt_of_le hlooser hle)] at h
    rwa [if_pos hlooser]
  · rw [if_neg hlooser]
    split at h
    · exact ((List.sublist_append_left _ _).trans (List.sublist_cons_self _ _)).trans h
    · exact h

/-- Parentheses hold what is written in any slot, with parentheses or without. -/
theorem Holds.group {paren close : Location} (h : Holds 0 span tree) :
    Holds demanded (⟨.mark .openParen, paren⟩ :: span ++ [⟨.mark .closeParen, close⟩]) tree := by
  have hinside := (holds_of_le (Nat.zero_le _)).1 h
  rw [Holds, Tree.fitted]
  simp only [List.map_append, List.map_cons, List.map_nil]
  split
  · exact (hinside.cons_cons _).append (List.Sublist.refl _)
  · exact (hinside.cons _).trans (List.sublist_append_left _ _)

theorem listed_sublist {terminals : List Terminal} {items : List (List Terminal)} {first others : List Lexeme}
    {comma : Location} (h : terminals.Sublist (first.map Lexeme.terminal))
    (hothers : (Terminal.listed items).Sublist (others.map Lexeme.terminal)) :
    (Terminal.listed (terminals :: items)).Sublist
      ((first ++ ⟨.mark .comma, comma⟩ :: others).map Lexeme.terminal) := by
  rw [List.map_append, List.map_cons]
  cases items with
  | nil =>
    rw [Terminal.listed, List.intercalate_singleton]
    exact h.trans (List.sublist_append_left _ _)
  | cons item items =>
    rw [Terminal.listed, List.intercalate_cons_cons, List.append_assoc]
    exact h.append (hothers.cons_cons _)

/-! By induction on the phrase, which is as tight as its slot demands. -/

mutual

theorem Expression.holds : ∀ {span tree}, Expression span tree → Holds 0 span tree
  | _, _, .disjunction phrase => (phrase.holds (List.suffix_refl _)).loosen (Nat.zero_le _)
  | _, _, .conditional testPhrase truePhrase falsePhrase => by
    have test := testPhrase.holds (List.suffix_refl _)
    have onTrue := (holds_of_le (Nat.zero_le _)).1 truePhrase.holds
    have onFalse := (holds_of_le (Nat.zero_le _)).1 falsePhrase.holds
    rw [holds_of_le (Nat.zero_le _), Tree.terminals]
    simp only [List.map_append, List.map_cons]
    exact (test.append (onTrue.cons_cons _)).append (onFalse.cons_cons _)

theorem Operand.holds : ∀ {levels span tree}, Operand levels span tree → levels <:+ Precedence.ladder →
    Holds (7 - levels.length) span tree
  | _, _, _, .unary phrase, _ => phrase.holds
  | _, _, _, .chain phrase, hlevels => by
    have hdepth := Precedence.depth_of_suffix hlevels
    exact (phrase.holds hlevels).loosen (by simp only [List.length_cons]; omega)

theorem Chain.holds : ∀ {level tighter span tree}, Chain level tighter span tree →
    level :: tighter <:+ Precedence.ladder → Holds (level.depth + 1) span tree
  | level, tighter, _, _, .operand phrase, hlevels => by
    have hdepth := Precedence.depth_of_suffix hlevels
    exact (phrase.holds ((List.suffix_cons level tighter).trans hlevels)).loosen (by omega)
  | level, tighter, _, _, .operator leftPhrase hlevel rightPhrase, hlevels => by
    have hdepth := Precedence.depth_of_suffix hlevels
    have htighter : level.depth + 2 ≤ 7 - tighter.length := by omega
    have left := leftPhrase.holds hlevels
    have right := (rightPhrase.holds ((List.suffix_cons level tighter).trans hlevels)).loosen htighter
    rw [holds_of_le (by simp only [Tree.tightness, hlevel, Nat.le_refl]), Tree.terminals, hlevel]
    simp only [List.map_append, List.map_cons]
    exact left.append (right.cons_cons _)

theorem Unary.holds : ∀ {span tree}, Unary span tree → Holds 7 span tree
  | _, _, .suffixed phrase => phrase.holds.loosen (by decide)
  | _, _, .operator phrase => by
    rw [holds_of_le (Nat.le_refl 7), Tree.terminals]
    exact phrase.holds.cons_cons _

theorem Suffixed.holds : ∀ {span tree}, Suffixed span tree → Holds 8 span tree
  | _, _, .primary phrase => phrase.holds.loosen (by decide)
  | _, _, .index basePhrase subscriptPhrase => by
    have base := basePhrase.holds
    have subscript := (holds_of_le (Nat.zero_le _)).1 subscriptPhrase.holds
    rw [holds_of_le (Nat.le_refl 8), Tree.terminals]
    simp only [List.map_append, List.map_cons, List.map_nil]
    exact (base.append (subscript.cons_cons _)).append (List.Sublist.refl _)
  | _, _, .call calleePhrase argPhrase => by
    have callee := (holds_of_le (Nat.le_succ 8)).1 calleePhrase.holds
    have args := argPhrase.holds
    rw [holds_of_le (Nat.le_refl 8), Tree.terminals]
    simp only [List.map_append, List.map_cons, List.map_nil]
    exact (callee.append (args.cons_cons _)).append (List.Sublist.refl _)

theorem CallArguments.holds : ∀ {span trees}, CallArguments span trees →
    (Terminal.listed (Tree.terminalLists trees)).Sublist (span.map Lexeme.terminal)
  | _, _, .none => List.nil_sublist _
  | _, _, .some phrase => phrase.holds

theorem Expressions.holds : ∀ {span trees}, Expressions span trees →
    (Terminal.listed (Tree.terminalLists trees)).Sublist (span.map Lexeme.terminal)
  | _, _, .last phrase => by
    have item := (holds_of_le (Nat.zero_le _)).1 phrase.holds
    simpa only [Terminal.listed, Tree.terminalLists, List.intercalate_singleton] using item
  | _, _, .more phrase others => by
    have item := (holds_of_le (Nat.zero_le _)).1 phrase.holds
    exact listed_sublist item others.holds

theorem Primary.holds : ∀ {span tree}, Primary span tree → Holds 9 span tree
  | _, _, .integer | _, _, .true_ | _, _, .false_ | _, _, .name => List.Sublist.refl _
  | _, _, .group phrase => phrase.holds.group

end

end Phrase

namespace Terminal

/-- How many parentheses are opened. -/
def parens (terminals : List Terminal) : Nat :=
  terminals.count (.mark .openParen)

theorem parens_append (terminals more : List Terminal) : parens (terminals ++ more) = parens terminals + parens more :=
  List.count_append

theorem parens_cons (terminal : Terminal) (terminals : List Terminal) :
    parens (terminal :: terminals) = parens terminals + if terminal = .mark .openParen then 1 else 0 := by
  simp [parens, List.count_cons]

theorem parens_listed_cons (terminals : List Terminal) (items : List (List Terminal)) :
    parens (listed (terminals :: items)) = parens terminals + parens (listed items) := by
  cases items with
  | nil => simp [listed, parens]
  | cons item items =>
    rw [listed, List.intercalate_cons_cons, parens_append, parens_append]
    rfl

end Terminal

namespace Phrase

open Terminal (parens parens_append parens_cons parens_listed_cons)

variable {Adjacent : Location → Location → Prop} {span : List Lexeme} {tree : Tree}

theorem parens_ended (tree : Tree) (terminals : List Terminal) : parens (tree.ended terminals) = parens terminals := by
  unfold Tree.ended
  split
  · simp [parens]
  · rfl

theorem Holds.parens_le {demanded : Nat} (h : Holds demanded span tree) :
    parens (tree.fitted demanded tree.terminals) ≤ parens (span.map Lexeme.terminal) :=
  List.Sublist.count_le _ h

theorem Expression.parens_le (h : Expression span tree) : parens tree.terminals ≤ parens (span.map Lexeme.terminal) :=
  h.holds.parens_le

theorem Assignment.parens_le (h : Assignment Adjacent span tree) :
    parens tree.terminals ≤ parens (span.map Lexeme.terminal) := by
  cases h with
  | increment hsign =>
    rcases hsign with rfl | rfl <;> exact Nat.zero_le _
  | equation targetPhrase valuePhrase =>
    have target := targetPhrase.holds.parens_le
    have value := valuePhrase.parens_le
    simp only [Tree.terminals, List.map_append, List.map_cons, parens_append, parens_cons] at target ⊢
    omega

mutual

theorem Statement.parens_le : ∀ {span tree}, Statement Adjacent span tree →
    parens tree.terminals ≤ parens (span.map Lexeme.terminal)
  | _, _, .assignment phrase => by
    have assignment := phrase.parens_le
    simp only [List.map_append, parens_append]
    omega
  | _, _, .ifThen conditionPhrase truePhrase => by
    have condition := conditionPhrase.parens_le
    have onTrue := truePhrase.parens_le
    simp only [Tree.terminals, List.map_append, List.map_cons, parens_append, parens_cons, parens_ended]
    omega
  | _, _, .ifThenElse conditionPhrase truePhrase _ falsePhrase => by
    have condition := conditionPhrase.parens_le
    have onTrue := truePhrase.parens_le
    have onFalse := falsePhrase.parens_le
    simp only [Tree.terminals, List.map_append, List.map_cons, parens_append, parens_cons, parens_ended]
    omega
  | _, _, .iteration initPhrase guardPhrase updatePhrase bodyPhrase => by
    have init := initPhrase.parens_le
    have guard : parens (Tree.fitted 1 _ _) ≤ _ := (guardPhrase.holds (List.suffix_refl _)).parens_le
    have update := updatePhrase.parens_le
    have body := bodyPhrase.parens_le
    simp only [Tree.terminals, List.map_append, List.map_cons, List.map_nil, parens_append, parens_cons] at guard ⊢
    omega
  | _, _, .block phrase => by
    have body := phrase.parens_le
    simp only [Tree.terminals, List.map_append, List.map_cons, List.map_nil, parens_append, parens_cons]
    omega

theorem Statements.parens_le : ∀ {span trees}, Statements Adjacent span trees →
    parens (Tree.endedTerminals trees) ≤ parens (span.map Lexeme.terminal)
  | _, _, .none => Nat.le_refl _
  | _, _, .more phrase others => by
    have first := phrase.parens_le
    have others := others.parens_le
    simp only [Tree.endedTerminals, List.map_append, parens_append, parens_ended]
    omega

end

theorem AnyListed.parens_le {Item : List Lexeme → Tree → Prop} {trees : List Tree}
    (hitem : ∀ {span tree}, Item span tree → parens tree.terminals ≤ parens (span.map Lexeme.terminal))
    (h : AnyListed Item span trees) :
    parens (Terminal.listed (Tree.terminalLists trees)) ≤ parens (span.map Lexeme.terminal) := by
  cases h with
  | none => exact Nat.le_refl _
  | some phrase =>
    induction phrase with
    | last phrase =>
      have item := hitem phrase
      simpa only [Terminal.listed, Tree.terminalLists, List.intercalate_singleton] using item
    | more phrase _ ih =>
      have item := hitem phrase
      simp only [Tree.terminalLists, parens_listed_cons, List.map_append, List.map_cons, parens_append, parens_cons]
      omega

theorem Argument.parens_le (h : Argument span tree) : parens tree.terminals ≤ parens (span.map Lexeme.terminal) := by
  cases h with
  | declaration type => cases type <;> exact Nat.zero_le _

theorem Returned.parens_le (h : Returned span tree) : parens tree.terminals ≤ parens (span.map Lexeme.terminal) := by
  cases h with
  | name => exact Nat.le_refl _

theorem Clauses.parens_le {returned locals : List Tree} {body : Tree} (h : Clauses Adjacent span returned locals body) :
    parens (Terminal.clauses (Terminal.listed (Tree.terminalLists returned))
      (Terminal.listed (Tree.terminalLists locals)) (body.ended body.terminals)) ≤
      parens (span.map Lexeme.terminal) := by
  obtain ⟨returnedPhrase, localPhrase, bodyPhrase⟩ := h
  have returned := returnedPhrase.parens_le Returned.parens_le
  have locals := localPhrase.parens_le Argument.parens_le
  have body := bodyPhrase.parens_le
  simp only [Terminal.clauses, List.map_append, List.map_cons, parens_append, parens_cons, parens_ended]
  omega

/-- A phrase for a program has no fewer parentheses than what is written of the program. -/
theorem Program.parens_le (h : Program Adjacent span tree) :
    parens tree.terminals ≤ parens (span.map Lexeme.terminal) := by
  obtain ⟨⟨leftPhrase, rightPhrase, joinClauses⟩, ⟨argPhrase, sequentialClauses⟩⟩ := h
  have left := leftPhrase.parens_le Argument.parens_le
  have right := rightPhrase.parens_le Argument.parens_le
  have join := joinClauses.parens_le
  have args := argPhrase.parens_le Argument.parens_le
  have sequential := sequentialClauses.parens_le
  simp only [Tree.terminals, List.map_append, List.map_cons, parens_append, parens_cons]
  omega

end Phrase

end RoutineSpec
