import RoutineSpec.Proofs.Phrase
import RoutineSpec.Proofs.Unread

/-! # Expressions that are read are phrases

Where a rule for expressions is done, what it has read is a phrase, and the tree that it returns stands for that
phrase. The loops over operators and suffixes extend the phrase that stands for their operand so far.
-/

namespace RoutineSpec

theorem Terminal.binaryOp?_eq_some_iff {level : Precedence} {terminal : Terminal} {op : BinaryOp} :
    terminal.binaryOp? level = some op ↔ terminal = .mark op.mark ∧ op.precedence = level := by
  cases terminal with
  | mark sign => simp [binaryOp?, Option.filter_eq_some_iff, BinaryOp.ofMark?_eq_some_iff]
  | identifier | integer | keyword => simp [binaryOp?]

theorem Terminal.unaryOp?_eq_some_iff {terminal : Terminal} {op : UnaryOp} :
    terminal.unaryOp? = some op ↔ terminal = .mark op.mark := by
  cases terminal with
  | mark sign => simp [unaryOp?, UnaryOp.ofMark?_eq_some_iff]
  | identifier | integer | keyword => simp [unaryOp?]

theorem Terminal.primary_of_leaf? {terminal : Terminal} {leaf : Location → Tree}
    (h : terminal.leaf? = some leaf) (loc : Location) : Phrase.Primary [⟨terminal, loc⟩] (leaf loc) := by
  unfold leaf? at h
  split at h
  · cases h; exact .integer
  · cases h; exact .true_
  · cases h; exact .false_
  · cases h; exact .name
  · cases h

theorem Tree.callee?_eq_some_iff {tree : Tree} {name : String} {loc : Location} :
    tree.callee? = some (name, loc) ↔ ∃ type id, tree = .var loc name type id := by
  constructor
  · intro h
    unfold callee? at h
    split at h
    · cases h; exact ⟨_, _, rfl⟩
    · cases h
  · rintro ⟨type, id, rfl⟩
    rfl

namespace Grammar

open Rule Phrase

mutual

theorem expression_sound : ∀ {n session tree next}, (expression n).run session = .done tree next →
    ∃ span, session = next.unread span ∧ Expression span tree
  | 0, _, _, _, h => by rw [expression] at h; cases h
  | n + 1, session, tree, next, h => by
    rw [expression] at h
    obtain ⟨test, mid, htest, h₁⟩ := done_of_bind h
    obtain ⟨testSpan, rfl, testPhrase⟩ := binary_sound htest
    obtain ⟨-, h₂⟩ | ⟨question, mid, rfl, h₂⟩ := done_of_accept h₁
    · obtain ⟨rfl, rfl⟩ := done_of_pure h₂
      exact ⟨testSpan, rfl, .disjunction testPhrase⟩
    · obtain ⟨onTrue, mid, htrue, h₃⟩ := done_of_bind h₂
      obtain ⟨trueSpan, rfl, truePhrase⟩ := expression_sound htrue
      obtain ⟨colon, mid, rfl, h₄⟩ := done_of_expect h₃
      obtain ⟨onFalse, mid, hfalse, h₅⟩ := done_of_bind h₄
      obtain ⟨falseSpan, rfl, falsePhrase⟩ := expression_sound hfalse
      obtain ⟨rfl, rfl⟩ := done_of_pure h₅
      exact ⟨testSpan ++ ⟨_, question⟩ :: trueSpan ++ ⟨_, colon⟩ :: falseSpan, by simp [Session.unread],
        .conditional testPhrase truePhrase falsePhrase⟩

theorem binary_sound : ∀ {n levels session tree next}, (binary n levels).run session = .done tree next →
    ∃ span, session = next.unread span ∧ Operand levels span tree
  | 0, _, _, _, _, h => by rw [binary] at h; cases h
  | n + 1, [], session, tree, next, h => by
    rw [binary] at h
    obtain ⟨span, hspan, phrase⟩ := unary_sound h
    exact ⟨span, hspan, .unary phrase⟩
  | n + 1, level :: tighter, session, tree, next, h => by
    rw [binary] at h
    obtain ⟨left, mid, hleft, h₁⟩ := done_of_bind h
    obtain ⟨leftSpan, rfl, leftPhrase⟩ := binary_sound hleft
    obtain ⟨more, rfl, phrase⟩ := chain_sound (.operand leftPhrase) h₁
    exact ⟨leftSpan ++ more, (Session.unread_append _ _ _).symm, .chain phrase⟩

theorem chain_sound : ∀ {n level tighter left span session tree next}, Chain level tighter span left →
    (chain n level tighter left).run session = .done tree next →
    ∃ more, session = next.unread more ∧ Chain level tighter (span ++ more) tree
  | 0, _, _, _, _, _, _, _, _, h => by rw [chain] at h; cases h
  | n + 1, level, tighter, left, span, session, tree, next, phrase, h => by
    rw [chain] at h
    obtain ⟨-, h₁⟩ | ⟨op, terminal, loc, mid, hop, rfl, h₁⟩ := done_of_take? h
    · obtain ⟨rfl, rfl⟩ := done_of_pure h₁
      exact ⟨[], rfl, by simpa using phrase⟩
    · obtain ⟨rfl, hlevel⟩ := Terminal.binaryOp?_eq_some_iff.1 hop
      obtain ⟨right, mid, hright, h₂⟩ := done_of_bind h₁
      obtain ⟨rightSpan, rfl, rightPhrase⟩ := binary_sound hright
      obtain ⟨more, rfl, result⟩ := chain_sound (.operator phrase hlevel rightPhrase) h₂
      exact ⟨⟨.mark op.mark, loc⟩ :: rightSpan ++ more, by simp [Session.unread], by simpa using result⟩

theorem unary_sound : ∀ {n session tree next}, (unary n).run session = .done tree next →
    ∃ span, session = next.unread span ∧ Unary span tree
  | 0, _, _, _, h => by rw [unary] at h; cases h
  | n + 1, session, tree, next, h => by
    rw [unary] at h
    obtain ⟨-, h₁⟩ | ⟨op, terminal, loc, mid, hop, rfl, h₁⟩ := done_of_take? h
    · obtain ⟨span, hspan, phrase⟩ := suffixed_sound h₁
      exact ⟨span, hspan, .suffixed phrase⟩
    · cases Terminal.unaryOp?_eq_some_iff.1 hop
      obtain ⟨operand, mid, hoperand, h₂⟩ := done_of_bind h₁
      obtain ⟨span, rfl, phrase⟩ := unary_sound hoperand
      obtain ⟨rfl, rfl⟩ := done_of_pure h₂
      exact ⟨_, (Session.unread_cons _ _ _).symm, .operator phrase⟩

theorem suffixed_sound : ∀ {n session tree next}, (suffixed n).run session = .done tree next →
    ∃ span, session = next.unread span ∧ Suffixed span tree
  | 0, _, _, _, h => by rw [suffixed] at h; cases h
  | n + 1, session, tree, next, h => by
    rw [suffixed] at h
    obtain ⟨operand, mid, hoperand, h₁⟩ := done_of_bind h
    obtain ⟨span, rfl, phrase⟩ := primary_sound hoperand
    obtain ⟨more, rfl, result⟩ := suffixes_sound (.primary phrase) h₁
    exact ⟨span ++ more, (Session.unread_append _ _ _).symm, result⟩

theorem suffixes_sound : ∀ {n operand span session tree next}, Suffixed span operand →
    (suffixes n operand).run session = .done tree next →
    ∃ more, session = next.unread more ∧ Suffixed (span ++ more) tree
  | 0, _, _, _, _, _, _, h => by rw [suffixes] at h; cases h
  | n + 1, operand, span, session, tree, next, phrase, h => by
    rw [suffixes] at h
    obtain ⟨-, h₁⟩ | ⟨bracket, mid, rfl, h₁⟩ := done_of_accept h
    · have h₂ := done_of_look h₁
      split at h₂
      · cases hcallee : operand.callee? with
        | none => rw [hcallee] at h₂; cases h₂
        | some callee =>
          obtain ⟨name, loc⟩ := callee
          rw [hcallee] at h₂
          obtain ⟨type, id, rfl⟩ := Tree.callee?_eq_some_iff.1 hcallee
          obtain ⟨paren, mid, rfl, h₃⟩ := done_of_expect h₂
          obtain ⟨args, mid, hargs, h₄⟩ := done_of_bind h₃
          obtain ⟨argSpan, rfl, argPhrase⟩ := callArguments_sound hargs
          obtain ⟨close, mid, rfl, h₅⟩ := done_of_expect h₄
          obtain ⟨more, rfl, result⟩ := suffixes_sound (.call phrase argPhrase) h₅
          exact ⟨⟨.mark .openParen, paren⟩ :: argSpan ++ ⟨.mark .closeParen, close⟩ :: more,
            by simp [Session.unread], by simpa using result⟩
      · obtain ⟨rfl, rfl⟩ := done_of_pure h₂
        exact ⟨[], rfl, by simpa using phrase⟩
    · obtain ⟨subscript, mid, hsubscript, h₂⟩ := done_of_bind h₁
      obtain ⟨subscriptSpan, rfl, subscriptPhrase⟩ := expression_sound hsubscript
      obtain ⟨close, mid, rfl, h₃⟩ := done_of_expect h₂
      obtain ⟨more, rfl, result⟩ := suffixes_sound (.index phrase subscriptPhrase) h₃
      exact ⟨⟨.mark .openBracket, bracket⟩ :: subscriptSpan ++ ⟨.mark .closeBracket, close⟩ :: more,
        by simp [Session.unread], by simpa using result⟩

theorem callArguments_sound : ∀ {n session trees next}, (callArguments n).run session = .done trees next →
    ∃ span, session = next.unread span ∧ CallArguments span trees
  | 0, _, _, _, h => by rw [callArguments] at h; cases h
  | n + 1, session, trees, next, h => by
    rw [callArguments] at h
    have h₁ := done_of_look h
    split at h₁
    · obtain ⟨rfl, rfl⟩ := done_of_pure h₁
      exact ⟨[], rfl, .none⟩
    · obtain ⟨span, hspan, phrase⟩ := expressions_sound h₁
      exact ⟨span, hspan, .some phrase⟩

theorem expressions_sound : ∀ {n session trees next}, (expressions n).run session = .done trees next →
    ∃ span, session = next.unread span ∧ Expressions span trees
  | 0, _, _, _, h => by rw [expressions] at h; cases h
  | n + 1, session, trees, next, h => by
    rw [expressions] at h
    obtain ⟨first, mid, hfirst, h₁⟩ := done_of_bind h
    obtain ⟨span, rfl, phrase⟩ := expression_sound hfirst
    obtain ⟨-, h₂⟩ | ⟨comma, mid, rfl, h₂⟩ := done_of_accept h₁
    · obtain ⟨rfl, rfl⟩ := done_of_pure h₂
      exact ⟨span, rfl, .last phrase⟩
    · obtain ⟨others, mid, hothers, h₃⟩ := done_of_bind h₂
      obtain ⟨otherSpan, rfl, otherPhrase⟩ := expressions_sound hothers
      obtain ⟨rfl, rfl⟩ := done_of_pure h₃
      exact ⟨span ++ ⟨_, comma⟩ :: otherSpan, by simp [Session.unread], .more phrase otherPhrase⟩

theorem primary_sound : ∀ {n session tree next}, (primary n).run session = .done tree next →
    ∃ span, session = next.unread span ∧ Primary span tree
  | 0, _, _, _, h => by rw [primary] at h; cases h
  | n + 1, session, tree, next, h => by
    rw [primary] at h
    obtain ⟨-, h₁⟩ | ⟨leaf, terminal, loc, mid, hleaf, rfl, h₁⟩ := done_of_take? h
    · obtain ⟨paren, mid, rfl, h₂⟩ := done_of_expect h₁
      obtain ⟨inner, mid, hinner, h₃⟩ := done_of_bind h₂
      obtain ⟨span, rfl, phrase⟩ := expression_sound hinner
      obtain ⟨close, mid, rfl, h₄⟩ := done_of_expect h₃
      obtain ⟨rfl, rfl⟩ := done_of_pure h₄
      exact ⟨⟨_, paren⟩ :: span ++ [⟨_, close⟩], by simp [Session.unread], .group phrase⟩
    · obtain ⟨rfl, rfl⟩ := done_of_pure h₁
      exact ⟨_, rfl, Terminal.primary_of_leaf? hleaf loc⟩

end

theorem guard_sound {n : Nat} {session next : Session} {tree : Tree}
    (h : (guard n).run session = .done tree next) :
    ∃ span loc op left right, session = next.unread span ∧ tree = .binary loc op left right ∧
      Operand Precedence.ladder span tree := by
  obtain ⟨test, mid, htest, h₁⟩ := done_of_bind (done_of_look h)
  obtain ⟨span, rfl, phrase⟩ := binary_sound htest
  split at h₁
  · next hkind =>
    obtain ⟨rfl, rfl⟩ := done_of_pure h₁
    cases tree with
    | binary loc op left right => exact ⟨span, loc, op, left, right, rfl, rfl, phrase⟩
    | _ => cases hkind
  · cases h₁

end Grammar

end RoutineSpec
