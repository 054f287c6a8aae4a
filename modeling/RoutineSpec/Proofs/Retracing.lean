import RoutineSpec.Proofs.ProgramSound
import RoutineSpec.Tree.Children

/-! # Trees retrace their source

A variable, a constant or a call stands for one word of the source. On the way through a tree that has been read, these
words come up in the order of the source, and no word comes up twice: repairs leave words out, and where they go back to
the start of a statement, they keep nothing of it. The exception is an increment, whose name stands in the tree twice, and
whose zero is not written at all.
-/

namespace RoutineSpec

/-- The tree stands for one word of its source. -/
def Tree.isWord : Tree → Bool
  | .var .. | .constant .. | .call .. => true
  | _ => false

/-- The lexeme is the word that the tree stands for. -/
inductive Lexeme.Denotes : Lexeme → Tree → Prop where
  | var {loc name type id} : Denotes ⟨.identifier name, loc⟩ (.var loc name type id)
  | integer {loc value} : Denotes ⟨.integer value, loc⟩ (.constant loc (.int value))
  | true_ {loc} : Denotes ⟨.keyword .true_, loc⟩ (.constant loc (.bool true))
  | false_ {loc} : Denotes ⟨.keyword .false_, loc⟩ (.constant loc (.bool false))
  | call {loc name args} : Denotes ⟨.identifier name, loc⟩ (.call loc name args)

/-- The lexemes that are written for an increment. -/
def incrementSpan (loc : Location) (name : String) (op : BinaryOp) (first second : Location) : List Lexeme :=
  [⟨.identifier name, loc⟩, ⟨.mark op.mark, first⟩, ⟨.mark op.mark, second⟩]

/-- The words that are visited are among the lexemes, in the same order and each once, but for increments. -/
inductive Retraces : List Lexeme → List Visit → Prop where
  | nil : Retraces [] []
  /-- No tree stands for the lexeme: it is a sign, or it has been left out. -/
  | pass {lexeme lexemes visits} : Retraces lexemes visits → Retraces (lexeme :: lexemes) visits
  | inner {lexemes visit visits} :
      visit.node.isWord = false → Retraces lexemes visits → Retraces lexemes (visit :: visits)
  | word {lexeme lexemes visit visits} :
      lexeme.Denotes visit.node → Retraces lexemes visits → Retraces (lexeme :: lexemes) (visit :: visits)
  | increment {path loc name op first second lexemes visits} :
      op = .add ∨ op = .sub → first.Touches second → Retraces lexemes visits →
      Retraces (incrementSpan loc name op first second ++ lexemes)
        (Tree.visitsFrom path (.increment loc name op first) ++ visits)

namespace Child

/-- The children in a slot that holds a list, from the given position on. -/
def eachFrom (name : String) (start : Nat) (nodes : List Tree) : List Child :=
  (nodes.zipIdx start).map fun (node, i) => ⟨⟨name, some i⟩, node⟩

theorem eachFrom_append (name : String) (start : Nat) (nodes more : List Tree) :
    eachFrom name start (nodes ++ more) = eachFrom name start nodes ++ eachFrom name (start + nodes.length) more := by
  simp [eachFrom, List.zipIdx_append]

/-- A child and all below it in preorder, `path` leading to its parent. -/
def visits (path : List Slot) (child : Child) : List Visit :=
  Tree.visitsFrom (path ++ [child.slot]) child.node

end Child

theorem Tree.visitsFrom_eq_visits (path : List Slot) (tree : Tree) :
    visitsFrom path tree = ⟨path, tree⟩ :: tree.children.flatMap (Child.visits path) :=
  visitsFrom_eq path tree

namespace Retraces

variable {lexemes span more : List Lexeme} {visits others : List Visit} {path : List Slot} {tree : Tree}

theorem append (h : Retraces span visits) (h' : Retraces more others) : Retraces (span ++ more) (visits ++ others) := by
  induction h with
  | nil => exact h'
  | pass _ ih => exact .pass ih
  | inner hinner _ ih => exact .inner hinner ih
  | word hword _ ih => exact .word hword ih
  | increment hsign htouch _ ih =>
    rw [List.append_assoc, List.append_assoc]
    exact .increment hsign htouch ih

theorem passes (span : List Lexeme) (h : Retraces lexemes visits) : Retraces (span ++ lexemes) visits := by
  induction span with
  | nil => exact h
  | cons lexeme span ih => exact .pass ih

theorem leftOut (span : List Lexeme) : Retraces span [] := by
  simpa using Retraces.nil.passes span

theorem closed (h : Retraces span visits) (close : List Lexeme) : Retraces (span ++ close) visits := by
  simpa using h.append (leftOut close)

theorem of_increment {loc first second : Location} {name : String} {op : BinaryOp} (hsign : op = .add ∨ op = .sub)
    (htouch : first.Touches second) :
    Retraces (incrementSpan loc name op first second) (Tree.visitsFrom path (.increment loc name op first)) := by
  simpa using nil.increment hsign htouch

/-- A tree that stands for no word is visited before its children. -/
theorem node (hinner : tree.isWord = false) (h : Retraces span (tree.children.flatMap (Child.visits path))) :
    Retraces span (Tree.visitsFrom path tree) := by
  rw [Tree.visitsFrom_eq_visits]
  exact .inner hinner h

theorem children {child : Child} {children : List Child} (h : Retraces span (child.visits path))
    (h' : Retraces more (children.flatMap (Child.visits path))) :
    Retraces (span ++ more) ((child :: children).flatMap (Child.visits path)) :=
  h.append h'

theorem lastChild {child : Child} (h : Retraces span (child.visits path)) :
    Retraces span ([child].flatMap (Child.visits path)) := by
  simpa using h

/-- A word without children. -/
theorem leaf {lexeme : Lexeme} (hword : lexeme.Denotes tree) (hleaf : tree.children = []) :
    Retraces [lexeme] (Tree.visitsFrom path tree) := by
  rw [Tree.visitsFrom_eq_visits, hleaf]
  exact .word hword .nil

end Retraces

namespace Phrase

/-- What is called comes up once. -/
theorem Named.retraces {span : List Lexeme} {loc : Location} {name : String} {visit : Visit} (h : Named span loc name)
    (hword : (⟨.identifier name, loc⟩ : Lexeme).Denotes visit.node) : Retraces span [visit] := by
  induction h with
  | bare => exact .word hword .nil
  | group _ ih => exact .pass ((ih hword).closed _)

mutual

theorem Expression.retraces : ∀ {span tree}, Expression span tree → ∀ path, Retraces span (tree.visitsFrom path)
  | _, _, .disjunction phrase, path => phrase.retraces path
  | _, _, .conditional testPhrase truePhrase falsePhrase, path => by
    rw [List.append_assoc, List.cons_append]
    refine .node rfl (.children (testPhrase.retraces _) (.pass ?_))
    exact .children (truePhrase.retraces _) (.pass (.lastChild (falsePhrase.retraces _)))

theorem Operand.retraces : ∀ {levels span tree}, Operand levels span tree →
    ∀ path, Retraces span (tree.visitsFrom path)
  | _, _, _, .unary phrase, path => phrase.retraces path
  | _, _, _, .chain phrase, path => phrase.retraces path

theorem Chain.retraces : ∀ {level tighter span tree}, Chain level tighter span tree →
    ∀ path, Retraces span (tree.visitsFrom path)
  | _, _, _, _, .operand phrase, path => phrase.retraces path
  | _, _, _, _, .operator leftPhrase _ rightPhrase, _ =>
    .node rfl (.children (leftPhrase.retraces _) (.pass (.lastChild (rightPhrase.retraces _))))

theorem Unary.retraces : ∀ {span tree}, Unary span tree → ∀ path, Retraces span (tree.visitsFrom path)
  | _, _, .suffixed phrase, path => phrase.retraces path
  | _, _, .operator phrase, _ => .node rfl (.pass (.lastChild (phrase.retraces _)))

theorem Suffixed.retraces : ∀ {span tree}, Suffixed span tree → ∀ path, Retraces span (tree.visitsFrom path)
  | _, _, .primary phrase, path => phrase.retraces path
  | _, _, .index basePhrase subscriptPhrase, _ => by
    rw [List.append_assoc, List.cons_append]
    refine .node rfl (.children (basePhrase.retraces _) (.pass ?_))
    exact .children (subscriptPhrase.retraces _) (.leftOut [_])
  | _, _, .call calleePhrase argPhrase, path => by
    -- A call is at the place of its callee, which is no child of it.
    rw [List.append_assoc, List.cons_append, Tree.visitsFrom_eq_visits]
    refine ((suffixed_var_iff.1 calleePhrase).1.retraces .call).append (.pass ?_)
    exact (argPhrase.retraces path "args" 0).closed _

theorem CallArguments.retraces : ∀ {span trees}, CallArguments span trees →
    ∀ path name start, Retraces span ((Child.eachFrom name start trees).flatMap (Child.visits path))
  | _, _, .none, _, _, _ => .nil
  | _, _, .some phrase, path, name, start => phrase.retraces path name start

theorem Expressions.retraces : ∀ {span trees}, Expressions span trees →
    ∀ path name start, Retraces span ((Child.eachFrom name start trees).flatMap (Child.visits path))
  | _, _, .last phrase, _, _, _ => .lastChild (phrase.retraces _)
  | _, _, .more phrase others, path, name, start =>
    .children (phrase.retraces _) (.pass (others.retraces path name (start + 1)))

theorem Primary.retraces : ∀ {span tree}, Primary span tree → ∀ path, Retraces span (tree.visitsFrom path)
  | _, _, .integer, _ => .leaf .integer rfl
  | _, _, .true_, _ => .leaf .true_ rfl
  | _, _, .false_, _ => .leaf .false_ rfl
  | _, _, .name, _ => .leaf .var rfl
  | _, _, .group phrase, path => .pass ((phrase.retraces path).closed _)

end

theorem Assignment.retraces {span : List Lexeme} {tree : Tree} (h : Assignment Location.Touches span tree)
    (path : List Slot) : Retraces span (tree.visitsFrom path) := by
  cases h with
  | increment hsign htouch => exact .of_increment hsign htouch
  | equation targetPhrase valuePhrase =>
    exact .node rfl (.children (targetPhrase.retraces _) (.pass (.lastChild (valuePhrase.retraces _))))

theorem Argument.retraces {span : List Lexeme} {tree : Tree} (h : Argument span tree) (path : List Slot) :
    Retraces span (tree.visitsFrom path) := by
  cases h with
  | @declaration first star type name loc phrase =>
    have htype : Retraces (first :: star) (Tree.visitsFrom (path ++ [⟨"type", none⟩]) (.dataType first.loc type)) :=
      .node rfl (.leftOut _)
    exact .node rfl (.children htype (.lastChild (.leaf .var rfl)))

theorem Listed.retraces {Item : List Lexeme → Tree → Prop} {span : List Lexeme} {trees : List Tree}
    (hitem : ∀ {span tree}, Item span tree → ∀ path, Retraces span (tree.visitsFrom path)) (h : Listed Item span trees)
    (path : List Slot) (name : String) (start : Nat) :
    Retraces span ((Child.eachFrom name start trees).flatMap (Child.visits path)) := by
  induction h generalizing start with
  | last phrase => exact .lastChild (hitem phrase _)
  | more phrase _ ih => exact .children (hitem phrase _) (.pass (ih (start + 1)))

theorem AnyListed.retraces {Item : List Lexeme → Tree → Prop} {span : List Lexeme} {trees : List Tree}
    (hitem : ∀ {span tree}, Item span tree → ∀ path, Retraces span (tree.visitsFrom path))
    (h : AnyListed Item span trees) (path : List Slot) (name : String) (start : Nat) :
    Retraces span ((Child.eachFrom name start trees).flatMap (Child.visits path)) := by
  cases h with
  | none => exact .nil
  | some phrase => exact phrase.retraces hitem path name start

theorem Returned.retraces {span : List Lexeme} {tree : Tree} (h : Returned span tree) (path : List Slot) :
    Retraces span (tree.visitsFrom path) := by
  cases h with
  | name => exact .leaf .var rfl

end Phrase

/-- The visits retrace what is read between two sessions. -/
def Session.RetracesTo (session next : Session) (visits : List Visit) : Prop :=
  ∃ read, session.rest = read ++ next.rest ∧ Retraces read visits

namespace Session.RetracesTo

variable {session mid next : Session} {span : List Lexeme} {visits others : List Visit} {path : List Slot} {tree : Tree}

theorem refl (session : Session) : session.RetracesTo session [] :=
  ⟨[], rfl, .nil⟩

theorem trans (h : session.RetracesTo mid visits) (h' : mid.RetracesTo next others) :
    session.RetracesTo next (visits ++ others) := by
  obtain ⟨read, hread, hvisits⟩ := h
  obtain ⟨more, hmore, hothers⟩ := h'
  exact ⟨read ++ more, by rw [hread, hmore, List.append_assoc], hvisits.append hothers⟩

theorem of_retraces (h : Retraces span visits) : (next.unread span).RetracesTo next visits :=
  ⟨span, rfl, h⟩

/-- What is left out of the tree is passed over. -/
theorem of_advances (h : session.AdvancesTo next) : session.RetracesTo next [] := by
  obtain ⟨read, hread⟩ := h.rest
  exact ⟨read, hread.symm, .leftOut read⟩

theorem unread (h : session.RetracesTo next visits) : (session.unread span).RetracesTo next visits :=
  (of_retraces (.leftOut span)).trans h

theorem closed (h : session.RetracesTo (next.unread span) visits) : session.RetracesTo next visits := by
  simpa using h.trans (of_retraces (.leftOut span))

theorem node (hinner : tree.isWord = false)
    (h : session.RetracesTo next (tree.children.flatMap (Child.visits path))) :
    session.RetracesTo next (tree.visitsFrom path) := by
  obtain ⟨read, hread, hvisits⟩ := h
  exact ⟨read, hread, hvisits.node hinner⟩

theorem children {child : Child} {children : List Child} (h : session.RetracesTo mid (child.visits path))
    (h' : mid.RetracesTo next (children.flatMap (Child.visits path))) :
    session.RetracesTo next ((child :: children).flatMap (Child.visits path)) :=
  h.trans h'

theorem lastChild {child : Child} (h : session.RetracesTo next (child.visits path)) :
    session.RetracesTo next ([child].flatMap (Child.visits path)) := by
  simpa using h

end Session.RetracesTo

namespace Grammar

open Rule

theorem assignment_retraces {n : Nat} {session next : Session} {tree : Tree}
    (h : (assignment n).run session = .done tree next) (path : List Slot) :
    session.RetracesTo next (tree.visitsFrom path) := by
  obtain ⟨span, rfl, phrase⟩ := assignment_sound h
  exact .of_retraces (phrase.retraces path)

mutual

theorem statement_retraces : ∀ {n session tree next}, (statement n).run session = .done tree next →
    ∀ path, session.RetracesTo next (tree.visitsFrom path)
  | 0, _, _, _, h, _ => by rw [statement] at h; cases h
  | n + 1, session, tree, next, h, path => by
    rw [statement] at h
    obtain ⟨-, h₁⟩ | ⟨loc, mid, rfl, h₁⟩ := done_of_accept h
    · obtain ⟨-, h₂⟩ | ⟨loc, mid, rfl, h₂⟩ := done_of_accept h₁
      · obtain ⟨-, h₃⟩ | ⟨loc, mid, rfl, h₃⟩ := done_of_accept h₂
        · obtain ⟨found, mid, hassignment, h₄⟩ := done_of_bind h₃
          obtain ⟨semicolon, mid, rfl, h₅⟩ := done_of_expect h₄
          obtain ⟨rfl, rfl⟩ := done_of_pure h₅
          exact (assignment_retraces hassignment path).closed
        · exact (block_retraces h₃ path).unread
      · exact (iteration_retraces h₂ path).unread
    · exact (selection_retraces h₁ path).unread

theorem selection_retraces : ∀ {n loc session tree next}, (selection n loc).run session = .done tree next →
    ∀ path, session.RetracesTo next (tree.visitsFrom path)
  | 0, _, _, _, _, h, _ => by rw [selection] at h; cases h
  | n + 1, loc, session, tree, next, h, path => by
    rw [selection] at h
    obtain ⟨paren, mid, rfl, h₁⟩ := done_of_expect h
    obtain ⟨condition, mid, hcondition, h₂⟩ := done_of_bind h₁
    obtain ⟨conditionSpan, rfl, conditionPhrase⟩ := expression_sound hcondition
    obtain ⟨close, mid, rfl, h₃⟩ := done_of_expect h₂
    obtain ⟨onTrue, behind, htrue, h₄⟩ := done_of_bind h₃
    obtain ⟨-, h₅⟩ | ⟨other, last, rfl, h₅⟩ := done_of_accept h₄
    · obtain ⟨rfl, rfl⟩ := done_of_pure h₅
      refine .unread (.node rfl (.children (.of_retraces (conditionPhrase.retraces _)) (.unread ?_)))
      exact .lastChild (statement_retraces htrue _)
    · obtain ⟨onFalse, final, hfalse, h₆⟩ := done_of_bind h₅
      obtain ⟨rfl, rfl⟩ := done_of_pure h₆
      refine .unread (.node rfl (.children (.of_retraces (conditionPhrase.retraces _)) (.unread ?_)))
      exact .children (statement_retraces htrue _) (.unread (.lastChild (statement_retraces hfalse _)))

theorem iteration_retraces : ∀ {n loc session tree next}, (iteration n loc).run session = .done tree next →
    ∀ path, session.RetracesTo next (tree.visitsFrom path)
  | 0, _, _, _, _, h, _ => by rw [iteration] at h; cases h
  | n + 1, loc, session, tree, next, h, path => by
    rw [iteration] at h
    obtain ⟨paren, mid, rfl, h₁⟩ := done_of_expect h
    obtain ⟨init, mid₁, hinit, h₂⟩ := done_of_bind h₁
    obtain ⟨first, mid, rfl, h₃⟩ := done_of_expect h₂
    obtain ⟨test, mid₂, htest, h₄⟩ := done_of_bind h₃
    obtain ⟨testSpan, opLoc, op, left, right, rfl, rfl, testPhrase⟩ := guard_sound htest
    obtain ⟨second, mid, rfl, h₅⟩ := done_of_expect h₄
    obtain ⟨update, mid₃, hupdate, h₆⟩ := done_of_bind h₅
    obtain ⟨close, mid, rfl, h₇⟩ := done_of_expect h₆
    obtain ⟨-, h₈⟩ | ⟨brace, mid, rfl, h₈⟩ := done_of_accept h₇
    · cases h₈
    · obtain ⟨body, behind, hbody, h₉⟩ := done_of_bind h₈
      obtain ⟨rfl, rfl⟩ := done_of_pure h₉
      refine .unread (.node rfl (.children (assignment_retraces hinit _) (.unread ?_)))
      refine .children (.of_retraces (testPhrase.retraces _)) (.unread ?_)
      refine .children (assignment_retraces hupdate _) (.unread (.unread ?_))
      exact .lastChild (block_retraces hbody _)

theorem block_retraces : ∀ {n loc session tree next}, (block n loc).run session = .done tree next →
    ∀ path, session.RetracesTo next (tree.visitsFrom path)
  | 0, _, _, _, _, h, _ => by rw [block] at h; cases h
  | n + 1, loc, session, tree, next, h, path => by
    rw [block] at h
    obtain ⟨trees, mid, htrees, h₁⟩ := done_of_bind h
    obtain ⟨close, behind, rfl, h₂⟩ := done_of_expect h₁
    obtain ⟨rfl, rfl⟩ := done_of_pure h₂
    exact .node rfl (statements_retraces htrees path "statements" 0).closed

theorem statements_retraces : ∀ {n session trees next}, (statements n).run session = .done trees next →
    ∀ path name start, session.RetracesTo next ((Child.eachFrom name start trees).flatMap (Child.visits path))
  | 0, _, _, _, h, _, _, _ => by rw [statements] at h; cases h
  | n + 1, session, trees, next, h, path, name, start => by
    rw [statements] at h
    have h₁ := done_of_look h
    split at h₁
    · obtain ⟨rfl, rfl⟩ := done_of_pure h₁
      exact .refl session
    · obtain ⟨first, mid, hfirst, h₂⟩ := done_of_bind h₁
      obtain ⟨others, behind, hothers, h₃⟩ := done_of_bind h₂
      obtain ⟨rfl, rfl⟩ := done_of_pure h₃
      rw [Child.eachFrom_append, List.flatMap_append]
      exact (statementIfSound_retraces hfirst path name start).trans (statements_retraces hothers path name _)

/-- Nothing is kept of a statement that is skipped. -/
theorem statementIfSound_retraces : ∀ {n session trees next}, (statementIfSound n).run session = .done trees next →
    ∀ path name start, session.RetracesTo next ((Child.eachFrom name start trees).flatMap (Child.visits path))
  | 0, _, _, _, h, _, _, _ => by rw [statementIfSound] at h; cases h
  | n + 1, session, trees, next, h, path, name, start => by
    have hadvances := (statementIfSound_advances (n + 1)).done h
    rw [statementIfSound] at h
    obtain ⟨tree, mid, hstatement, h₁⟩ | ⟨error, mid, hstatement, h₁⟩ := done_of_attempt (done_of_look h)
    · obtain ⟨rfl, rfl⟩ := done_of_pure h₁
      exact .lastChild (statement_retraces hstatement _)
    · -- Wherever the block goes on, it is behind the start of the statement, and no tree is kept.
      cases h₁
      exact .of_advances hadvances

end

theorem argumentIfSound_retraces {session next : Session} {trees : List Tree}
    (h : argumentIfSound.run session = .done trees next) (path : List Slot) (name : String) (start : Nat) :
    session.RetracesTo next ((Child.eachFrom name start trees).flatMap (Child.visits path)) := by
  have hadvances := argumentIfSound_advances.done h
  obtain ⟨rfl, -, -⟩ | ⟨tree, span, rfl, rfl, phrase⟩ := argumentIfSound_sound h
  · exact .of_advances hadvances
  · exact .lastChild (.of_retraces (phrase.retraces _))

theorem arguments_retraces : ∀ {n session trees next}, (arguments n).run session = .done trees next →
    ∀ path name start, session.RetracesTo next ((Child.eachFrom name start trees).flatMap (Child.visits path))
  | 0, _, _, _, h, _, _, _ => by rw [arguments] at h; cases h
  | n + 1, session, trees, next, h, path, name, start => by
    rw [arguments] at h
    obtain ⟨first, mid, hfirst, h₁⟩ := done_of_bind h
    obtain ⟨-, h₂⟩ | ⟨comma, mid, rfl, h₂⟩ := done_of_accept h₁
    · obtain ⟨rfl, rfl⟩ := done_of_pure h₂
      exact argumentIfSound_retraces hfirst path name start
    · obtain ⟨others, behind, hothers, h₃⟩ := done_of_bind h₂
      obtain ⟨rfl, rfl⟩ := done_of_pure h₃
      rw [Child.eachFrom_append, List.flatMap_append]
      exact (argumentIfSound_retraces hfirst path name start).trans (.unread (arguments_retraces hothers path name _))

section

variable {n : Nat} {session next : Session} {trees : List Tree} {tree : Tree} (path : List Slot)

theorem argumentList_retraces (h : (argumentList n).run session = .done trees next) (name : String) :
    session.RetracesTo next ((Child.each name trees).flatMap (Child.visits path)) := by
  have h₁ := done_of_look h
  split at h₁
  · obtain ⟨rfl, rfl⟩ := done_of_pure h₁
    exact .refl session
  · exact arguments_retraces h₁ path name 0

theorem returnsClause_retraces (h : (returnsClause n).run session = .done trees next) (name : String) :
    session.RetracesTo next ((Child.each name trees).flatMap (Child.visits path)) := by
  obtain ⟨returns, paren, span, close, phrase, rfl⟩ := returnsClause_sound h
  have hnames := phrase.retraces Phrase.Returned.retraces path name 0
  exact .of_retraces (.pass (.pass (hnames.closed _)))

theorem localsClause_retraces (h : (localsClause n).run session = .done trees next) (name : String) :
    session.RetracesTo next ((Child.each name trees).flatMap (Child.visits path)) := by
  obtain ⟨locals, mid, rfl, h₁⟩ := done_of_expect h
  obtain ⟨paren, mid, rfl, h₂⟩ := done_of_expect h₁
  obtain ⟨args, mid, hargs, h₃⟩ := done_of_bind h₂
  obtain ⟨close, behind, rfl, h₄⟩ := done_of_expect h₃
  obtain ⟨rfl, rfl⟩ := done_of_pure h₄
  exact .unread (.unread (argumentList_retraces path hargs name).closed)

/-- Nothing is kept of a body that is skipped. -/
theorem joinBody_retraces (h : (joinBody n).run session = .done tree next) :
    session.RetracesTo next (tree.visitsFrom path) := by
  have hadvances := (joinBody_advances n).done h
  obtain ⟨body, mid, hbody, h₁⟩ | ⟨error, mid, hbody, h₁⟩ := done_of_attempt (done_of_look h)
  · obtain ⟨rfl, rfl⟩ := done_of_pure h₁
    exact statement_retraces hbody path
  · cases h₁
    exact .node rfl (.of_advances hadvances)

theorem joinSpec_retraces (h : (joinSpec n).run session = .done tree next) :
    session.RetracesTo next (tree.visitsFrom path) := by
  obtain ⟨loc, mid, rfl, h₁⟩ := done_of_expect (done_of_look h)
  obtain ⟨paren, mid, rfl, h₂⟩ := done_of_expect h₁
  obtain ⟨left, mid₁, hleft, h₃⟩ := done_of_bind h₂
  obtain ⟨pipe, mid₂, rfl, h₄⟩ := done_of_expect h₃
  obtain ⟨right, mid₃, hright, h₅⟩ := done_of_bind h₄
  obtain ⟨close, mid₄, rfl, h₆⟩ := done_of_expect h₅
  obtain ⟨returned, mid₅, hreturned, h₇⟩ := done_of_bind h₆
  obtain ⟨locals, mid₆, hlocals, h₈⟩ := done_of_bind h₇
  obtain ⟨body, mid₇, hbody, h₉⟩ := done_of_bind h₈
  obtain ⟨rfl, rfl⟩ := done_of_pure h₉
  refine .unread (.unread (.node rfl ?_))
  simp only [Tree.children, List.flatMap_append, List.append_assoc]
  refine (argumentList_retraces path hleft "argsl").trans (.unread ?_)
  refine (argumentList_retraces path hright "argsr").trans (.unread ?_)
  refine (returnsClause_retraces path hreturned "returns").trans ?_
  exact (localsClause_retraces path hlocals "locals").trans (.lastChild (joinBody_retraces _ hbody))

theorem sequentialSpec_retraces (h : (sequentialSpec n).run session = .done tree next) :
    session.RetracesTo next (tree.visitsFrom path) := by
  obtain ⟨loc, mid, rfl, h₁⟩ := done_of_expect (done_of_look h)
  obtain ⟨paren, mid, rfl, h₂⟩ := done_of_expect h₁
  obtain ⟨args, mid₁, hargs, h₃⟩ := done_of_bind h₂
  obtain ⟨close, mid₂, rfl, h₄⟩ := done_of_expect h₃
  obtain ⟨returned, mid₃, hreturned, h₅⟩ := done_of_bind h₄
  obtain ⟨locals, mid₄, hlocals, h₆⟩ := done_of_bind h₅
  obtain ⟨body, mid₅, hbody, h₇⟩ := done_of_bind h₆
  obtain ⟨rfl, rfl⟩ := done_of_pure h₇
  refine .unread (.unread (.node rfl ?_))
  simp only [Tree.children, List.flatMap_append, List.append_assoc]
  refine (argumentList_retraces path hargs "args").trans (.unread ?_)
  refine (returnsClause_retraces path hreturned "returns").trans ?_
  exact (localsClause_retraces path hlocals "locals").trans (.lastChild (statement_retraces hbody _))

theorem program_retraces (h : (program n).run session = .done tree next) :
    session.RetracesTo next (tree.visitsFrom path) := by
  obtain ⟨join, mid, hjoin, h₁⟩ | ⟨error, mid, -, h₁⟩ := done_of_attempt (done_of_look h)
  · obtain ⟨sequential, behind, hsequential, h₂⟩ := done_of_bind h₁
    have h₃ := done_of_look h₂
    split at h₃
    · obtain ⟨rfl, rfl⟩ := done_of_pure h₃
      exact .node rfl (.children (joinSpec_retraces _ hjoin) (.lastChild (sequentialSpec_retraces _ hsequential)))
    · cases h₃
  · exact absurd h₁ brokenProgram_ne_done

end

end Grammar

end RoutineSpec
