import RoutineSpec.Grammar.Progress
import RoutineSpec.Proofs.Headers
import RoutineSpec.Tree.Children

/-! # What stands around a block

A block of a program stands inside of statements, each inside of the next, and the outermost is the body of a
specification. Taken without the statements in the block, all that stands before it and behind it fits around a block
with other statements as well.
-/

namespace RoutineSpec

/-- Where `x` stands in one list behind another, it stands in the first or in the second. -/
theorem append_eq_append_cons {α : Type} {first second before rest : List α} {x : α}
    (h : first ++ second = before ++ x :: rest) :
    (∃ more, first = before ++ x :: more ∧ rest = more ++ second) ∨
      ∃ more, before = first ++ more ∧ second = more ++ x :: rest := by
  obtain ⟨more, hbefore, hsecond⟩ | ⟨more, hfirst, hrest⟩ := List.append_eq_append_iff.1 h
  · exact .inr ⟨more, hbefore, hsecond⟩
  · cases more with
    | nil => exact .inr ⟨[], by simpa using hfirst.symm, by simpa using hrest.symm⟩
    | cons found more =>
      obtain ⟨rfl, hbehind⟩ := List.cons.inj hrest
      exact .inl ⟨more, hfirst, hbehind⟩

theorem append_eq_append_cons_of_not_mem {α : Type} {first second before rest : List α} {x : α}
    (h : first ++ second = before ++ x :: rest) (hfirst : x ∉ first) :
    ∃ more, before = first ++ more ∧ second = more ++ x :: rest := by
  obtain ⟨more, rfl, -⟩ | hsecond := append_eq_append_cons h
  · exact absurd (List.mem_append_right _ List.mem_cons_self) hfirst
  · exact hsecond

namespace Tree

variable {tree node inner : Tree}

/-- The tree is `inner`, or has it below. -/
def Contains (tree inner : Tree) : Prop :=
  ∀ path, ∃ visit ∈ tree.visitsFrom path, visit.node = inner

theorem contains_self (tree : Tree) : tree.Contains tree := fun path =>
  ⟨⟨path, tree⟩, by rw [visitsFrom_eq]; exact List.mem_cons_self, rfl⟩

theorem Contains.of_child (h : node.Contains inner) (hchild : node ∈ tree.children.map Child.node) :
    tree.Contains inner := by
  intro path
  obtain ⟨child, hmem, rfl⟩ := List.mem_map.1 hchild
  obtain ⟨visit, hvisit, hnode⟩ := h (path ++ [child.slot])
  refine ⟨visit, ?_, hnode⟩
  rw [visitsFrom_eq]
  exact List.mem_cons_of_mem _ (List.mem_flatMap.2 ⟨child, hmem, hvisit⟩)

end Tree

namespace Terminal

/-- The terminal can be part of an assignment. -/
def inAssignment : Terminal → Bool
  | .identifier _ | .integer _ | .keyword .true_ | .keyword .false_ => true
  | .keyword _ | .mark .semicolon | .mark .openBrace | .mark .closeBrace => false
  | .mark _ => true

theorem inAssignment_binary (op : BinaryOp) : inAssignment (.mark op.mark) = true := by
  cases op <;> rfl

theorem inAssignment_unary (op : UnaryOp) : inAssignment (.mark op.mark) = true := by
  cases op <;> rfl

end Terminal

namespace Phrase

/-! ## Assignments are in one piece -/

/-- All of the lexemes can be part of an assignment. -/
def Unbroken (span : List Lexeme) : Prop :=
  ∀ lexeme ∈ span, lexeme.terminal.inAssignment = true

theorem Unbroken.append {span more : List Lexeme} (h : Unbroken span) (h' : Unbroken more) : Unbroken (span ++ more) :=
  List.forall_mem_append.2 ⟨h, h'⟩

theorem Unbroken.cons {lexeme : Lexeme} {span : List Lexeme} (hfirst : lexeme.terminal.inAssignment = true)
    (h : Unbroken span) : Unbroken (lexeme :: span) :=
  List.forall_mem_cons.2 ⟨hfirst, h⟩

theorem unbroken_singleton {lexeme : Lexeme} (h : lexeme.terminal.inAssignment = true) : Unbroken [lexeme] :=
  .cons h (by simp [Unbroken])

mutual

theorem Expression.unbroken : ∀ {span tree}, Expression span tree → Unbroken span
  | _, _, .disjunction phrase => phrase.unbroken
  | _, _, .conditional testPhrase truePhrase falsePhrase =>
    .append (.append testPhrase.unbroken (.cons rfl truePhrase.unbroken)) (.cons rfl falsePhrase.unbroken)

theorem Operand.unbroken : ∀ {levels span tree}, Operand levels span tree → Unbroken span
  | _, _, _, .unary phrase => phrase.unbroken
  | _, _, _, .chain phrase => phrase.unbroken

theorem Chain.unbroken : ∀ {level tighter span tree}, Chain level tighter span tree → Unbroken span
  | _, _, _, _, .operand phrase => phrase.unbroken
  | _, _, _, _, .operator leftPhrase _ rightPhrase =>
    leftPhrase.unbroken.append (.cons (Terminal.inAssignment_binary _) rightPhrase.unbroken)

theorem Unary.unbroken : ∀ {span tree}, Unary span tree → Unbroken span
  | _, _, .suffixed phrase => phrase.unbroken
  | _, _, .operator phrase => .cons (Terminal.inAssignment_unary _) phrase.unbroken

theorem Suffixed.unbroken : ∀ {span tree}, Suffixed span tree → Unbroken span
  | _, _, .primary phrase => phrase.unbroken
  | _, _, .index basePhrase subscriptPhrase =>
    .append (.append basePhrase.unbroken (.cons rfl subscriptPhrase.unbroken)) (unbroken_singleton rfl)
  | _, _, .call calleePhrase argPhrase =>
    .append (.append calleePhrase.unbroken (.cons rfl argPhrase.unbroken)) (unbroken_singleton rfl)

theorem CallArguments.unbroken : ∀ {span trees}, CallArguments span trees → Unbroken span
  | _, _, .none => by simp [Unbroken]
  | _, _, .some phrases => phrases.unbroken

theorem Expressions.unbroken : ∀ {span trees}, Expressions span trees → Unbroken span
  | _, _, .last phrase => phrase.unbroken
  | _, _, .more phrase others => phrase.unbroken.append (.cons rfl others.unbroken)

theorem Primary.unbroken : ∀ {span tree}, Primary span tree → Unbroken span
  | _, _, .integer | _, _, .true_ | _, _, .false_ | _, _, .name => unbroken_singleton rfl
  | _, _, .group phrase => .append (.cons rfl phrase.unbroken) (unbroken_singleton rfl)

end

variable {Adjacent : Location → Location → Prop} {span : List Lexeme} {tree : Tree}

theorem Assignment.unbroken (h : Assignment Adjacent span tree) : Unbroken span := by
  cases h with
  | increment =>
    exact .cons rfl (.cons (Terminal.inAssignment_binary _) (unbroken_singleton (Terminal.inAssignment_binary _)))
  | equation targetPhrase valuePhrase => exact targetPhrase.unbroken.append (.cons rfl valuePhrase.unbroken)

theorem Unbroken.not_semicolon (h : Unbroken span) : ∀ lexeme ∈ span, lexeme.terminal ≠ .mark .semicolon := by
  intro lexeme hmem hsemicolon
  have hunbroken := h lexeme hmem
  rw [hsemicolon] at hunbroken
  cases hunbroken

theorem Unbroken.unbraced (h : Unbroken span) : Unbraced span := by
  intro lexeme hmem hbrace
  have hunbroken := h lexeme hmem
  rw [hbrace] at hunbroken
  cases hunbroken

/-! ## Around the statements of a block -/

section

variable (Adjacent) (inner : Tree)

mutual

/-- Between `before` and `behind`, what the block `inner` holds makes a statement. -/
inductive Around : List Lexeme → List Lexeme → Tree → Prop where
  | onlyBranch {condition conditionTree before behind trueTree loc paren close} :
      Expression condition conditionTree →
      Around before behind trueTree →
      Around (⟨.keyword .if_, loc⟩ :: ⟨.mark .openParen, paren⟩ :: condition ++ ⟨.mark .closeParen, close⟩ :: before)
        behind (.ifThen loc conditionTree trueTree)
  | firstBranch {condition conditionTree before behind trueTree onFalse falseTree loc paren close other} :
      Expression condition conditionTree →
      Around before behind trueTree →
      trueTree.takesElse = false →
      Statement Adjacent onFalse falseTree →
      Around (⟨.keyword .if_, loc⟩ :: ⟨.mark .openParen, paren⟩ :: condition ++ ⟨.mark .closeParen, close⟩ :: before)
        (behind ++ ⟨.keyword .else_, other⟩ :: onFalse) (.ifThenElse loc conditionTree trueTree falseTree)
  | secondBranch {condition conditionTree onTrue trueTree before behind falseTree loc paren close other} :
      Expression condition conditionTree →
      Statement Adjacent onTrue trueTree →
      trueTree.takesElse = false →
      Around before behind falseTree →
      Around
        (⟨.keyword .if_, loc⟩ :: ⟨.mark .openParen, paren⟩ :: condition ++ ⟨.mark .closeParen, close⟩ :: onTrue ++
          ⟨.keyword .else_, other⟩ :: before)
        behind (.ifThenElse loc conditionTree trueTree falseTree)
  | body {init guard update initTree left right updateTree before behind trees loc op opLoc}
      {paren first second close brace closeBrace : Location} :
      Assignment Adjacent init initTree →
      Operand Precedence.ladder guard (.binary opLoc op left right) →
      Assignment Adjacent update updateTree →
      Among before behind (.block brace trees) →
      Around
        (⟨.keyword .for_, loc⟩ :: ⟨.mark .openParen, paren⟩ :: init ++ ⟨.mark .semicolon, first⟩ :: guard ++
          ⟨.mark .semicolon, second⟩ :: update ++ ⟨.mark .closeParen, close⟩ :: ⟨.mark .openBrace, brace⟩ :: before)
        (behind ++ [⟨.mark .closeBrace, closeBrace⟩])
        (.iteration loc initTree (.binary opLoc op left right) updateTree (.block brace trees))
  | block {before behind trees} {brace close : Location} :
      Among before behind (.block brace trees) →
      Around (⟨.mark .openBrace, brace⟩ :: before) (behind ++ [⟨.mark .closeBrace, close⟩]) (.block brace trees)

/-- Between `before` and `behind`, what the block `inner` holds makes all that a block holds. -/
inductive Among : List Lexeme → List Lexeme → Tree → Prop where
  | all : Among [] [] inner
  | member {early earlyTrees before behind tree late lateTrees brace} :
      Statements Adjacent early earlyTrees →
      Around before behind tree →
      Statements Adjacent late lateTrees →
      Among (early ++ before) (behind ++ late) (.block brace (earlyTrees ++ tree :: lateTrees))

end

end

variable {inner : Tree} {before behind : List Lexeme}

mutual

theorem Around.contains : ∀ {before behind tree}, Around Adjacent inner before behind tree → tree.Contains inner
  | _, _, _, .onlyBranch _ around => around.contains.of_child (by simp [Tree.children])
  | _, _, _, .firstBranch _ around _ _ => around.contains.of_child (by simp [Tree.children])
  | _, _, _, .secondBranch _ _ _ around => around.contains.of_child (by simp [Tree.children])
  | _, _, _, .body _ _ _ among => among.contains.of_child (by simp [Tree.children])
  | _, _, _, .block among => among.contains

theorem Among.contains : ∀ {before behind tree}, Among Adjacent inner before behind tree → tree.Contains inner
  | _, _, _, .all => inner.contains_self
  | _, _, _, .member _ around _ => around.contains.of_child (by simp [Tree.children])

end

theorem Around.starts (h : Around Adjacent inner before behind tree) (more : List Lexeme) :
    StartsStatement (before ++ more) := by
  cases h with
  | onlyBranch | firstBranch | secondBranch | body | block => exact ⟨_, _, rfl, rfl⟩

/-- In front of a closing brace there is one way to take lexemes for statements. -/
theorem Statements.unique {body span : List Lexeme} {trees others : List Tree} {close close' : Location}
    {behind' : List Lexeme} (h : Statements Location.Touches body trees) (h' : Statements Location.Touches span others)
    (heq : span ++ ⟨.mark .closeBrace, close'⟩ :: behind' = body ++ ⟨.mark .closeBrace, close⟩ :: behind) :
    others = trees ∧ close' = close ∧ behind' = behind := by
  generalize hlexemes : body ++ ⟨.mark .closeBrace, close⟩ :: behind = lexemes at heq
  have hbudget : (Grammar.statements (16 * lexemes.length + 5)).run ⟨lexemes, .start, []⟩ ≠ .exhausted :=
    (Grammar.statements_within _ ⟨lexemes, .start, []⟩ (Nat.le_refl _)).ne_exhausted
  have hread : ∀ {span trees close behind}, Statements Location.Touches span trees →
      span ++ ⟨.mark .closeBrace, close⟩ :: behind = lexemes →
      (Grammar.statements (16 * lexemes.length + 5)).run ⟨lexemes, .start, []⟩ =
        .done trees ⟨⟨.mark .closeBrace, close⟩ :: behind, .start, []⟩ := by
    intro span trees close behind h heq
    have hsession : Session.unread (Session.unread ⟨behind, .start, []⟩ [⟨.mark .closeBrace, close⟩]) span =
        ⟨lexemes, .start, []⟩ := by
      simp [Session.unread, heq]
    have hreads : (Grammar.statements (16 * lexemes.length + 5)).Reads span
        (Session.unread ⟨behind, .start, []⟩ [⟨.mark .closeBrace, close⟩]) trees := Grammar.statements_complete h
    rw [Rule.Reads, hsession] at hreads
    exact hreads.resolve_left hbudget
  cases (hread h hlexemes).symm.trans (hread h' heq)
  exact ⟨rfl, rfl, rfl⟩

/-! ## Finding the block -/

theorem Among.cons {first : List Lexeme} {trees : List Tree} {brace : Location} (hfirst : Statement Adjacent first tree)
    (h : Among Adjacent inner before behind (.block brace trees)) (hbefore : before ≠ []) :
    Among Adjacent inner (first ++ before) behind (.block brace (tree :: trees)) := by
  cases h with
  | all => exact absurd rfl hbefore
  | member early around late => simpa using Among.member (.more hfirst early) around late

/-- Behind lexemes in which no brace is opened the brace is behind. -/
theorem Unbraced.eq_append {header others rest : List Lexeme} {brace : Location} (h : Unbraced header)
    (heq : header ++ others = before ++ ⟨.mark .openBrace, brace⟩ :: rest) :
    ∃ more, before = header ++ more ∧ others = more ++ ⟨.mark .openBrace, brace⟩ :: rest :=
  append_eq_append_cons_of_not_mem heq fun hmem => h _ hmem rfl

section

variable {content : List Lexeme} {held : List Tree} {brace : Location}

/-- In a block, the brace is that of the block or stands in the block. -/
theorem exists_among_of_braced {body rest more : List Lexeme} {trees : List Tree} {brace' close close' : Location}
    (hcontent : Statements Location.Touches content held) (hbody : Statements Location.Touches body trees)
    (hinside : ∀ {before rest more}, body = before ++ ⟨.mark .openBrace, brace⟩ :: rest →
      rest ++ more = content ++ ⟨.mark .closeBrace, close⟩ :: behind →
      ∃ after, behind = after ++ more ∧ Among Location.Touches (.block brace held)
        (before ++ [⟨.mark .openBrace, brace⟩]) (⟨.mark .closeBrace, close⟩ :: after) (.block brace' trees))
    (hspan : ⟨.mark .openBrace, brace'⟩ :: body ++ [⟨.mark .closeBrace, close'⟩] =
      before ++ ⟨.mark .openBrace, brace⟩ :: rest)
    (hrest : rest ++ more = content ++ ⟨.mark .closeBrace, close⟩ :: behind) :
    ∃ after early late, behind = after ++ more ∧
      before ++ [⟨.mark .openBrace, brace⟩] = ⟨.mark .openBrace, brace'⟩ :: early ∧
      ⟨.mark .closeBrace, close⟩ :: after = late ++ [⟨.mark .closeBrace, close'⟩] ∧
      Among Location.Touches (.block brace held) early late (.block brace' trees) := by
  rw [List.cons_append] at hspan
  cases before with
  | nil =>
    obtain ⟨hbrace, rfl⟩ := List.cons.inj hspan
    cases hbrace
    rw [List.append_assoc] at hrest
    obtain ⟨rfl, rfl, rfl⟩ := hcontent.unique hbody hrest
    exact ⟨[], [], [], rfl, rfl, rfl, .all⟩
  | cons first before =>
    obtain ⟨rfl, hrests⟩ := List.cons.inj hspan
    obtain ⟨inside, hfound, rfl⟩ | ⟨inside, -, hclose⟩ := append_eq_append_cons hrests
    · rw [List.append_assoc] at hrest
      obtain ⟨after, rfl, among⟩ := hinside hfound hrest
      exact ⟨after ++ [⟨.mark .closeBrace, close'⟩], _, _, by simp, rfl, rfl, among⟩
    · -- Behind the statements there is a closing brace only.
      have hmem : (⟨.mark .openBrace, brace⟩ : Lexeme) ∈ [⟨.mark .closeBrace, close'⟩] := by simp [hclose]
      simp at hmem

theorem selection_unbraced {condition : List Lexeme} {conditionTree : Tree} {loc paren close : Location}
    (h : Expression condition conditionTree) :
    Unbraced (⟨.keyword .if_, loc⟩ :: ⟨.mark .openParen, paren⟩ :: condition ++ [⟨.mark .closeParen, close⟩]) :=
  .append (.cons (by simp) (.cons (by simp) h.unbroken.unbraced)) (.cons (by simp) unbraced_nil)

theorem else_unbraced (loc : Location) : Unbraced [⟨.keyword .else_, loc⟩] :=
  .cons (by simp) unbraced_nil

theorem iteration_unbraced {init guard update : List Lexeme} {initTree guardTree updateTree : Tree}
    {loc paren first second close : Location} (hinit : Assignment Adjacent init initTree)
    (hguard : Operand Precedence.ladder guard guardTree) (hupdate : Assignment Adjacent update updateTree) :
    Unbraced (⟨.keyword .for_, loc⟩ :: ⟨.mark .openParen, paren⟩ :: init ++ ⟨.mark .semicolon, first⟩ :: guard ++
      ⟨.mark .semicolon, second⟩ :: update ++ [⟨.mark .closeParen, close⟩]) :=
  .append (.append (.append (.cons (by simp) (.cons (by simp) hinit.unbroken.unbraced))
    (.cons (by simp) hguard.unbroken.unbraced)) (.cons (by simp) hupdate.unbroken.unbraced))
    (.cons (by simp) unbraced_nil)

mutual

/-- A statement in which the block is opened stands around the block. -/
theorem Statement.around : ∀ {span tree}, Statement Location.Touches span tree → ∀ {before rest more close behind},
    Statements Location.Touches content held → span = before ++ ⟨.mark .openBrace, brace⟩ :: rest →
    rest ++ more = content ++ ⟨.mark .closeBrace, close⟩ :: behind →
    ∃ after, behind = after ++ more ∧ Around Location.Touches (.block brace held)
      (before ++ [⟨.mark .openBrace, brace⟩]) (⟨.mark .closeBrace, close⟩ :: after) tree
  | _, _, .assignment phrase, _, _, _, _, _, _, hspan, _ => by
    obtain ⟨inside, -, hend⟩ := phrase.unbroken.unbraced.eq_append hspan
    cases inside <;> simp at hend
  | _, _, .ifThen conditionPhrase truePhrase, _, _, _, _, _, hcontent, hspan, hrest => by
    obtain ⟨inside, rfl, htrue⟩ := (selection_unbraced conditionPhrase).eq_append (by simpa using hspan)
    obtain ⟨after, rfl, around⟩ := truePhrase.around hcontent htrue hrest
    exact ⟨after, rfl, by simpa using Around.onlyBranch conditionPhrase around⟩
  | _, _, .ifThenElse conditionPhrase truePhrase htakes falsePhrase, _, _, _, _, _, hcontent, hspan, hrest => by
    obtain ⟨inside, rfl, hbranches⟩ := (selection_unbraced conditionPhrase).eq_append (by simpa using hspan)
    obtain ⟨first, htrue, rfl⟩ | ⟨second, rfl, helse⟩ := append_eq_append_cons hbranches
    · rw [List.append_assoc] at hrest
      obtain ⟨after, rfl, around⟩ := truePhrase.around hcontent htrue hrest
      exact ⟨_, (List.append_assoc _ _ _).symm,
        by simpa using Around.firstBranch conditionPhrase around htakes falsePhrase⟩
    · obtain ⟨inside, rfl, hfalse⟩ := (else_unbraced _).eq_append helse
      obtain ⟨after, rfl, around⟩ := falsePhrase.around hcontent hfalse hrest
      exact ⟨after, rfl, by simpa using Around.secondBranch conditionPhrase truePhrase htakes around⟩
  | _, _, .iteration initPhrase guardPhrase updatePhrase bodyPhrase, _, _, _, _, _, hcontent, hspan, hrest => by
    obtain ⟨inside, rfl, hbraced⟩ := (iteration_unbraced initPhrase guardPhrase updatePhrase).eq_append
      (by simpa using hspan)
    obtain ⟨after, early, late, rfl, hearly, hlate, among⟩ := exists_among_of_braced hcontent bodyPhrase
      (fun hbody hinside => bodyPhrase.among hcontent hbody hinside _) hbraced hrest
    refine ⟨after, rfl, ?_⟩
    rw [List.append_assoc, hearly, hlate]
    simpa using Around.body initPhrase guardPhrase updatePhrase among
  | _, _, .block phrase, _, _, _, _, _, hcontent, hspan, hrest => by
    obtain ⟨after, early, late, rfl, hearly, hlate, among⟩ := exists_among_of_braced hcontent phrase
      (fun hbody hinside => phrase.among hcontent hbody hinside _) hspan hrest
    refine ⟨after, rfl, ?_⟩
    rw [hearly, hlate]
    exact .block among

theorem Statements.among : ∀ {span trees}, Statements Location.Touches span trees → ∀ {before rest more close behind},
    Statements Location.Touches content held → span = before ++ ⟨.mark .openBrace, brace⟩ :: rest →
    rest ++ more = content ++ ⟨.mark .closeBrace, close⟩ :: behind → ∀ loc,
    ∃ after, behind = after ++ more ∧ Among Location.Touches (.block brace held)
      (before ++ [⟨.mark .openBrace, brace⟩]) (⟨.mark .closeBrace, close⟩ :: after) (.block loc trees)
  | _, _, .none, before, _, _, _, _, _, hspan, _, _ => by cases before <;> cases hspan
  | _, _, .more phrase others, _, _, _, _, _, hcontent, hspan, hrest, loc => by
    obtain ⟨inside, hfirst, rfl⟩ | ⟨inside, rfl, hothers⟩ := append_eq_append_cons hspan
    · rw [List.append_assoc] at hrest
      obtain ⟨after, rfl, around⟩ := phrase.around hcontent hfirst hrest
      exact ⟨_, (List.append_assoc _ _ _).symm, by simpa using Among.member .none around others⟩
    · obtain ⟨after, rfl, among⟩ := others.among hcontent hothers hrest loc
      exact ⟨after, rfl, by simpa using among.cons phrase (by simp)⟩

end

end

end Phrase

end RoutineSpec
