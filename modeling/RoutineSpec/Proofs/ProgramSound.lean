import RoutineSpec.Proofs.Advance
import RoutineSpec.Proofs.ExpressionSound

/-! # Programs that are read are phrases

Where a rule for statements, declarations or specifications is done, its tree stands for a phrase. If nothing
has been reported, the phrase is what has been read. Otherwise it is what the repairs leave: malformed arguments
and statements are taken out, and two braces stand for a malformed body. So no repair makes a tree that the
grammar does not make.
-/

namespace RoutineSpec

namespace Session

theorem diagnostics_report_ne_nil (session : Session) (error : SyntaxError) :
    (session.report error).diagnostics ≠ [] := by
  unfold report
  split
  · next just =>
    intro hnil
    simp [justReportedAt, hnil] at just
  · simp [record]

/-- Coming from `session` to `next` amounts to reading `span`. -/
structure ReadsAs (session next : Session) (span : List Lexeme) : Prop where
  advances : session.AdvancesTo next
  /-- The only lexemes that a repair puts in are braces. -/
  source : ∀ lexeme ∈ span, lexeme ∈ session.rest ∨
    lexeme.terminal = .mark .openBrace ∨ lexeme.terminal = .mark .closeBrace
  /-- Without a report nothing has been repaired. -/
  clean : next.diagnostics = [] → session = next.unread span

namespace ReadsAs

variable {session mid next : Session} {span more : List Lexeme}

theorem refl (session : Session) : session.ReadsAs session [] where
  advances := .refl session
  source := by simp
  clean _ := rfl

/-- What is left without reports later on was left without reports before. -/
theorem clean_of_advances (h : session.ReadsAs mid span) (h' : mid.AdvancesTo next)
    (hclean : next.diagnostics = []) : session = mid.unread span := by
  have hmid : mid.diagnostics = [] := List.prefix_nil.1 (hclean ▸ h'.diagnostics)
  exact h.clean hmid

theorem trans (h : session.ReadsAs mid span) (h' : mid.ReadsAs next more) :
    session.ReadsAs next (span ++ more) where
  advances := h.advances.trans h'.advances
  source := by
    intro lexeme hmem
    rcases List.mem_append.1 hmem with hspan | hmore
    · exact h.source lexeme hspan
    · exact (h'.source lexeme hmore).imp (fun hrest => h.advances.rest.subset hrest) id
  clean := by
    intro hclean
    rw [h.clean_of_advances h'.advances hclean, h'.clean hclean, ← unread_append]

theorem unread (h : session.ReadsAs next span) (before : List Lexeme) :
    (session.unread before).ReadsAs next (before ++ span) := by
  have hbefore : (session.unread before).ReadsAs session before :=
    ⟨.unread session before, fun lexeme hmem => .inl (List.mem_append_left _ hmem), fun _ => rfl⟩
  exact hbefore.trans h

/-- What follows a report is repaired, whatever it amounts to. -/
theorem reported (h : session.AdvancesTo next) (hreport : next.diagnostics ≠ [])
    (hspan : ∀ lexeme ∈ span, lexeme.terminal = .mark .openBrace ∨ lexeme.terminal = .mark .closeBrace) :
    session.ReadsAs next span where
  advances := h
  source lexeme hmem := .inr (hspan lexeme hmem)
  clean hclean := absurd hclean hreport

/-- Once something has been reported, a part of what has been read will do. -/
theorem part (h : session.ReadsAs next span) (hreport : next.diagnostics ≠ [])
    (hpart : ∀ lexeme ∈ more, lexeme ∈ span) : session.ReadsAs next more where
  advances := h.advances
  source lexeme hmem := h.source lexeme (hpart lexeme hmem)
  clean hclean := absurd hclean hreport

end ReadsAs

end Session

theorem Terminal.baseType?_eq_some_iff {terminal : Terminal} {base : BaseType} :
    terminal.baseType? = some base ↔ terminal = .keyword base.keyword := by
  cases terminal with
  | keyword word => simp [baseType?, BaseType.ofKeyword?_eq_some_iff]
  | identifier | integer | mark => simp [baseType?]

namespace Phrase

theorem Suffixed.ne_nil {span : List Lexeme} {tree : Tree} (h : Suffixed span tree) : span ≠ [] := by
  cases h with
  | primary h => cases h <;> simp
  | index | call => simp

theorem Assignment.takesElse {Adjacent : Location → Location → Prop} {span : List Lexeme} {tree : Tree}
    (h : Assignment Adjacent span tree) : tree.takesElse = false := by
  cases h <;> rfl

end Phrase

namespace Grammar

open Rule Phrase

theorem incrementOp?_eq_some {terminal : Terminal} {op : BinaryOp} (h : incrementOp? terminal = some op) :
    terminal = .mark op.mark ∧ (op = .add ∨ op = .sub) := by
  unfold incrementOp? at h
  split at h
  · cases h; exact ⟨rfl, .inl rfl⟩
  · cases h; exact ⟨rfl, .inr rfl⟩
  · cases h

theorem increment?_sound {lexemes : List Lexeme} {tree : Tree} (h : increment? lexemes = some tree) :
    ∃ span, lexemes = span ++ lexemes.drop 3 ∧ Assignment Location.Touches span tree := by
  unfold increment? at h
  split at h
  · next name loc first second behind more =>
    split at h
    · next together =>
      obtain ⟨hsame, htouch, -⟩ := together
      obtain ⟨op, hop, rfl⟩ := Option.map_eq_some_iff.1 h
      obtain ⟨hfirst, hsign⟩ := incrementOp?_eq_some hop
      obtain ⟨terminal, firstLoc⟩ := first
      obtain ⟨terminal', secondLoc⟩ := second
      cases hfirst
      cases hsame
      exact ⟨_, rfl, .increment hsign htouch⟩
    · cases h
  · cases h

theorem assignment_sound {n : Nat} {session next : Session} {tree : Tree}
    (h : (assignment n).run session = .done tree next) :
    ∃ span, session = next.unread span ∧ Assignment Location.Touches span tree := by
  obtain ⟨found, mid, hincrement, h₁⟩ := done_of_bind h
  rw [run_increment] at hincrement
  cases hfound : increment? session.rest with
  | some short =>
    rw [hfound] at hincrement
    cases hincrement
    obtain ⟨rfl, rfl⟩ := done_of_pure h₁
    obtain ⟨span, hspan, phrase⟩ := increment?_sound hfound
    exact ⟨span, by simp [Session.unread, ← hspan], phrase⟩
  | none =>
    rw [hfound] at hincrement
    cases hincrement
    obtain ⟨target, mid, htarget, h₂⟩ := done_of_bind (done_of_look h₁)
    obtain ⟨targetSpan, rfl, targetPhrase⟩ := suffixed_sound htarget
    obtain ⟨equal, mid, rfl, h₃⟩ := done_of_expect h₂
    obtain ⟨value, mid, hvalue, h₄⟩ := done_of_bind h₃
    obtain ⟨valueSpan, rfl, valuePhrase⟩ := expression_sound hvalue
    obtain ⟨rfl, rfl⟩ := done_of_pure h₄
    cases targetSpan with
    | nil => exact absurd rfl targetPhrase.ne_nil
    | cons first others =>
      exact ⟨first :: others ++ ⟨_, equal⟩ :: valueSpan, by simp [Session.unread],
        .equation targetPhrase valuePhrase⟩

/-- An `else` behind a statement has been left because no `if` at the end of the statement takes it. -/
def ElseSettled (tree : Tree) (next : Session) : Prop :=
  tree.takesElse = true → ∀ lexeme ∈ next.rest.head?, lexeme.terminal ≠ .keyword .else_

theorem elseSettled_of_takesElse {tree : Tree} {next : Session} (h : tree.takesElse = false) :
    ElseSettled tree next := by
  intro htakes
  rw [h] at htakes
  cases htakes

mutual

theorem statement_sound : ∀ {n session tree next}, (statement n).run session = .done tree next →
    ∃ span, session.ReadsAs next span ∧ Statement Location.Touches span tree ∧ ElseSettled tree next
  | 0, _, _, _, h => by rw [statement] at h; cases h
  | n + 1, session, tree, next, h => by
    rw [statement] at h
    obtain ⟨-, h₁⟩ | ⟨loc, mid, rfl, h₁⟩ := done_of_accept h
    · obtain ⟨-, h₂⟩ | ⟨loc, mid, rfl, h₂⟩ := done_of_accept h₁
      · obtain ⟨-, h₃⟩ | ⟨loc, mid, rfl, h₃⟩ := done_of_accept h₂
        · obtain ⟨found, mid, hassignment, h₄⟩ := done_of_bind h₃
          obtain ⟨span, rfl, phrase⟩ := assignment_sound hassignment
          obtain ⟨semicolon, mid, rfl, h₅⟩ := done_of_expect h₄
          obtain ⟨rfl, rfl⟩ := done_of_pure h₅
          exact ⟨span ++ [⟨_, semicolon⟩], by simpa using ((Session.ReadsAs.refl mid).unread _).unread span,
            .assignment phrase, elseSettled_of_takesElse phrase.takesElse⟩
        · obtain ⟨trees, span, close, rfl, hreads, phrase⟩ := block_sound h₃
          exact ⟨_, hreads.unread _, .block phrase, elseSettled_of_takesElse rfl⟩
      · obtain ⟨span, hreads, phrase, hsettled⟩ := iteration_sound h₂
        exact ⟨_, hreads.unread _, phrase, hsettled⟩
    · obtain ⟨span, hreads, phrase, hsettled⟩ := selection_sound h₁
      exact ⟨_, hreads.unread _, phrase, hsettled⟩

theorem selection_sound : ∀ {n loc session tree next}, (selection n loc).run session = .done tree next →
    ∃ span, session.ReadsAs next span ∧
      Statement Location.Touches (⟨.keyword .if_, loc⟩ :: span) tree ∧ ElseSettled tree next
  | 0, _, _, _, _, h => by rw [selection] at h; cases h
  | n + 1, loc, session, tree, next, h => by
    rw [selection] at h
    obtain ⟨paren, mid, rfl, h₁⟩ := done_of_expect h
    obtain ⟨condition, mid, hcondition, h₂⟩ := done_of_bind h₁
    obtain ⟨conditionSpan, rfl, conditionPhrase⟩ := expression_sound hcondition
    obtain ⟨close, mid, rfl, h₃⟩ := done_of_expect h₂
    obtain ⟨onTrue, behind, htrue, h₄⟩ := done_of_bind h₃
    obtain ⟨trueSpan, trueReads, truePhrase, trueSettled⟩ := statement_sound htrue
    have upToTrue := ((trueReads.unread [⟨.mark .closeParen, close⟩]).unread conditionSpan).unread
      [⟨.mark .openParen, paren⟩]
    obtain ⟨habsent, h₅⟩ | ⟨other, last, rfl, h₅⟩ := done_of_accept h₄
    · obtain ⟨rfl, rfl⟩ := done_of_pure h₅
      exact ⟨_, upToTrue, by simpa using Statement.ifThen conditionPhrase truePhrase, fun _ => habsent⟩
    · obtain ⟨onFalse, final, hfalse, h₆⟩ := done_of_bind h₅
      obtain ⟨falseSpan, falseReads, falsePhrase, falseSettled⟩ := statement_sound hfalse
      obtain ⟨rfl, rfl⟩ := done_of_pure h₆
      -- The `else` was there to be taken, so the first branch has no `if` that takes it.
      have htakes : onTrue.takesElse = false := by
        cases htakes : onTrue.takesElse with
        | false => rfl
        | true => exact absurd rfl (trueSettled htakes ⟨.keyword .else_, other⟩ rfl)
      exact ⟨_, upToTrue.trans (falseReads.unread [⟨.keyword .else_, other⟩]),
        by simpa using Statement.ifThenElse conditionPhrase truePhrase htakes falsePhrase, falseSettled⟩

theorem iteration_sound : ∀ {n loc session tree next}, (iteration n loc).run session = .done tree next →
    ∃ span, session.ReadsAs next span ∧
      Statement Location.Touches (⟨.keyword .for_, loc⟩ :: span) tree ∧ ElseSettled tree next
  | 0, _, _, _, _, h => by rw [iteration] at h; cases h
  | n + 1, loc, session, tree, next, h => by
    rw [iteration] at h
    obtain ⟨paren, mid, rfl, h₁⟩ := done_of_expect h
    obtain ⟨init, mid, hinit, h₂⟩ := done_of_bind h₁
    obtain ⟨initSpan, rfl, initPhrase⟩ := assignment_sound hinit
    obtain ⟨first, mid, rfl, h₃⟩ := done_of_expect h₂
    obtain ⟨test, mid, htest, h₄⟩ := done_of_bind h₃
    obtain ⟨testSpan, opLoc, op, left, right, rfl, rfl, testPhrase⟩ := guard_sound htest
    obtain ⟨second, mid, rfl, h₅⟩ := done_of_expect h₄
    obtain ⟨update, mid, hupdate, h₆⟩ := done_of_bind h₅
    obtain ⟨updateSpan, rfl, updatePhrase⟩ := assignment_sound hupdate
    obtain ⟨close, mid, rfl, h₇⟩ := done_of_expect h₆
    obtain ⟨-, h₈⟩ | ⟨brace, mid, rfl, h₈⟩ := done_of_accept h₇
    · cases h₈
    · obtain ⟨body, behind, hbody, h₉⟩ := done_of_bind h₈
      obtain ⟨trees, bodySpan, closeBrace, rfl, bodyReads, bodyPhrase⟩ := block_sound hbody
      obtain ⟨rfl, rfl⟩ := done_of_pure h₉
      have header := (((bodyReads.unread [⟨.mark .openBrace, brace⟩]).unread
        [⟨.mark .closeParen, close⟩]).unread updateSpan).unread [⟨.mark .semicolon, second⟩]
      have whole := ((header.unread testSpan).unread [⟨.mark .semicolon, first⟩]).unread initSpan
      exact ⟨_, whole.unread [⟨.mark .openParen, paren⟩],
        by simpa using Statement.iteration initPhrase testPhrase updatePhrase bodyPhrase,
        elseSettled_of_takesElse rfl⟩

theorem block_sound : ∀ {n loc session tree next}, (block n loc).run session = .done tree next →
    ∃ trees span close, tree = .block loc trees ∧
      session.ReadsAs next (span ++ [⟨.mark .closeBrace, close⟩]) ∧
      Statements Location.Touches span trees
  | 0, _, _, _, _, h => by rw [block] at h; cases h
  | n + 1, loc, session, tree, next, h => by
    rw [block] at h
    obtain ⟨trees, mid, htrees, h₁⟩ := done_of_bind h
    obtain ⟨span, hreads, phrase⟩ := statements_sound htrees
    obtain ⟨close, behind, rfl, h₂⟩ := done_of_expect h₁
    obtain ⟨rfl, rfl⟩ := done_of_pure h₂
    exact ⟨trees, span, close, rfl, hreads.trans ((Session.ReadsAs.refl behind).unread _), phrase⟩

theorem statements_sound : ∀ {n session trees next}, (statements n).run session = .done trees next →
    ∃ span, session.ReadsAs next span ∧ Statements Location.Touches span trees
  | 0, _, _, _, h => by rw [statements] at h; cases h
  | n + 1, session, trees, next, h => by
    rw [statements] at h
    have h₁ := done_of_look h
    split at h₁
    · obtain ⟨rfl, rfl⟩ := done_of_pure h₁
      exact ⟨[], .refl session, .none⟩
    · obtain ⟨first, mid, hfirst, h₂⟩ := done_of_bind h₁
      obtain ⟨others, behind, hothers, h₃⟩ := done_of_bind h₂
      obtain ⟨rfl, rfl⟩ := done_of_pure h₃
      obtain ⟨otherSpan, otherReads, otherPhrase⟩ := statements_sound hothers
      obtain ⟨rfl, hreads⟩ | ⟨tree, span, rfl, hreads, phrase⟩ := statementIfSound_sound hfirst
      · exact ⟨otherSpan, hreads.trans otherReads, otherPhrase⟩
      · exact ⟨span ++ otherSpan, hreads.trans otherReads, .more phrase otherPhrase⟩

/-- Either a malformed statement is left out, or the statement is read. -/
theorem statementIfSound_sound : ∀ {n session trees next},
    (statementIfSound n).run session = .done trees next →
    trees = [] ∧ session.ReadsAs next [] ∨
      ∃ tree span, trees = [tree] ∧ session.ReadsAs next span ∧ Statement Location.Touches span tree
  | 0, _, _, _, h => by rw [statementIfSound] at h; cases h
  | n + 1, session, trees, next, h => by
    have hadvances := (statementIfSound_advances (n + 1)).done h
    rw [statementIfSound] at h
    obtain ⟨tree, mid, hstatement, h₁⟩ | ⟨error, mid, hstatement, h₁⟩ := done_of_attempt (done_of_look h)
    · obtain ⟨rfl, rfl⟩ := done_of_pure h₁
      obtain ⟨span, hreads, phrase, -⟩ := statement_sound hstatement
      exact .inr ⟨tree, span, rfl, hreads, phrase⟩
    · cases h₁
      exact .inl ⟨rfl, .reported hadvances (mid.diagnostics_report_ne_nil error) (by simp)⟩

end

theorem dataType_sound {session next : Session} {type : DataType}
    (h : dataType.run session = .done type next) :
    ∃ span, session = next.unread span ∧ DeclaredType span type := by
  obtain ⟨-, h₁⟩ | ⟨base, terminal, loc, mid, hbase, rfl, h₁⟩ := done_of_take? h
  · cases h₁
  · cases Terminal.baseType?_eq_some_iff.1 hbase
    obtain ⟨-, h₂⟩ | ⟨star, mid, rfl, h₂⟩ := done_of_accept h₁
    · obtain ⟨rfl, rfl⟩ := done_of_pure h₂
      exact ⟨_, rfl, .base⟩
    · obtain ⟨rfl, rfl⟩ := done_of_pure h₂
      exact ⟨[⟨_, loc⟩, ⟨_, star⟩], rfl, .pointer⟩

theorem argument_sound {session next : Session} {tree : Tree}
    (h : argument.run session = .done tree next) :
    ∃ span, session = next.unread span ∧ Argument span tree := by
  obtain ⟨type, mid, htype, h₁⟩ := done_of_bind (done_of_look h)
  obtain ⟨span, rfl, phrase⟩ := dataType_sound htype
  obtain ⟨name, loc, mid, rfl, h₂⟩ := done_of_identifier h₁
  obtain ⟨rfl, rfl⟩ := done_of_pure h₂
  cases span with
  | nil => cases phrase
  | cons first star =>
    exact ⟨first :: star ++ [⟨.identifier name, loc⟩], by simp [Session.unread], .declaration phrase⟩

/-- Either a malformed argument is reported and left out, or the argument is read. -/
theorem argumentIfSound_sound {session next : Session} {trees : List Tree}
    (h : argumentIfSound.run session = .done trees next) :
    (trees = [] ∧ session.ReadsAs next [] ∧ next.diagnostics ≠ []) ∨
      ∃ tree span, trees = [tree] ∧ session = next.unread span ∧ Argument span tree := by
  have hadvances := argumentIfSound_advances.done h
  obtain ⟨tree, mid, hargument, h₁⟩ | ⟨error, mid, hargument, h₁⟩ := done_of_attempt h
  · obtain ⟨rfl, rfl⟩ := done_of_pure h₁
    obtain ⟨span, rfl, phrase⟩ := argument_sound hargument
    exact .inr ⟨tree, span, rfl, rfl, phrase⟩
  · cases h₁
    have hreport := mid.diagnostics_report_ne_nil error
    exact .inl ⟨rfl, .reported hadvances hreport (by simp), hreport⟩

theorem arguments_sound : ∀ {n session trees next}, (arguments n).run session = .done trees next →
    ∃ span, session.ReadsAs next span ∧ AnyListed Argument span trees ∧
      (trees = [] → next.diagnostics ≠ [])
  | 0, _, _, _, h => by rw [arguments] at h; cases h
  | n + 1, session, trees, next, h => by
    rw [arguments] at h
    obtain ⟨first, mid, hfirst, h₁⟩ := done_of_bind h
    obtain ⟨rfl, hreads, hreport⟩ | ⟨tree, span, rfl, rfl, phrase⟩ := argumentIfSound_sound hfirst
    · obtain ⟨-, h₂⟩ | ⟨comma, mid, rfl, h₂⟩ := done_of_accept h₁
      · obtain ⟨rfl, rfl⟩ := done_of_pure h₂
        exact ⟨[], hreads, .none, fun _ => hreport⟩
      · obtain ⟨others, behind, hothers, h₃⟩ := done_of_bind h₂
        obtain ⟨otherSpan, otherReads, otherPhrase, -⟩ := arguments_sound hothers
        obtain ⟨rfl, rfl⟩ := done_of_pure h₃
        have hlate : behind.diagnostics ≠ [] := fun hnil =>
          hreport (List.prefix_nil.1 (hnil ▸ otherReads.advances.diagnostics))
        -- With the argument goes the comma behind it.
        have hwhole := hreads.trans (otherReads.unread [⟨.mark .comma, comma⟩])
        exact ⟨otherSpan, hwhole.part hlate fun _ hmem => by simp [hmem], otherPhrase, fun _ => hlate⟩
    · obtain ⟨-, h₂⟩ | ⟨comma, mid, rfl, h₂⟩ := done_of_accept h₁
      · obtain ⟨rfl, rfl⟩ := done_of_pure h₂
        exact ⟨span, by simpa using (Session.ReadsAs.refl mid).unread span, .some (.last phrase), by simp⟩
      · obtain ⟨others, behind, hothers, h₃⟩ := done_of_bind h₂
        obtain ⟨otherSpan, otherReads, otherPhrase, hreport⟩ := arguments_sound hothers
        obtain ⟨rfl, rfl⟩ := done_of_pure h₃
        have hwhole := (otherReads.unread [⟨.mark .comma, comma⟩]).unread span
        cases otherPhrase with
        | none =>
          exact ⟨span, hwhole.part (hreport rfl) fun _ hmem => by simp [hmem], .some (.last phrase), by simp⟩
        | some otherPhrase => exact ⟨_, hwhole, .some (.more phrase otherPhrase), by simp⟩

theorem argumentList_sound {n : Nat} {session next : Session} {trees : List Tree}
    (h : (argumentList n).run session = .done trees next) :
    ∃ span, session.ReadsAs next span ∧ AnyListed Argument span trees := by
  have h₁ := done_of_look h
  split at h₁
  · obtain ⟨rfl, rfl⟩ := done_of_pure h₁
    exact ⟨[], .refl session, .none⟩
  · obtain ⟨span, hreads, phrase, -⟩ := arguments_sound h₁
    exact ⟨span, hreads, phrase⟩

theorem identifiers_sound : ∀ {n session trees next}, (identifiers n).run session = .done trees next →
    ∃ span, session = next.unread span ∧ Listed Returned span trees
  | 0, _, _, _, h => by rw [identifiers] at h; cases h
  | n + 1, session, trees, next, h => by
    rw [identifiers] at h
    obtain ⟨name, loc, mid, rfl, h₁⟩ := done_of_identifier h
    obtain ⟨-, h₂⟩ | ⟨comma, mid, rfl, h₂⟩ := done_of_accept h₁
    · obtain ⟨rfl, rfl⟩ := done_of_pure h₂
      exact ⟨_, rfl, .last .name⟩
    · obtain ⟨others, mid, hothers, h₃⟩ := done_of_bind h₂
      obtain ⟨span, rfl, phrase⟩ := identifiers_sound hothers
      obtain ⟨rfl, rfl⟩ := done_of_pure h₃
      exact ⟨[⟨.identifier name, loc⟩] ++ ⟨.mark .comma, comma⟩ :: span, by simp [Session.unread],
        .more .name phrase⟩

theorem identifierList_sound {n : Nat} {session next : Session} {trees : List Tree}
    (h : (identifierList n).run session = .done trees next) :
    ∃ span, session = next.unread span ∧ AnyListed Returned span trees := by
  have h₁ := done_of_look h
  split at h₁
  · obtain ⟨rfl, rfl⟩ := done_of_pure h₁
    exact ⟨[], rfl, .none⟩
  · obtain ⟨span, hspan, phrase⟩ := identifiers_sound h₁
    exact ⟨span, hspan, .some phrase⟩

theorem returnsClause_sound {n : Nat} {session next : Session} {trees : List Tree}
    (h : (returnsClause n).run session = .done trees next) :
    ∃ returns paren span close, AnyListed Returned span trees ∧ session = next.unread
      (⟨.keyword .returns, returns⟩ :: ⟨.mark .openParen, paren⟩ :: span ++
        [⟨.mark .closeParen, close⟩]) := by
  obtain ⟨returns, mid, rfl, h₁⟩ := done_of_expect h
  obtain ⟨paren, mid, rfl, h₂⟩ := done_of_expect h₁
  obtain ⟨names, mid, hnames, h₃⟩ := done_of_bind h₂
  obtain ⟨span, rfl, phrase⟩ := identifierList_sound hnames
  obtain ⟨close, mid, rfl, h₄⟩ := done_of_expect h₃
  obtain ⟨rfl, rfl⟩ := done_of_pure h₄
  exact ⟨returns, paren, span, close, phrase, by simp [Session.unread]⟩

theorem localsClause_sound {n : Nat} {session next : Session} {trees : List Tree}
    (h : (localsClause n).run session = .done trees next) :
    ∃ locals paren span close, AnyListed Argument span trees ∧ session.ReadsAs next
      (⟨.keyword .locals, locals⟩ :: ⟨.mark .openParen, paren⟩ :: span ++
        [⟨.mark .closeParen, close⟩]) := by
  obtain ⟨locals, mid, rfl, h₁⟩ := done_of_expect h
  obtain ⟨paren, mid, rfl, h₂⟩ := done_of_expect h₁
  obtain ⟨args, mid, hargs, h₃⟩ := done_of_bind h₂
  obtain ⟨span, hreads, phrase⟩ := argumentList_sound hargs
  obtain ⟨close, behind, rfl, h₄⟩ := done_of_expect h₃
  obtain ⟨rfl, rfl⟩ := done_of_pure h₄
  have hclosed := hreads.trans ((Session.ReadsAs.refl behind).unread [⟨.mark .closeParen, close⟩])
  exact ⟨locals, paren, span, close, phrase, (hclosed.unread [_]).unread [_]⟩

theorem joinBody_sound {n : Nat} {session next : Session} {tree : Tree}
    (h : (joinBody n).run session = .done tree next) :
    ∃ span, session.ReadsAs next span ∧ Statement Location.Touches span tree := by
  have hadvances := (joinBody_advances n).done h
  obtain ⟨body, mid, hbody, h₁⟩ | ⟨error, mid, hbody, h₁⟩ := done_of_attempt (done_of_look h)
  · obtain ⟨rfl, rfl⟩ := done_of_pure h₁
    obtain ⟨span, hreads, phrase, -⟩ := statement_sound hbody
    exact ⟨span, hreads, phrase⟩
  · cases h₁
    let loc := session.next.loc
    exact ⟨[⟨.mark .openBrace, loc⟩, ⟨.mark .closeBrace, loc⟩],
      .reported hadvances (mid.diagnostics_report_ne_nil error) (by simp), .block .none⟩

/-- The returned names, the locals and the body, read one after the other. -/
theorem clauses_sound {n : Nat} {session mid behind next : Session} {returned locals : List Tree} {body : Tree}
    {bodySpan : List Lexeme} (hreturned : (returnsClause n).run session = .done returned mid)
    (hlocals : (localsClause n).run mid = .done locals behind) (bodyReads : behind.ReadsAs next bodySpan)
    (bodyPhrase : Statement Location.Touches bodySpan body) :
    ∃ span, session.ReadsAs next span ∧ Clauses Location.Touches span returned locals body := by
  obtain ⟨returns, paren, returnedSpan, close, returnedPhrase, rfl⟩ := returnsClause_sound hreturned
  obtain ⟨localsLoc, paren', localSpan, close', localPhrase, localReads⟩ := localsClause_sound hlocals
  have whole := (localReads.trans bodyReads).unread
    (⟨.keyword .returns, returns⟩ :: ⟨.mark .openParen, paren⟩ :: returnedSpan ++
      [⟨.mark .closeParen, close⟩])
  exact ⟨_, whole, by simpa using Clauses.clauses returnedPhrase localPhrase bodyPhrase⟩

theorem joinSpec_sound {n : Nat} {session next : Session} {tree : Tree}
    (h : (joinSpec n).run session = .done tree next) :
    ∃ span, session.ReadsAs next span ∧ JoinSpec Location.Touches span tree ∧
      tree.loc = session.next.loc := by
  obtain ⟨loc, mid, rfl, h₁⟩ := done_of_expect (done_of_look h)
  obtain ⟨paren, mid, rfl, h₂⟩ := done_of_expect h₁
  obtain ⟨left, mid₁, hleft, h₃⟩ := done_of_bind h₂
  obtain ⟨leftSpan, leftReads, leftPhrase⟩ := argumentList_sound hleft
  obtain ⟨pipe, mid₂, rfl, h₄⟩ := done_of_expect h₃
  obtain ⟨right, mid₃, hright, h₅⟩ := done_of_bind h₄
  obtain ⟨rightSpan, rightReads, rightPhrase⟩ := argumentList_sound hright
  obtain ⟨close, mid₄, rfl, h₆⟩ := done_of_expect h₅
  obtain ⟨returned, mid₅, hreturned, h₇⟩ := done_of_bind h₆
  obtain ⟨locals, mid₆, hlocals, h₈⟩ := done_of_bind h₇
  obtain ⟨body, mid₇, hbody, h₉⟩ := done_of_bind h₈
  obtain ⟨rfl, rfl⟩ := done_of_pure h₉
  obtain ⟨bodySpan, bodyReads, bodyPhrase⟩ := joinBody_sound hbody
  obtain ⟨clauseSpan, clauseReads, clausePhrase⟩ := clauses_sound hreturned hlocals bodyReads bodyPhrase
  have behindRight := rightReads.trans (clauseReads.unread [⟨.mark .closeParen, close⟩])
  have behindLeft := leftReads.trans (behindRight.unread [⟨.mark .pipe, pipe⟩])
  have whole := (behindLeft.unread [⟨.mark .openParen, paren⟩]).unread [⟨.keyword .join, loc⟩]
  exact ⟨_, whole, by simpa [Token.loc] using JoinSpec.join leftPhrase rightPhrase clausePhrase, rfl⟩

theorem sequentialSpec_sound {n : Nat} {session next : Session} {tree : Tree}
    (h : (sequentialSpec n).run session = .done tree next) :
    ∃ span, session.ReadsAs next span ∧ SequentialSpec Location.Touches span tree := by
  obtain ⟨loc, mid, rfl, h₁⟩ := done_of_expect (done_of_look h)
  obtain ⟨paren, mid, rfl, h₂⟩ := done_of_expect h₁
  obtain ⟨args, mid₁, hargs, h₃⟩ := done_of_bind h₂
  obtain ⟨argSpan, argReads, argPhrase⟩ := argumentList_sound hargs
  obtain ⟨close, mid₂, rfl, h₄⟩ := done_of_expect h₃
  obtain ⟨returned, mid₃, hreturned, h₅⟩ := done_of_bind h₄
  obtain ⟨locals, mid₄, hlocals, h₆⟩ := done_of_bind h₅
  obtain ⟨body, mid₅, hbody, h₇⟩ := done_of_bind h₆
  obtain ⟨rfl, rfl⟩ := done_of_pure h₇
  obtain ⟨bodySpan, bodyReads, bodyPhrase, -⟩ := statement_sound hbody
  obtain ⟨clauseSpan, clauseReads, clausePhrase⟩ := clauses_sound hreturned hlocals bodyReads bodyPhrase
  have behindArgs := argReads.trans (clauseReads.unread [⟨.mark .closeParen, close⟩])
  have whole := (behindArgs.unread [⟨.mark .openParen, paren⟩]).unread [⟨.keyword .sequential, loc⟩]
  exact ⟨_, whole, by simpa [Token.loc] using SequentialSpec.sequential argPhrase clausePhrase⟩

theorem brokenProgram_ne_done {n : Nat} {error : SyntaxError} {session next : Session} {tree : Tree} :
    (brokenProgram n error).run session ≠ .done tree next := by
  intro h
  obtain ⟨-, mid, -, h₁⟩ := done_of_bind h
  obtain ⟨_, _, -, h₂⟩ | ⟨_, _, -, h₂⟩ := done_of_attempt h₁
  · cases h₂
  · cases h₂

/-- A program is read to the end of input. -/
theorem program_sound {n : Nat} {session next : Session} {tree : Tree}
    (h : (program n).run session = .done tree next) :
    next.rest = [] ∧ ∃ span, session.ReadsAs next span ∧ Program Location.Touches span tree := by
  obtain ⟨join, mid, hjoin, h₁⟩ | ⟨error, mid, -, h₁⟩ := done_of_attempt (done_of_look h)
  · obtain ⟨joinSpan, joinReads, joinPhrase, hloc⟩ := joinSpec_sound hjoin
    obtain ⟨sequential, behind, hsequential, h₂⟩ := done_of_bind h₁
    obtain ⟨span, hreads, phrase⟩ := sequentialSpec_sound hsequential
    have h₃ := done_of_look h₂
    split at h₃
    · next hend =>
      obtain ⟨rfl, rfl⟩ := done_of_pure h₃
      have whole := Program.program joinPhrase phrase
      rw [hloc] at whole
      exact ⟨List.isEmpty_iff.1 hend, _, joinReads.trans hreads, whole⟩
    · cases h₃
  · exact absurd h₁ brokenProgram_ne_done

end Grammar

end RoutineSpec
