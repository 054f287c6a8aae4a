import RoutineSpec.Analysis
import RoutineSpec.Proofs.Lockstep
import RoutineSpec.Proofs.ReportOrder

/-! # Layout

The places of lexemes do not matter to what is read, as long as the same signs are doubled. Two texts whose lexemes
differ in their places only are read as the same program with the same complaints, each at the place of the same token.
-/

namespace RoutineSpec

variable {pairs : Location → Location → Prop}

/-- What is read as a list is alike, one by one. -/
abbrev Tree.ListAlike (pairs : Location → Location → Prop) : List Tree → List Tree → Prop :=
  List.Forall₂ (Tree.Alike pairs)

/-- Either there is no increment, or there are increments that are alike. -/
abbrev Tree.OptionAlike (pairs : Location → Location → Prop) : Option Tree → Option Tree → Prop :=
  Option.Rel (Tree.Alike pairs)

theorem Terminal.alike_of_leaf? {terminal : Terminal} {leaf : Location → Tree} (h : terminal.leaf? = some leaf)
    {loc loc' : Location} (hloc : pairs loc loc') : (leaf loc).Alike pairs (leaf loc') := by
  unfold leaf? at h
  split at h
  · cases h
    exact .constant hloc
  · cases h
    exact .constant hloc
  · cases h
    exact .constant hloc
  · cases h
    exact .var hloc
  · cases h

namespace Grammar

open Rule

mutual

theorem expression_alike : ∀ n, (expression n).Alike pairs (Tree.Alike pairs) (expression n)
  | 0 => alike_exhausted
  | n + 1 => by
    rw [expression]
    refine (binary_alike n _).bind fun hcondition => alike_bind_accept _ (alike_pure hcondition) fun hloc => ?_
    refine (expression_alike n).bind fun honTrue => alike_bind_expect _ _ ?_
    exact (expression_alike n).bind fun honFalse => alike_pure (.conditional hloc hcondition honTrue honFalse)

theorem binary_alike : ∀ n levels, (binary n levels).Alike pairs (Tree.Alike pairs) (binary n levels)
  | 0, _ => alike_exhausted
  | n + 1, [] => by
    rw [binary]
    exact unary_alike n
  | n + 1, level :: tighter => by
    rw [binary]
    exact (binary_alike n tighter).bind (chain_alike n level tighter)

theorem chain_alike : ∀ n level tighter {left left'}, Tree.Alike pairs left left' →
    (chain n level tighter left).Alike pairs (Tree.Alike pairs) (chain n level tighter left')
  | 0, _, _, _, _, _ => alike_exhausted
  | n + 1, level, tighter, _, _, hleft => by
    rw [chain, chain]
    refine alike_bind_take? _ (alike_pure hleft) fun _ hloc => ?_
    exact (binary_alike n tighter).bind fun hright => chain_alike n level tighter (.binary hloc hleft hright)

theorem unary_alike : ∀ n, (unary n).Alike pairs (Tree.Alike pairs) (unary n)
  | 0 => alike_exhausted
  | n + 1 => by
    rw [unary]
    refine alike_bind_take? _ (suffixed_alike n) fun _ hloc => ?_
    exact (unary_alike n).bind fun hoperand => alike_pure (.unary hloc hoperand)

theorem suffixed_alike : ∀ n, (suffixed n).Alike pairs (Tree.Alike pairs) (suffixed n)
  | 0 => alike_exhausted
  | n + 1 => by
    rw [suffixed]
    exact (primary_alike n).bind (suffixes_alike n)

theorem suffixes_alike : ∀ n {operand operand'}, Tree.Alike pairs operand operand' →
    (suffixes n operand).Alike pairs (Tree.Alike pairs) (suffixes n operand')
  | 0, _, _, _ => alike_exhausted
  | n + 1, operand, operand', hoperand => by
    rw [suffixes, suffixes]
    refine alike_bind_accept _ (alike_bind_follows _ fun seen => alike_ite ?_ (alike_pure hoperand)) fun hloc => ?_
    · cases hoperand with
      | var hname =>
        refine alike_bind_expect _ _ ((callArguments_alike n).bind fun hargs => alike_bind_expect _ _ ?_)
        exact suffixes_alike n (.call hname hargs)
      | _ => exact alike_failHere _
    · refine (expression_alike n).bind fun hsubscript => alike_bind_expect _ _ ?_
      exact suffixes_alike n (.index hloc hoperand hsubscript)

theorem callArguments_alike : ∀ n, (callArguments n).Alike pairs (Tree.ListAlike pairs) (callArguments n)
  | 0 => alike_exhausted
  | n + 1 => by
    rw [callArguments]
    exact alike_bind_follows _ fun seen => alike_ite (alike_pure .nil) (expressions_alike n)

theorem expressions_alike : ∀ n, (expressions n).Alike pairs (Tree.ListAlike pairs) (expressions n)
  | 0 => alike_exhausted
  | n + 1 => by
    rw [expressions]
    refine (expression_alike n).bind fun hfirst => alike_bind_accept _ (alike_pure (.cons hfirst .nil)) fun _ => ?_
    exact (expressions_alike n).bind fun hothers => alike_pure (.cons hfirst hothers)

theorem primary_alike : ∀ n, (primary n).Alike pairs (Tree.Alike pairs) (primary n)
  | 0 => alike_exhausted
  | n + 1 => by
    rw [primary]
    refine alike_bind_take? _ (alike_bind_expect _ _ ?_) fun hleaf hloc => alike_pure ?_
    · exact (expression_alike n).bind fun hinner => alike_bind_expect _ _ (alike_pure hinner)
    · exact Terminal.alike_of_leaf? hleaf hloc

end

theorem guard_alike (n : Nat) : (guard n).Alike pairs (Tree.Alike pairs) (guard n) := by
  intro session mate halike
  have hbinary := binary_alike n Precedence.ladder session mate halike
  obtain ⟨hfound, hloc⟩ := halike.next
  rw [run_guard, run_guard]
  generalize (binary n Precedence.ladder).run session = outcome at hbinary ⊢
  generalize (binary n Precedence.ladder).run mate = outcome' at hbinary ⊢
  cases hbinary with
  | failed herror hnext => exact .failed herror hnext
  | exhausted => exact .exhausted
  | done htree hnext =>
    simp only [hfound, htree.kind_eq]
    split
    · exact .done htree hnext
    · exact .failed (SyntaxError.alike_of_complaint hloc) hnext

/-- An increment is a name, a doubled sign, and what ends an assignment. -/
theorem increment?_eq_of_doubles (name : String) (loc : Location) (first second behind : Lexeme) (rest : List Lexeme) :
    increment? (⟨.identifier name, loc⟩ :: first :: second :: behind :: rest) =
      if first.Doubles second ∧ (behind.terminal = .mark .semicolon ∨ behind.terminal = .mark .closeParen) then
        (incrementOp? first.terminal).map fun op => .increment loc name op first.loc
      else none := by
  unfold increment?
  cases hop : incrementOp? first.terminal with
  | none => simp [hop]
  | some op =>
    have hsign : first.terminal = .mark .plus ∨ first.terminal = .mark .minus := by
      unfold incrementOp? at hop
      split at hop
      · exact .inl ‹_›
      · exact .inr ‹_›
      · cases hop
    simp only [Lexeme.Doubles, hsign, true_and, hop, eq_comm, and_assoc]

theorem increment?_alike {lexemes others : List Lexeme} (h : Lexeme.AllAlike pairs lexemes others) :
    Tree.OptionAlike pairs (increment? lexemes) (increment? others) := by
  cases h with
  | nil => exact .none
  | @cons terminal _ _ _ _ hname _ hrest =>
    cases terminal with
    | integer | keyword | mark => exact .none
    | identifier name =>
      cases hrest with
      | nil => exact .none
      | cons hfirst hdoubled hrest =>
        cases hrest with
        | nil => exact .none
        | cons _ _ hrest =>
          cases hrest with
          | nil => exact .none
          | cons _ _ _ =>
            have hdoubles := decide_eq_decide.1 (List.cons.inj hdoubled).1
            rw [increment?_eq_of_doubles, increment?_eq_of_doubles]
            simp only [hdoubles]
            split
            · generalize incrementOp? _ = op
              cases op with
              | none => exact .none
              | some op =>
                exact .some (.assignment hname (.var hname) (.binary hfirst (.var hname) (.constant hfirst)))
            · exact .none

end Grammar

namespace Rule

/-- Either no increment is read, or increments that are alike are. -/
theorem alike_bind_increment {β : Type} {agrees : β → β → Prop} {follow further : Option Tree → Rule β}
    (hnone : (follow none).Alike pairs agrees (further none))
    (hsome : ∀ {tree tree'}, Tree.Alike pairs tree tree' → (follow (some tree)).Alike pairs agrees (further (some tree'))) :
    (Grammar.increment >>= follow).Alike pairs agrees (Grammar.increment >>= further) := by
  intro session mate halike
  have hincrement := Grammar.increment?_alike halike.rest
  rw [run_bind, run_bind, Grammar.run_increment, Grammar.run_increment]
  generalize Grammar.increment? session.rest = found at hincrement ⊢
  generalize Grammar.increment? mate.rest = found' at hincrement ⊢
  cases hincrement with
  | none => exact hnone _ _ halike
  | some htree => exact hsome htree _ _ (halike.skip (halike.rest.drop 3))

end Rule

namespace Grammar

open Rule

theorem assignment_alike (n : Nat) : (assignment n).Alike pairs (Tree.Alike pairs) (assignment n) := by
  refine alike_bind_increment (alike_bind_here fun hloc => ?_) fun htree => alike_pure htree
  refine (suffixed_alike n).bind fun htarget => alike_bind_expect _ _ ?_
  exact (expression_alike n).bind fun hvalue => alike_pure (.assignment hloc htarget hvalue)

mutual

theorem statement_alike : ∀ n, (statement n).Alike pairs (Tree.Alike pairs) (statement n)
  | 0 => alike_exhausted
  | n + 1 => by
    rw [statement]
    refine alike_bind_accept _ (alike_bind_accept _ (alike_bind_accept _ ?_ (block_alike n)) (iteration_alike n))
      (selection_alike n)
    exact (assignment_alike n).bind fun htree => alike_bind_expect _ _ (alike_pure htree)

theorem selection_alike : ∀ n {loc loc'}, pairs loc loc' →
    (selection n loc).Alike pairs (Tree.Alike pairs) (selection n loc')
  | 0, _, _, _ => alike_exhausted
  | n + 1, _, _, hloc => by
    rw [selection, selection]
    refine alike_bind_expect _ _ ((expression_alike n).bind fun hcondition => alike_bind_expect _ _ ?_)
    refine (statement_alike n).bind fun honTrue =>
      alike_bind_accept _ (alike_pure (.ifThen hloc hcondition honTrue)) fun _ => ?_
    exact (statement_alike n).bind fun honFalse => alike_pure (.ifThenElse hloc hcondition honTrue honFalse)

theorem iteration_alike : ∀ n {loc loc'}, pairs loc loc' →
    (iteration n loc).Alike pairs (Tree.Alike pairs) (iteration n loc')
  | 0, _, _, _ => alike_exhausted
  | n + 1, _, _, hloc => by
    rw [iteration, iteration]
    refine alike_bind_expect _ _ ((assignment_alike n).bind fun hinit => alike_bind_expect _ _ ?_)
    refine (guard_alike n).bind fun hguard => alike_bind_expect _ _ ?_
    refine (assignment_alike n).bind fun hupdate => alike_bind_expect _ _ ?_
    refine alike_bind_accept _ (alike_failHere _) fun hbrace => ?_
    exact (block_alike n hbrace).bind fun hbody => alike_pure (.iteration hloc hinit hguard hupdate hbody)

theorem block_alike : ∀ n {loc loc'}, pairs loc loc' → (block n loc).Alike pairs (Tree.Alike pairs) (block n loc')
  | 0, _, _, _ => alike_exhausted
  | n + 1, _, _, hloc => by
    rw [block, block]
    exact (statements_alike n).bind fun htrees => alike_bind_expect _ _ (alike_pure (.block hloc htrees))

theorem statements_alike : ∀ n, (statements n).Alike pairs (Tree.ListAlike pairs) (statements n)
  | 0 => alike_exhausted
  | n + 1 => by
    rw [statements]
    refine alike_bind_look Session.Alike.atBlockEnd_eq fun seen => alike_ite (alike_pure .nil) ?_
    exact (statementIfSound_alike n).bind fun hfirst => (statements_alike n).bind fun hothers =>
      alike_pure (List.rel_append hfirst hothers)

theorem statementIfSound_alike : ∀ n, (statementIfSound n).Alike pairs (Tree.ListAlike pairs) (statementIfSound n)
  | 0 => alike_exhausted
  | n + 1 => by
    rw [statementIfSound_eq]
    -- The lexemes from where the statement starts differ in their places, so what is looked at is not the same.
    intro session mate halike
    exact (statement_alike n).recovering (Recovery.alike_resume halike.rest) (fun htree => .cons htree .nil) .nil
      session mate halike

end

theorem dataType_alike : dataType.Alike pairs (· = ·) dataType :=
  alike_bind_take? _ (alike_failHere _) fun _ _ => alike_bind_accept _ (alike_pure rfl) fun _ => alike_pure rfl

theorem argument_alike : argument.Alike pairs (Tree.Alike pairs) argument := by
  refine alike_bind_here fun hloc => dataType_alike.bind fun htype => ?_
  subst htype
  exact alike_bind_identifier fun hname => alike_pure (.argument hloc (.dataType hloc) (.var hname))

theorem argumentIfSound_alike : argumentIfSound.Alike pairs (Tree.ListAlike pairs) argumentIfSound := by
  rw [argumentIfSound_eq]
  exact argument_alike.recovering Recovery.alike_skipArgument (fun htree => .cons htree .nil) .nil

theorem arguments_alike : ∀ n, (arguments n).Alike pairs (Tree.ListAlike pairs) (arguments n)
  | 0 => alike_exhausted
  | n + 1 => by
    rw [arguments]
    refine argumentIfSound_alike.bind fun hfirst => alike_bind_accept _ (alike_pure hfirst) fun _ => ?_
    exact (arguments_alike n).bind fun hothers => alike_pure (List.rel_append hfirst hothers)

theorem identifiers_alike : ∀ n, (identifiers n).Alike pairs (Tree.ListAlike pairs) (identifiers n)
  | 0 => alike_exhausted
  | n + 1 => by
    rw [identifiers]
    refine alike_bind_identifier fun hname => alike_bind_accept _ (alike_pure (.cons (.var hname) .nil)) fun _ => ?_
    exact (identifiers_alike n).bind fun hothers => alike_pure (.cons (.var hname) hothers)

section

variable (n : Nat)

theorem argumentList_alike : (argumentList n).Alike pairs (Tree.ListAlike pairs) (argumentList n) :=
  alike_bind_follows _ fun _ => alike_ite (alike_pure .nil) (arguments_alike n)

theorem identifierList_alike : (identifierList n).Alike pairs (Tree.ListAlike pairs) (identifierList n) :=
  alike_bind_follows _ fun _ => alike_ite (alike_pure .nil) (identifiers_alike n)

theorem returnsClause_alike : (returnsClause n).Alike pairs (Tree.ListAlike pairs) (returnsClause n) :=
  alike_bind_expect _ _ (alike_bind_expect _ _ ((identifierList_alike n).bind fun hnames =>
    alike_bind_expect _ _ (alike_pure hnames)))

theorem localsClause_alike : (localsClause n).Alike pairs (Tree.ListAlike pairs) (localsClause n) :=
  alike_bind_expect _ _ (alike_bind_expect _ _ ((argumentList_alike n).bind fun hargs =>
    alike_bind_expect _ _ (alike_pure hargs)))

theorem joinBody_alike : (joinBody n).Alike pairs (Tree.Alike pairs) (joinBody n) := by
  rw [joinBody_eq]
  exact alike_bind_here fun hloc =>
    (statement_alike n).recovering Recovery.alike_skipToSequential id (.block hloc .nil)

theorem joinSpec_alike : (joinSpec n).Alike pairs (Tree.Alike pairs) (joinSpec n) := by
  refine alike_bind_here fun hloc => alike_bind_expect _ _ (alike_bind_expect _ _ ?_)
  refine (argumentList_alike n).bind fun hleft => alike_bind_expect _ _ ?_
  refine (argumentList_alike n).bind fun hright => alike_bind_expect _ _ ?_
  refine (returnsClause_alike n).bind fun hreturns => (localsClause_alike n).bind fun hlocals => ?_
  exact (joinBody_alike n).bind fun hbody => alike_pure (.joinSpec hloc hleft hright hreturns hlocals hbody)

theorem sequentialSpec_alike : (sequentialSpec n).Alike pairs (Tree.Alike pairs) (sequentialSpec n) := by
  refine alike_bind_here fun hloc => alike_bind_expect _ _ (alike_bind_expect _ _ ?_)
  refine (argumentList_alike n).bind fun hargs => alike_bind_expect _ _ ?_
  refine (returnsClause_alike n).bind fun hreturns => (localsClause_alike n).bind fun hlocals => ?_
  exact (statement_alike n).bind fun hbody => alike_pure (.sequentialSpec hloc hargs hreturns hlocals hbody)

theorem programBehind_alike {loc loc' : Location} (hloc : pairs loc loc') {join join' : Tree}
    (hjoin : join.Alike pairs join') :
    (programBehind n loc join).Alike pairs (Tree.Alike pairs) (programBehind n loc' join') :=
  (sequentialSpec_alike n).bind fun hsequential => alike_bind_look Session.Alike.atEnd_eq fun _ =>
    alike_ite (alike_pure (.program hloc hjoin hsequential)) (alike_failHere _)

theorem brokenProgram_alike {error error' : SyntaxError} (h : error.Alike pairs error') :
    (brokenProgram n error).Alike pairs (Tree.Alike pairs) (brokenProgram n error') :=
  alike_bind_skipWith Recovery.alike_skipToSequential ((sequentialSpec_alike n).bind_attempt
    (fun _ => alike_fail h) fun hsecond => alike_bind_record hsecond (alike_fail h))

/-- Programs are read in lockstep. -/
theorem program_alike : (program n).Alike pairs (Tree.Alike pairs) (program n) :=
  alike_bind_here fun hloc => (joinSpec_alike n).bind_attempt (programBehind_alike n hloc) (brokenProgram_alike n)

end

end Grammar

/-- The places of the tokens at one position of two streams. -/
def SamePosition (tokens others : List Token) (loc loc' : Location) : Prop :=
  ∃ position : Nat, (tokens.map Token.loc)[position]? = some loc ∧ (others.map Token.loc)[position]? = some loc'

/-- Where no stream has two tokens at one place, no place goes with two. -/
theorem biUnique_samePosition {tokens others : List Token} (h : (tokens.map Token.loc).Nodup)
    (h' : (others.map Token.loc).Nodup) : Relator.BiUnique (SamePosition tokens others) := by
  constructor
  · rintro loc loc' place ⟨i, hi, hplace⟩ ⟨j, hj, hplace'⟩
    obtain rfl : i = j := (List.getElem?_inj (List.getElem?_eq_some_iff.1 hplace).1 h').1 (hplace.trans hplace'.symm)
    exact Option.some.inj (hi.symm.trans hj)
  · rintro place loc loc' ⟨i, hplace, hi⟩ ⟨j, hplace', hj⟩
    obtain rfl : i = j := (List.getElem?_inj (List.getElem?_eq_some_iff.1 hplace).1 h).1 (hplace.trans hplace'.symm)
    exact Option.some.inj (hi.symm.trans hj)

namespace Session

variable {session other : Session}

theorem map_loc_tokens (session : Session) :
    session.tokens.map Token.loc = session.rest.map Lexeme.loc ++ [session.stop] := by
  simp [tokens, Token.loc, Function.comp_def]

theorem Increases.nodup (h : session.Increases) : (session.tokens.map Token.loc).Nodup := by
  rw [map_loc_tokens]
  exact List.Pairwise.imp (fun hlt => hlt.ne) h

/-- Streams with the same terminals and the same signs doubled are alike, position by position. -/
theorem alike_of_terminals (h : session.Increases) (h' : other.Increases)
    (hterminals : session.rest.map Lexeme.terminal = other.rest.map Lexeme.terminal)
    (hdoubled : Lexeme.doubled session.rest = Lexeme.doubled other.rest)
    (hclean : session.diagnostics = []) (hclean' : other.diagnostics = []) :
    session.Alike (SamePosition session.tokens other.tokens) other := by
  have hlength : session.rest.length = other.rest.length := by simpa using congrArg List.length hterminals
  exact {
    unique := biUnique_samePosition h.nodup h'.nodup
    rest := by
      refine Lexeme.allAlike_of_doubled hterminals hdoubled (List.forall₂_iff_get.2 ⟨by simpa using hlength, ?_⟩)
      intro position hposition hposition'
      refine ⟨position, ?_, ?_⟩
      · rw [map_loc_tokens, List.getElem?_append_left hposition]
        exact List.getElem?_eq_getElem hposition
      · rw [map_loc_tokens, List.getElem?_append_left hposition']
        exact List.getElem?_eq_getElem hposition'
    stop := ⟨session.rest.length, by simp [map_loc_tokens], by simp [map_loc_tokens, hlength]⟩
    diagnostics := by
      rw [hclean, hclean']
      exact .nil }

/-- Sessions that are alike are read to ends that are alike. -/
theorem Alike.finish (h : session.Alike pairs other) :
    match session.finish, other.finish with
    | .ok reading, .ok reading' =>
      reading.program.Alike pairs reading'.program ∧
        List.Forall₂ (Diagnostic.Alike pairs) reading.diagnostics reading'.diagnostics
    | .error failure, .error failure' =>
      failure.error.Alike pairs failure'.error ∧
        List.Forall₂ (Diagnostic.Alike pairs) failure.diagnostics failure'.diagnostics
    | _, _ => False := by
  have hbudget : Grammar.budget other = Grammar.budget session := by
    rw [Grammar.budget, Grammar.budget, h.rest.length_eq]
  have hprogram := Grammar.program_alike (Grammar.budget session) session other h
  cases hrun : (Grammar.program (Grammar.budget session)).run session with
  | exhausted => exact absurd hrun (Grammar.program_ne_exhausted session)
  | done program next =>
    cases hrun' : (Grammar.program (Grammar.budget session)).run other with
    | done program' next' =>
      rw [hrun, hrun'] at hprogram
      rw [← hbudget] at hrun'
      rw [finish_of_done hrun, finish_of_done hrun']
      cases hprogram with
      | done htree hnext => exact ⟨htree, hnext.diagnostics⟩
    | failed | exhausted =>
      rw [hrun, hrun'] at hprogram
      cases hprogram
  | failed error next =>
    cases hrun' : (Grammar.program (Grammar.budget session)).run other with
    | failed error' next' =>
      rw [hrun, hrun'] at hprogram
      rw [← hbudget] at hrun'
      rw [finish_of_failed hrun, finish_of_failed hrun']
      cases hprogram with
      | failed herror hnext => exact ⟨herror, hnext.diagnostics⟩
    | done | exhausted =>
      rw [hrun, hrun'] at hprogram
      cases hprogram

end Session

theorem Diagnostic.exists_errors_of_alike {diagnostics others : List Diagnostic}
    (h : List.Forall₂ (Diagnostic.Alike pairs) diagnostics others) :
    ∃ errors errors' : List SyntaxError, diagnostics = errors.map .syntactic ∧ others = errors'.map .syntactic ∧
      List.Forall₂ (SyntaxError.Alike pairs) errors errors' := by
  induction h with
  | nil => exact ⟨[], [], rfl, rfl, .nil⟩
  | cons hfirst _ ih =>
    obtain ⟨errors, errors', rfl, rfl, herrors⟩ := ih
    cases hfirst with
    | syntactic herror => exact ⟨_ :: errors, _ :: errors', rfl, rfl, .cons herror herrors⟩

namespace Reading

/-- The lexical errors of a text stand in front of what is reported about its lexemes, and change nothing else. -/
theorem ofSource_eq_finish (policy : DecimalPolicy) (source : String) :
    let scan := Scan.of policy source
    ofSource policy source =
      match (Session.mk scan.lexemes scan.stop []).finish with
      | .ok reading => .ok ⟨reading.program, scan.errors.map .lexical ++ reading.diagnostics⟩
      | .error failure => .error ⟨failure.error, scan.errors.map .lexical ++ failure.diagnostics⟩ := by
  intro scan
  have hapart : (Session.mk scan.lexemes scan.stop []).Apart (scan.errors.map .lexical) := by
    intro error hlast
    have := List.mem_of_getLast? hlast
    simp at this
  have hsource : Session.ofSource policy source =
      (Session.mk scan.lexemes scan.stop []).after (scan.errors.map .lexical) := by
    simp [Session.ofSource_eq, Session.after, scan]
  have hread := Session.readProgram_after hapart
  rw [← hsource] at hread
  unfold ofSource Session.finish
  rw [hread]
  cases (Session.mk scan.lexemes scan.stop []).readProgram with
  | mk ended next => cases ended <;> rfl

/-- Layout does not matter. Where two texts have the same lexemes, and the same of their signs are doubled, both are read
    or neither is. The programs are equal up to places and have the same violations, the syntax errors say the same of
    the same tokens, and every place is that of the token at the position where the other place has its token. -/
theorem ofSource_layout {policy policy' : DecimalPolicy} {source source' : String}
    (hterminals : (Scan.of policy source).lexemes.map Lexeme.terminal =
      (Scan.of policy' source').lexemes.map Lexeme.terminal)
    (hdoubled : Lexeme.doubled (Scan.of policy source).lexemes = Lexeme.doubled (Scan.of policy' source').lexemes) :
    let scan := Scan.of policy source
    let scan' := Scan.of policy' source'
    let pairs := SamePosition scan.tokens scan'.tokens
    ∃ errors errors' : List SyntaxError, List.Forall₂ (SyntaxError.Alike pairs) errors errors' ∧
      match ofSource policy source, ofSource policy' source' with
      | .ok reading, .ok reading' =>
        reading.diagnostics = scan.errors.map .lexical ++ errors.map .syntactic ∧
          reading'.diagnostics = scan'.errors.map .lexical ++ errors'.map .syntactic ∧
          reading.program.unplaced = reading'.program.unplaced ∧
          reading.program.Alike pairs reading'.program ∧
          List.Forall₂ (Violation.Alike pairs) reading.program.violations reading'.program.violations
      | .error failure, .error failure' =>
        failure.diagnostics = scan.errors.map .lexical ++ errors.map .syntactic ∧
          failure'.diagnostics = scan'.errors.map .lexical ++ errors'.map .syntactic ∧
          failure.error.Alike pairs failure'.error
      | _, _ => False := by
  intro scan scan' pairs
  have hstart : (Session.mk scan.lexemes scan.stop []).Increases := Scan.increasing_of policy source
  have hstart' : (Session.mk scan'.lexemes scan'.stop []).Increases := Scan.increasing_of policy' source'
  have halike : (Session.mk scan.lexemes scan.stop []).Alike pairs (Session.mk scan'.lexemes scan'.stop []) :=
    Session.alike_of_terminals hstart hstart' hterminals hdoubled rfl rfl
  have hends := halike.finish
  rw [ofSource_eq_finish policy source, ofSource_eq_finish policy' source']
  generalize (Session.mk scan.lexemes scan.stop []).finish = ended at hends ⊢
  generalize (Session.mk scan'.lexemes scan'.stop []).finish = ended' at hends ⊢
  cases ended with
  | ok reading =>
    cases ended' with
    | error => exact hends.elim
    | ok reading' =>
      obtain ⟨htree, hdiagnostics⟩ := hends
      obtain ⟨errors, errors', herrors, herrors', hsame⟩ := Diagnostic.exists_errors_of_alike hdiagnostics
      exact ⟨errors, errors', hsame, congrArg _ herrors, congrArg _ herrors', htree.unplaced_eq, htree,
        htree.violations⟩
  | error failure =>
    cases ended' with
    | ok => exact hends.elim
    | error failure' =>
      obtain ⟨herror, hdiagnostics⟩ := hends
      obtain ⟨errors, errors', herrors, herrors', hsame⟩ := Diagnostic.exists_errors_of_alike hdiagnostics
      exact ⟨errors, errors', hsame, congrArg _ herrors, congrArg _ herrors', herror⟩

/-- A text on one line and one on many. A statement is left out of both, and the increment behind it is kept. -/
theorem ofSource_layout_of_lines :
    let source := "join(|) returns() locals() \x7b x = ; y++; \x7d sequential() returns() locals() z = 1;"
    let source' := "join (|)\nreturns()\tlocals()\n\x7b\n  x\n  =;\n  y ++;\n\x7d\nsequential() returns() locals() z=1;"
    let scan := Scan.of .reject source
    let scan' := Scan.of .truncate source'
    let pairs := SamePosition scan.tokens scan'.tokens
    scan.lexemes.map Lexeme.terminal = scan'.lexemes.map Lexeme.terminal ∧
      Lexeme.doubled scan.lexemes = Lexeme.doubled scan'.lexemes ∧
      ∃ reading reading', ofSource .reject source = .ok reading ∧ ofSource .truncate source' = .ok reading' ∧
        reading.program.unplaced = reading'.program.unplaced ∧
        ∃ error error', reading.diagnostics = [.syntactic error] ∧ reading'.diagnostics = [.syntactic error'] ∧
          error.Alike pairs error' := by
  intro source source' scan scan' pairs
  have hterminals : scan.lexemes.map Lexeme.terminal = scan'.lexemes.map Lexeme.terminal := by decide +kernel
  have hdoubled : Lexeme.doubled scan.lexemes = Lexeme.doubled scan'.lexemes := by decide +kernel
  have hcount : (ofSource .reject source).toOption.map (·.diagnostics.length) = some 1 := by decide +kernel
  have hclean : scan.errors = [] ∧ scan'.errors = [] := by decide +kernel
  obtain ⟨errors, errors', hsame, hends⟩ := ofSource_layout hterminals hdoubled
  refine ⟨hterminals, hdoubled, ?_⟩
  cases hread : ofSource .reject source with
  | error =>
    rw [hread] at hcount
    cases hcount
  | ok reading =>
    cases hread' : ofSource .truncate source' with
    | error =>
      rw [hread, hread'] at hends
      exact hends.elim
    | ok reading' =>
      rw [hread, hread'] at hends
      obtain ⟨hdiagnostics, hdiagnostics', htree, -, -⟩ := hends
      rw [hread] at hcount
      have hone : reading.diagnostics.length = 1 := Option.some.inj hcount
      rw [show (Scan.of .reject source).errors = [] from hclean.1] at hdiagnostics
      rw [show (Scan.of .truncate source').errors = [] from hclean.2] at hdiagnostics'
      refine ⟨reading, reading', rfl, rfl, htree, ?_⟩
      rw [hdiagnostics] at hone
      cases hsame with
      | nil => cases hone
      | cons hfirst hothers =>
        cases hothers with
        | nil => exact ⟨_, _, hdiagnostics, hdiagnostics', hfirst⟩
        | cons => cases hone

end Reading

end RoutineSpec
