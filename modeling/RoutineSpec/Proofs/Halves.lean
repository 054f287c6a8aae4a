import RoutineSpec.Proofs.Budget
import RoutineSpec.Proofs.ReportOrder
import RoutineSpec.Proofs.Separation

/-! # Two specifications, read on their own

Whatever becomes of the first specification, it does not depend on what stands behind the word that starts the second
one, and the second one is read from that word on as if nothing stood in front of it.
-/

namespace RoutineSpec

/-- What a rule comes to that has the given result. -/
def Outcome.of {α : Type} : Except SyntaxError α × Session → Outcome α
  | (.ok value, next) => .done value next
  | (.error error, next) => .failed error next

theorem Outcome.of_result {α : Type} : ∀ {outcome : Outcome α} (h : outcome ≠ .exhausted),
    .of (outcome.result h) = outcome
  | .done _ _, _ | .failed _ _, _ => rfl
  | .exhausted, h => absurd rfl h

theorem Outcome.of_injective {α : Type} {result other : Except SyntaxError α × Session}
    (h : Outcome.of result = .of other) : result = other := by
  obtain ⟨ended, next⟩ := result
  obtain ⟨ended', next'⟩ := other
  cases ended <;> cases ended' <;> cases h <;> rfl

theorem Outcome.after_of {α : Type} (before : List Diagnostic) :
    ∀ result : Except SyntaxError α × Session,
      (Outcome.of result).after before = .of (result.1, result.2.after before)
  | (.ok _, _) | (.error _, _) => rfl

theorem Outcome.followedBy_of {α : Type} (behind : List Lexeme) (stop : Location) :
    ∀ result : Except SyntaxError α × Session,
      (Outcome.of result).followedBy behind stop = .of (result.1, result.2.followedBy behind stop)
  | (.ok _, _) | (.error _, _) => rfl

theorem Outcome.leaves_of {α : Type} {key : Lexeme} :
    ∀ {result : Except SyntaxError α × Session}, (Outcome.of result).Leaves key → [key] <:+ result.2.rest
  | (.ok _, _), h | (.error _, _), h => h

namespace Grammar

theorem joinSpec_ne_exhausted (session : Session) : (joinSpec (budget session)).run session ≠ .exhausted :=
  (joinSpec_within (budget session) session (Nat.le_refl _)).ne_exhausted

theorem sequentialSpec_ne_exhausted (session : Session) :
    (sequentialSpec (budget session)).run session ≠ .exhausted :=
  (sequentialSpec_within (budget session) session (Nat.le_refl _)).ne_exhausted

theorem budget_le_of_suffix {session next : Session} (h : next.rest <:+ session.rest) :
    budget next ≤ budget session := by
  have := h.length_le
  unfold budget
  omega

end Grammar

theorem Recovery.skipToSequential_append {left behind : List Lexeme} {keyword : Lexeme}
    (hleft : ∀ lexeme ∈ left, lexeme.terminal ≠ .keyword .sequential)
    (hkeyword : keyword.terminal = .keyword .sequential) :
    skipToSequential (left ++ keyword :: behind) = keyword :: behind := by
  unfold skipToSequential
  rw [List.dropWhile_append_of_pos (by simpa using hleft)]
  simp [hkeyword]

namespace Session

/-- Read a first specification. -/
def readJoin (session : Session) : Except SyntaxError Tree × Session :=
  ((Grammar.joinSpec (Grammar.budget session)).run session).result (Grammar.joinSpec_ne_exhausted session)

/-- Read a second specification. -/
def readSequential (session : Session) : Except SyntaxError Tree × Session :=
  ((Grammar.sequentialSpec (Grammar.budget session)).run session).result (Grammar.sequentialSpec_ne_exhausted session)

variable {session : Session} {n : Nat}

theorem run_joinSpec (h : Grammar.budget session ≤ n) : (Grammar.joinSpec n).run session = .of session.readJoin := by
  rw [Grammar.joinSpec_extends h session (Grammar.joinSpec_ne_exhausted session), readJoin, Outcome.of_result]

theorem run_sequentialSpec (h : Grammar.budget session ≤ n) :
    (Grammar.sequentialSpec n).run session = .of session.readSequential := by
  rw [Grammar.sequentialSpec_extends h session (Grammar.sequentialSpec_ne_exhausted session), readSequential,
    Outcome.of_result]

theorem readJoin_faithful (session : Session) : (Outcome.of session.readJoin).Faithful session := by
  rw [← run_joinSpec (Nat.le_refl _)]
  exact Grammar.joinSpec_faithful _ session

theorem reportsTo_readJoin (session : Session) : session.ReportsTo session.readJoin.2 := by
  have hfaithful := session.readJoin_faithful
  cases hread : session.readJoin with
  | mk ended next =>
    rw [hread] at hfaithful
    cases ended with
    | ok join => exact hfaithful
    | error error => exact hfaithful.1

/-- Behind a first specification, the second one is read, up to the end of input. -/
theorem finish_of_readJoin_ok {mid : Session} {join : Tree} (h : session.readJoin = (.ok join, mid)) :
    session.finish =
      match mid.readSequential with
      | (.ok sequential, next) =>
        if next.atEnd then .ok ⟨.program session.next.loc join sequential, next.diagnostics⟩
        else .error ⟨⟨.expected .endOfInput, next.next.describe, next.next.loc⟩, next.diagnostics⟩
      | (.error error, next) => .error ⟨error, next.diagnostics⟩ := by
  have hsuffix := session.reportsTo_readJoin.rest
  have hrun := Grammar.run_program (Grammar.budget session) session
  rw [h] at hsuffix
  rw [run_joinSpec (Nat.le_refl _), h] at hrun
  simp only [Outcome.of, Grammar.run_programBehind] at hrun
  rw [run_sequentialSpec (Grammar.budget_le_of_suffix hsuffix)] at hrun
  cases hsequential : mid.readSequential with
  | mk ended next =>
    rw [hsequential] at hrun
    cases ended with
    | error error => exact finish_of_failed hrun
    | ok sequential =>
      simp only [Outcome.of] at hrun ⊢
      split at hrun
      · next hend => rw [finish_of_done hrun, if_pos hend]
      · next hend => rw [finish_of_failed hrun, if_neg hend]

/-- Behind a first specification that fails, the second one is read for its errors. -/
theorem finish_of_readJoin_error {mid : Session} {error : SyntaxError} (h : session.readJoin = (.error error, mid)) :
    session.finish =
      match { mid with rest := Recovery.skipToSequential mid.rest }.readSequential with
      | (.ok _, next) => .error ⟨error, next.diagnostics⟩
      | (.error own, next) => .error ⟨error, next.diagnostics ++ [.syntactic own]⟩ := by
  have hsuffix := session.reportsTo_readJoin.rest
  have hrun := Grammar.run_program (Grammar.budget session) session
  rw [h] at hsuffix
  rw [run_joinSpec (Nat.le_refl _), h] at hrun
  have hskip := (Recovery.skipToSequential_suffix mid.rest).trans hsuffix
  simp only [Outcome.of, Grammar.run_brokenProgram] at hrun
  rw [run_sequentialSpec (Grammar.budget_le_of_suffix hskip)] at hrun
  cases hsequential : { mid with rest := Recovery.skipToSequential mid.rest }.readSequential with
  | mk ended next =>
    rw [hsequential] at hrun
    cases ended with
    | ok sequential => exact finish_of_failed hrun
    | error own => exact finish_of_failed hrun

/-! ## The first specification -/

variable {before behind : List Lexeme} {keyword : Lexeme} {stop : Location}

/-- The first specification is read as if nothing stood behind the word that starts the second one. -/
theorem readJoin_followedBy (hkeyword : keyword.terminal = .keyword .sequential) (hend : [keyword] <:+ session.rest) :
    [keyword] <:+ session.readJoin.2.rest ∧
      (session.followedBy behind stop).readJoin =
        (session.readJoin.1, session.readJoin.2.followedBy behind stop) := by
  have hcomposed : (Grammar.joinSpec (Grammar.budget (session.followedBy behind stop))).Composed False fun _ => True :=
    Grammar.joinSpec_composed _
  obtain ⟨hleaves, hrun⟩ := hcomposed.separate hkeyword session trivial hend
  have hbudget : Grammar.budget session ≤ Grammar.budget (session.followedBy behind stop) := by
    simp only [Grammar.budget, followedBy, List.length_append]
    omega
  have hwhole := hrun behind stop
  rw [run_joinSpec (Nat.le_refl _), run_joinSpec hbudget, Outcome.followedBy_of] at hwhole
  rw [run_joinSpec hbudget] at hleaves
  exact ⟨Outcome.leaves_of hleaves, Outcome.of_injective hwhole⟩

theorem readJoin_ordered (h : session.OrderedUpTo session.next.loc) : (Outcome.of session.readJoin).Ordered := by
  have hcomposed : (Grammar.joinSpec (Grammar.budget session)).Composed False fun _ => True :=
    Grammar.joinSpec_composed _
  rw [← run_joinSpec (Nat.le_refl _)]
  exact hcomposed.ordered session trivial h

/-- In front of the word that starts the second specification, reading stops somewhere, and says the same whether
    anything follows the word or not. -/
theorem exists_readJoin (before behind : List Lexeme) (stop : Location)
    (hkeyword : keyword.terminal = .keyword .sequential) :
    ∃ ended left reports,
      readJoin ⟨before ++ [keyword], keyword.loc, []⟩ = (ended, ⟨left ++ [keyword], keyword.loc, reports⟩) ∧
        readJoin ⟨before ++ keyword :: behind, stop, []⟩ = (ended, ⟨left ++ keyword :: behind, stop, reports⟩) ∧
        left <:+ before := by
  let first : Session := ⟨before ++ [keyword], keyword.loc, []⟩
  obtain ⟨⟨left, hleft⟩, hwhole⟩ :=
    @readJoin_followedBy first behind keyword stop hkeyword (List.suffix_append _ _)
  obtain ⟨⟨⟨span, hspan⟩, hstop, -⟩, -⟩ := first.reportsTo_readJoin
  replace hstop : first.readJoin.2.stop = keyword.loc := hstop
  have hnext : first.readJoin.2 = ⟨left ++ [keyword], keyword.loc, first.readJoin.2.diagnostics⟩ := by
    rw [hleft, ← hstop]
  refine ⟨first.readJoin.1, left, first.readJoin.2.diagnostics, Prod.ext rfl hnext, ?_, span, ?_⟩
  · have hfollowed : first.followedBy behind stop = ⟨before ++ keyword :: behind, stop, []⟩ := by
      simp [first, followedBy]
    rw [hfollowed, hnext] at hwhole
    simpa [followedBy] using hwhole
  · rw [← hleft, ← List.append_assoc] at hspan
    exact List.append_cancel_right hspan

section Places

/-! What is in front of the word and what is behind it is told by the places. -/

variable {token : Token} {reports : List Diagnostic}

theorem tokens_append (diagnostics : List Diagnostic) : tokens ⟨before ++ keyword :: behind, stop, diagnostics⟩ =
    (before ++ [keyword]).map .lexeme ++ tokens ⟨behind, stop, diagnostics⟩ := by
  simp [tokens]

theorem lt_of_mem_tokens {diagnostics : List Diagnostic} (h : Increasing (before ++ keyword :: behind) stop)
    (hmem : token ∈ tokens ⟨behind, stop, diagnostics⟩) : keyword.loc < token.loc := by
  refine (increasing_cons.1 h.of_append).1 token.loc ?_
  rcases List.mem_append.1 hmem with hmem | hmem
  · obtain ⟨lexeme, hlexeme, rfl⟩ := List.mem_map.1 hmem
    exact List.mem_append_left _ (List.mem_map_of_mem hlexeme)
  · rw [List.mem_singleton.1 hmem]
    simp [Token.loc]

theorem Meets.exists_lexeme {diagnostics : List Diagnostic} {error : SyntaxError}
    (hmeets : Meets ⟨before ++ keyword :: behind, stop, diagnostics⟩ error)
    (h : Increasing (before ++ keyword :: behind) stop) (hloc : error.loc ≤ keyword.loc) :
    ∃ lexeme ∈ before ++ [keyword], error.Names (.lexeme lexeme) := by
  obtain ⟨token, hmem, hnames⟩ := hmeets
  rw [tokens_append] at hmem
  rcases List.mem_append.1 hmem with hfront | hbehind
  · obtain ⟨lexeme, hlexeme, rfl⟩ := List.mem_map.1 hfront
    exact ⟨lexeme, hlexeme, hnames⟩
  · exact absurd (lt_of_mem_tokens h hbehind) (not_lt.2 (hnames.loc ▸ hloc))

theorem apart_of_le (h : Increasing (before ++ keyword :: behind) stop)
    (hreports : ∀ diagnostic ∈ reports, diagnostic.loc ≤ keyword.loc) : Apart ⟨behind, stop, []⟩ reports := by
  intro error hlast token hmem
  have hle := hreports _ (List.mem_of_getLast? hlast)
  exact (hle.trans_lt (lt_of_mem_tokens h hmem)).ne'

end Places

/-! ## The second specification -/

theorem run_sequentialSpec_cons (hrest : session.rest = keyword :: behind) :
    (Grammar.sequentialSpec n).run session =
      if keyword.terminal = .keyword .sequential then
        (Grammar.sequentialBehind n keyword.loc).run { session with rest := behind }
      else .failed ⟨.expected .sequentialKeyword, keyword.terminal.describe, keyword.loc⟩ session := by
  have hnext : session.next = .lexeme keyword := by
    unfold Session.next
    rw [hrest]
  rw [Grammar.sequentialSpec_eq, Rule.here, Rule.run_look, hnext]
  simp only [Rule.run_bind, Rule.expect, Rule.run_accept, take?, hrest, Terminal.same?]
  by_cases hkeyword : keyword.terminal = .keyword .sequential
  · simp [hkeyword, Token.loc]
  · simp [hkeyword, Rule.failHere, hnext, Token.loc, Token.describe]

theorem readSequential_of_ne (hrest : session.rest = keyword :: behind)
    (hkeyword : keyword.terminal ≠ .keyword .sequential) :
    session.readSequential =
      (.error ⟨.expected .sequentialKeyword, keyword.terminal.describe, keyword.loc⟩, session) := by
  refine Outcome.of_injective ?_
  rw [← run_sequentialSpec (Nat.le_refl _), run_sequentialSpec_cons hrest, if_neg hkeyword]
  rfl

/-- Earlier diagnostics change nothing about a second specification, even if the last one is at the word that starts
    it. -/
theorem readSequential_after {earlier : List Diagnostic} (hrest : session.rest = keyword :: behind)
    (hkeyword : keyword.terminal = .keyword .sequential)
    (hapart : { session with rest := behind }.Apart earlier) :
    (session.after earlier).readSequential = (session.readSequential.1, session.readSequential.2.after earlier) := by
  have hcomposed : (Grammar.sequentialBehind (Grammar.budget session) keyword.loc).Composed False fun _ => True :=
    Grammar.sequentialBehind_composed _ _
  have hrun := hcomposed.run_after { session with rest := behind } trivial hapart
  have hbudget : Grammar.budget (session.after earlier) ≤ Grammar.budget session := Nat.le_refl _
  have hbare := @run_sequentialSpec_cons session (Grammar.budget session) behind keyword hrest
  have hwhole := @run_sequentialSpec_cons (session.after earlier) (Grammar.budget session) behind keyword hrest
  rw [if_pos hkeyword, run_sequentialSpec (Nat.le_refl _)] at hbare
  rw [if_pos hkeyword, run_sequentialSpec hbudget] at hwhole
  refine Outcome.of_injective ?_
  rw [hwhole, ← Outcome.after_of, hbare, ← hrun]
  rfl

/-- Behind a first specification that fails, all that the second one has to report on its own is reported. -/
theorem finish_of_broken_join {left : List Lexeme} {reports : List Diagnostic} {error : SyntaxError}
    (hjoin : session.readJoin = (.error error, ⟨left ++ keyword :: behind, stop, reports⟩))
    (hleft : ∀ lexeme ∈ left, lexeme.terminal ≠ .keyword .sequential)
    (hkeyword : keyword.terminal = .keyword .sequential) (hapart : Apart ⟨behind, stop, []⟩ reports) :
    session.finish =
      .error ⟨error, reports ++ (readSequential ⟨keyword :: behind, stop, []⟩).2.diagnostics ++
        match (readSequential ⟨keyword :: behind, stop, []⟩).1 with
        | .ok _ => []
        | .error own => [.syntactic own]⟩ := by
  let second : Session := ⟨keyword :: behind, stop, []⟩
  have hskip : Session.mk (Recovery.skipToSequential (left ++ keyword :: behind)) stop reports =
      second.after reports := by
    simp [Recovery.skipToSequential_append hleft hkeyword, after, second]
  rw [finish_of_readJoin_error hjoin, hskip, readSequential_after rfl hkeyword hapart]
  cases second.readSequential with
  | mk ended next => cases ended <;> simp [after]

end Session

namespace Reading

/-- Both readings come to the same second specification or to the same error, and their diagnostics behind `loc` are the
    same. -/
def AgreeBehind (loc : Location) : Except ReadFailure Reading → Except ReadFailure Reading → Prop
  | .ok reading, .ok other =>
    (∃ place join place' join' sequential, reading.program = .program place join sequential ∧
      other.program = .program place' join' sequential) ∧
      reading.diagnostics.filter (loc < ·.loc) = other.diagnostics.filter (loc < ·.loc)
  | .error failure, .error other =>
    failure.error = other.error ∧
      failure.diagnostics.filter (loc < ·.loc) = other.diagnostics.filter (loc < ·.loc)
  | _, _ => False

variable {session other mid : Session} {join join' : Tree} {reports : List Diagnostic} {loc : Location}

theorem filter_append_of_le (hreports : ∀ diagnostic ∈ reports, diagnostic.loc ≤ loc) (more : List Diagnostic) :
    (reports ++ more).filter (loc < ·.loc) = more.filter (loc < ·.loc) := by
  rw [List.filter_append, List.filter_eq_nil_iff.2, List.nil_append]
  intro diagnostic hmem
  simpa using hreports diagnostic hmem

/-- Two programs whose second specifications are read from the same place, the one behind reports of its own. -/
theorem agreeBehind_of_readJoin (h : session.readJoin = (.ok join, mid.after reports))
    (h' : other.readJoin = (.ok join', mid))
    (hafter : (mid.after reports).readSequential = (mid.readSequential.1, mid.readSequential.2.after reports))
    (hreports : ∀ diagnostic ∈ reports, diagnostic.loc ≤ loc) : AgreeBehind loc session.finish other.finish := by
  rw [Session.finish_of_readJoin_ok h, Session.finish_of_readJoin_ok h', hafter]
  cases mid.readSequential with
  | mk ended next =>
    cases ended with
    | error error => exact ⟨rfl, filter_append_of_le hreports _⟩
    | ok sequential =>
      have hend : (next.after reports).atEnd = next.atEnd := rfl
      simp only [hend]
      split
      · exact ⟨⟨_, _, _, _, sequential, rfl, rfl⟩, filter_append_of_le hreports _⟩
      · exact ⟨rfl, filter_append_of_le hreports _⟩

/-- The two specifications of a program are read apart, on either side of the word that starts the second one. What is
    read in front of the word is the same whatever follows the word, and exactly one of three things comes of it. A first
    specification that fails ends the program with its error, and the second one is read on its own for its errors. Where
    the first one goes up to the word, the second one is what it is behind any other first one. Where lexemes are left
    over, the program ends with an error at the first of them, and nothing behind the word is reported. -/
theorem halves_read_apart (before behind : List Lexeme) (keyword : Lexeme) (stop : Location)
    (hbefore : ∀ lexeme ∈ before, lexeme.terminal ≠ .keyword .sequential)
    (hkeyword : keyword.terminal = .keyword .sequential)
    (hincreasing : Increasing (before ++ keyword :: behind) stop) :
    let whole := before ++ keyword :: behind
    let second : Session := ⟨keyword :: behind, stop, []⟩
    ∃ ended left reports,
      Session.readJoin ⟨before ++ [keyword], keyword.loc, []⟩ = (ended, ⟨left ++ [keyword], keyword.loc, reports⟩) ∧
      Session.readJoin ⟨whole, stop, []⟩ = (ended, ⟨left ++ keyword :: behind, stop, reports⟩) ∧
      left <:+ before ∧
      match ended, left with
      | .error error, _ =>
        (∃ lexeme ∈ before ++ [keyword], error.Names (.lexeme lexeme)) ∧
          ofTokens (whole.map .lexeme ++ [.endOfInput stop]) =
            .error ⟨error, reports ++ second.readSequential.2.diagnostics ++
              match second.readSequential.1 with
              | .ok _ => []
              | .error own => [.syntactic own]⟩
      | .ok _, [] =>
        ∀ other join, Session.readJoin ⟨other ++ keyword :: behind, stop, []⟩ = (.ok join, second) →
          AgreeBehind keyword.loc (ofTokens (whole.map .lexeme ++ [.endOfInput stop]))
            (ofTokens ((other ++ keyword :: behind).map .lexeme ++ [.endOfInput stop]))
      | .ok _, leftover :: _ =>
        ofTokens (whole.map .lexeme ++ [.endOfInput stop]) =
            .error ⟨⟨.expected .sequentialKeyword, leftover.terminal.describe, leftover.loc⟩, reports⟩ ∧
          ∀ diagnostic ∈ reports, ∃ error, diagnostic = .syntactic error ∧
            ∃ lexeme ∈ before, error.Names (.lexeme lexeme) := by
  intro whole second
  obtain ⟨ended, left, reports, hfirst, hwhole, hleft⟩ := Session.exists_readJoin before behind stop hkeyword
  refine ⟨ended, left, reports, hfirst, hwhole, hleft, ?_⟩
  have hstart : Session.Increases ⟨whole, stop, []⟩ := hincreasing
  have hordered := Session.readJoin_ordered (hstart.orderedUpTo rfl)
  have hfaithful := Session.readJoin_faithful ⟨whole, stop, []⟩
  rw [hwhole] at hordered hfaithful
  unfold ofTokens
  simp only [Session.ofTokens_lexemes]
  cases ended with
  | error error =>
    have hmid : Session.OrderedUpTo ⟨left ++ keyword :: behind, stop, reports⟩ error.loc := hordered
    have hle : error.loc ≤ keyword.loc := hmid.ahead.trans (hmid.increases.next_le keyword.loc (by simp))
    have hapart := Session.apart_of_le hincreasing fun diagnostic hmem => (hmid.upTo diagnostic hmem).trans hle
    exact ⟨hfaithful.2.exists_lexeme hincreasing hle,
      Session.finish_of_broken_join hwhole (fun lexeme hmem => hbefore lexeme (hleft.subset hmem)) hkeyword hapart⟩
  | ok join =>
  cases left with
  | nil =>
    intro other otherJoin hother
    have hmid : Session.OrderedUpTo ⟨keyword :: behind, stop, reports⟩ keyword.loc := hordered
    have hafter := @Session.readSequential_after second behind keyword reports rfl hkeyword
      (Session.apart_of_le hincreasing hmid.upTo)
    have hsecond : Session.readJoin ⟨whole, stop, []⟩ = (.ok join, second.after reports) := by
      simpa [Session.after, second] using hwhole
    exact agreeBehind_of_readJoin hsecond hother hafter hmid.upTo
  | cons leftover more =>
    have hmid : Session.OrderedUpTo ⟨leftover :: more ++ keyword :: behind, stop, reports⟩ leftover.loc := hordered
    have hmem : leftover ∈ before := hleft.subset List.mem_cons_self
    have hlt : leftover.loc < keyword.loc := (increasing_cons.1 hmid.increases).1 keyword.loc (by simp)
    constructor
    · rw [Session.finish_of_readJoin_ok hwhole, Session.readSequential_of_ne rfl (hbefore leftover hmem)]
    · intro diagnostic hdiagnostic
      obtain ⟨errors, herrors, hmeets⟩ := Session.ReportsTo.reports hfaithful
      have hle := hmid.upTo diagnostic hdiagnostic
      simp only [List.nil_append] at herrors
      obtain ⟨error, hmemError, rfl⟩ := List.mem_map.1 (herrors ▸ hdiagnostic)
      obtain ⟨lexeme, hlexeme, hnames⟩ := (hmeets error hmemError).exists_lexeme hincreasing (hle.trans hlt.le)
      refine ⟨error, rfl, lexeme, (List.mem_append.1 hlexeme).resolve_right fun hkey => ?_, hnames⟩
      rw [List.mem_singleton.1 hkey] at hnames
      exact (hle.trans_lt hlt).ne hnames.loc

/-- The bar is missing between the arguments of the first specification, and an expression in the second one. -/
theorem second_half_read_behind_missing_pipe :
    let before : List Lexeme := List.mapIdx (fun i terminal => ⟨terminal, ⟨1, i + 1⟩⟩)
      [.keyword .join, .mark .openParen, .keyword .int, .identifier "a", .mark .closeParen]
    let keyword : Lexeme := ⟨.keyword .sequential, ⟨2, 1⟩⟩
    let behind : List Lexeme := List.mapIdx (fun i terminal => ⟨terminal, ⟨2, i + 2⟩⟩)
      [.mark .openParen, .mark .closeParen, .keyword .returns, .mark .openParen, .mark .closeParen,
        .keyword .locals, .mark .openParen, .mark .closeParen,
        .mark .openBrace, .identifier "b", .mark .equal, .mark .semicolon, .mark .closeBrace]
    (∀ lexeme ∈ before, lexeme.terminal ≠ .keyword .sequential) ∧
      keyword.terminal = .keyword .sequential ∧
      Increasing (before ++ keyword :: behind) ⟨2, 15⟩ ∧
      ofTokens ((before ++ keyword :: behind).map .lexeme ++ [.endOfInput ⟨2, 15⟩]) =
        .error ⟨⟨.expected .pipeBetweenArguments, "')'", ⟨1, 5⟩⟩,
          [.syntactic ⟨.expected .expression, "';'", ⟨2, 13⟩⟩]⟩ := by
  intro before keyword behind
  have hbefore : ∀ lexeme ∈ before, lexeme.terminal ≠ .keyword .sequential := by
    simp [before]
  have hincreasing : Increasing (before ++ keyword :: behind) ⟨2, 15⟩ := by decide
  refine ⟨hbefore, rfl, hincreasing, ?_⟩
  obtain ⟨ended, left, reports, hfirst, -, -, hcase⟩ :=
    halves_read_apart before behind keyword ⟨2, 15⟩ hbefore rfl hincreasing
  have hread : Session.readJoin ⟨before ++ [keyword], keyword.loc, []⟩ =
      (.error ⟨.expected .pipeBetweenArguments, "')'", ⟨1, 5⟩⟩,
        ⟨[⟨.mark .closeParen, ⟨1, 5⟩⟩] ++ [keyword], keyword.loc, []⟩) := rfl
  obtain ⟨hended, hnext⟩ := Prod.mk.inj (hread.symm.trans hfirst)
  cases hended
  have hreports : [] = reports := congrArg Session.diagnostics hnext
  cases hreports
  exact hcase.2

end Reading

end RoutineSpec
