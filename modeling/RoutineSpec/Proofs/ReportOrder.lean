import RoutineSpec.Proofs.Acceptance
import RoutineSpec.Proofs.LocationOrder
import RoutineSpec.Proofs.Reports

/-! # The order of reports

Reading reports in the order of the text, and nothing twice. Where a repair scans a statement once more, it goes on no
earlier than where the statement failed, so no later report is in front of an earlier one.
-/

namespace RoutineSpec

namespace Session

/-- Syntax errors have been reported in the order of their places, and none of them behind `loc`, which is not behind
    what comes next. -/
structure OrderedUpTo (session : Session) (loc : Location) : Prop where
  increases : session.Increases
  ahead : loc ≤ session.next.loc
  syntactic : ∀ diagnostic ∈ session.diagnostics, ∃ error, diagnostic = .syntactic error
  increasing : (session.diagnostics.map Diagnostic.loc).Pairwise (· < ·)
  upTo : ∀ diagnostic ∈ session.diagnostics, diagnostic.loc ≤ loc

variable {session next : Session} {loc : Location} {error : SyntaxError}

theorem Increases.next_le_of_suffix (h : session.Increases) {rest : List Lexeme} (hrest : rest <:+ session.rest) :
    session.next.loc ≤ { session with rest := rest }.next.loc := by
  obtain ⟨span, hspan⟩ := hrest
  refine h.next_le _ ?_
  rw [← hspan]
  unfold Session.next
  cases rest <;> simp [Token.loc]

/-- Before anything is reported, what comes next is all that counts. -/
theorem Increases.orderedUpTo (h : session.Increases) (hclean : session.diagnostics = []) :
    session.OrderedUpTo session.next.loc where
  increases := h
  ahead := le_refl _
  syntactic := by simp [hclean]
  increasing := by simp [hclean]
  upTo := by simp [hclean]

namespace OrderedUpTo

theorem skip (h : session.OrderedUpTo loc) {rest : List Lexeme} (hrest : rest <:+ session.rest) :
    { session with rest := rest }.OrderedUpTo { session with rest := rest }.next.loc := by
  have hnext := h.increases.next_le_of_suffix hrest
  obtain ⟨span, hspan⟩ := hrest
  have hincreases : Increasing (span ++ rest) session.stop := by
    rw [hspan]
    exact h.increases
  exact {
    increases := hincreases.of_append
    ahead := le_refl _
    syntactic := h.syntactic
    increasing := h.increasing
    upTo := fun diagnostic hmem => (h.upTo diagnostic hmem).trans (h.ahead.trans hnext) }

/-- Where the last report is not at `loc`, all of them are in front of it. -/
theorem lt_of_not_justReportedAt (h : session.OrderedUpTo loc) (hjust : ¬ session.justReportedAt loc = true) :
    ∀ diagnostic ∈ session.diagnostics, diagnostic.loc < loc := by
  intro diagnostic hmem
  refine lt_of_le_of_ne (h.upTo diagnostic hmem) fun heq => hjust ?_
  cases hlast : session.diagnostics.getLast? with
  | none => simp [List.getLast?_eq_none_iff.1 hlast] at hmem
  | some last =>
    obtain ⟨front, hfront⟩ := List.getLast?_eq_some_iff.1 hlast
    have hmemLast : last ∈ session.diagnostics := List.mem_of_getLast? hlast
    have hle : diagnostic.loc ≤ last.loc := by
      have hincreasing := h.increasing
      rw [hfront] at hmem hincreasing
      rcases List.mem_append.1 hmem with hearly | hlate
      · rw [List.map_append, List.pairwise_append] at hincreasing
        exact (hincreasing.2.2 _ (List.mem_map_of_mem hearly) _ (by simp)).le
      · rw [List.mem_singleton.1 hlate]
    obtain ⟨error, rfl⟩ := h.syntactic last hmemLast
    have hloc : error.loc = loc := le_antisymm (h.upTo _ hmemLast) (heq ▸ hle)
    simp [justReportedAt, hlast, hloc]

theorem report (h : session.OrderedUpTo error.loc) : (session.report error).OrderedUpTo error.loc := by
  unfold Session.report
  split
  · exact h
  · next hjust =>
    have hbefore := h.lt_of_not_justReportedAt hjust
    exact {
      increases := h.increases
      ahead := h.ahead
      syntactic := by
        simp only [record, List.forall_mem_append, List.forall_mem_singleton]
        exact ⟨h.syntactic, error, rfl⟩
      increasing := by
        simp only [record, List.map_append, List.pairwise_append, List.forall_mem_map]
        exact ⟨h.increasing, List.pairwise_singleton _ _, fun diagnostic hmem other hother =>
          List.mem_singleton.1 hother ▸ hbefore diagnostic hmem⟩
      upTo := by
        simp only [record, List.forall_mem_append, List.forall_mem_singleton]
        exact ⟨h.upTo, le_refl _⟩ }

end OrderedUpTo

end Session

/-- However the reading ends, the reports are in order. Where it fails, none of them is behind the error. -/
def Outcome.Ordered {α : Type} : Outcome α → Prop
  | .done _ next => next.OrderedUpTo next.next.loc
  | .failed error next => next.OrderedUpTo error.loc
  | .exhausted => True

namespace Rule

variable {α β : Type} {crosses : Prop} {ahead : Token → Prop} {session : Session}

theorem ordered_bind {rule : Rule α} {follow : α → Rule β} (h : (rule.run session).Ordered)
    (hfollow : ∀ value next, next.OrderedUpTo next.next.loc → ((follow value).run next).Ordered) :
    ((rule >>= follow).run session).Ordered := by
  rw [run_bind]
  cases hrule : rule.run session with
  | exhausted => trivial
  | failed error next =>
    rw [hrule] at h
    exact h
  | done value next =>
    rw [hrule] at h
    exact hfollow value next h

theorem ordered_take? (select : Terminal → Option α) (h : session.OrderedUpTo session.next.loc) :
    ((take? select).run session).Ordered := by
  rw [run_take?]
  cases htake : session.take? select with
  | none => exact h
  | some taken =>
    obtain ⟨⟨found, loc⟩, next⟩ := taken
    obtain ⟨terminal, rest, hrest, -, rfl⟩ := Session.take?_eq_some_iff.1 htake
    exact h.skip (hrest ▸ List.suffix_cons _ _)

theorem ordered_increment (h : session.OrderedUpTo session.next.loc) : (Grammar.increment.run session).Ordered := by
  rw [Grammar.run_increment]
  cases Grammar.increment? session.rest with
  | none => exact h
  | some tree => exact h.skip (List.drop_suffix _ _)

/-- A guard is read without a report, so a complaint about its first token is behind all reports. -/
theorem ordered_guard {n : Nat} (hstart : session.OrderedUpTo session.next.loc)
    (h : ((Grammar.binary n Precedence.ladder).run session).Ordered) : ((Grammar.guard n).run session).Ordered := by
  rw [Grammar.run_guard]
  cases hbinary : (Grammar.binary n Precedence.ladder).run session with
  | exhausted => trivial
  | failed error next =>
    rw [hbinary] at h
    exact h
  | done tree next =>
    rw [hbinary] at h
    simp only
    split
    · exact h
    · obtain ⟨span, rfl, -⟩ := Grammar.binary_sound hbinary
      exact { h with
        ahead := hstart.increases.next_le_of_suffix (List.suffix_append _ _)
        upTo := hstart.upTo }

theorem ordered_recovering {rule : Rule α} {skip : List Lexeme → List Lexeme} {kept : α → β} {left : β}
    (h : (rule.run session).Ordered)
    (hback : ∀ {error next}, rule.run session = .failed error next → skip next.rest <:+ next.rest) :
    ((recovering rule skip kept left).run session).Ordered := by
  rw [run_recovering]
  cases hrule : rule.run session with
  | exhausted => trivial
  | done value next =>
    rw [hrule] at h
    exact h
  | failed error next =>
    rw [hrule] at h
    have hskip := hback hrule
    rw [← rest_report next error] at hskip
    exact h.report.skip hskip

theorem Composed.ordered {rule : Rule α} (h : rule.Composed crosses ahead) :
    ∀ session, ahead session.next → session.OrderedUpTo session.next.loc → (rule.run session).Ordered := by
  induction h with
  | pure | failHere => exact fun _ _ hordered => hordered
  | exhausted => exact fun _ _ _ => trivial
  | bind _ _ ih ihfollow =>
    exact fun session hahead hordered => ordered_bind (ih session hahead hordered) fun value next =>
      ihfollow value next trivial
  | look _ _ ih => exact fun session hahead hordered => ih session hahead session rfl hordered
  | take? _ => exact fun _ _ hordered => ordered_take? _ hordered
  | increment => exact fun _ _ hordered => ordered_increment hordered
  | guard n _ ih => exact fun session hahead hordered => ordered_guard hordered (ih session hahead hordered)
  | recovering _ _ hback _ ih =>
    exact fun session hahead hordered => ordered_recovering (ih session hahead hordered) hback

end Rule

/-- The reports are in the order of their places. Where the reading is done, no two of them are at one place. -/
def Outcome.InOrder {α : Type} : Outcome α → Prop
  | .done _ next => (next.diagnostics.map Diagnostic.loc).Pairwise (· < ·)
  | .failed _ next => (next.diagnostics.map Diagnostic.loc).Pairwise (· ≤ ·)
  | .exhausted => True

theorem Outcome.Ordered.inOrder {α : Type} : ∀ {outcome : Outcome α}, outcome.Ordered → outcome.InOrder
  | .done _ _, h => Session.OrderedUpTo.increasing h
  | .failed _ _, h => (Session.OrderedUpTo.increasing h).imp le_of_lt
  | .exhausted, _ => trivial

namespace Grammar

open Rule

variable {session : Session} {error : SyntaxError}

/-- What ends the second specification is recorded last, even at the place of the report before it. -/
theorem brokenProgram_inOrder (n : Nat) (h : session.OrderedUpTo error.loc) :
    ((brokenProgram n error).run session).InOrder := by
  have hcomposed : (sequentialSpec n).Composed True fun _ => True := sequentialSpec_composed n trivial
  have hsequential := hcomposed.ordered _ trivial (h.skip (Recovery.skipToSequential_suffix session.rest))
  rw [run_brokenProgram]
  cases hrun : (sequentialSpec n).run { session with rest := Recovery.skipToSequential session.rest } with
  | exhausted => trivial
  | done tree last =>
    rw [hrun] at hsequential
    exact (Session.OrderedUpTo.increasing hsequential).imp le_of_lt
  | failed second last =>
    rw [hrun] at hsequential
    simp only [Outcome.InOrder, Session.record, List.map_append, List.pairwise_append, List.forall_mem_map]
    exact ⟨(Session.OrderedUpTo.increasing hsequential).imp le_of_lt, List.pairwise_singleton _ _,
      fun diagnostic hmem other hother => List.mem_singleton.1 hother ▸ hsequential.upTo diagnostic hmem⟩

theorem program_inOrder (n : Nat) (h : session.OrderedUpTo session.next.loc) :
    ((program n).run session).InOrder := by
  have hcomposed : (joinSpec n).Composed False fun _ => True := joinSpec_composed n
  have hjoin := hcomposed.ordered session trivial h
  rw [run_program]
  cases hrun : (joinSpec n).run session with
  | exhausted => trivial
  | done join mid =>
    rw [hrun] at hjoin
    have hbehind : (programBehind n session.next.loc join).Composed True fun _ => True :=
      programBehind_composed n trivial _ join
    exact (hbehind.ordered mid trivial hjoin).inOrder
  | failed error mid =>
    rw [hrun] at hjoin
    exact brokenProgram_inOrder n hjoin

end Grammar

namespace Reading

/-- The lexical errors of a source text are reported first, and then syntax errors. Each of these, and the error that
    ends a reading, is about one token of the text, at its place. They are in the order of the text, and where a
    program is read, no two of them are at one place. -/
theorem ofSource_reports_in_order (policy : DecimalPolicy) (source : String) :
    let scan := Scan.of policy source
    ∃ errors : List SyntaxError,
      match ofSource policy source with
      | .ok reading =>
        reading.diagnostics = scan.errors.map .lexical ++ errors.map .syntactic ∧
          (∀ error ∈ errors, ∃ token ∈ scan.tokens, error.Names token) ∧
          (errors.map SyntaxError.loc).Pairwise (· < ·)
      | .error failure =>
        failure.diagnostics = scan.errors.map .lexical ++ errors.map .syntactic ∧
          (∀ error ∈ failure.error :: errors, ∃ token ∈ scan.tokens, error.Names token) ∧
          (errors.map SyntaxError.loc).Pairwise (· ≤ ·) := by
  intro scan
  let session : Session := ⟨scan.lexemes, scan.stop, []⟩
  have hstart : session.Increases := Scan.increasing_of policy source
  have hapart : session.Apart (scan.errors.map .lexical) := by
    intro error hlast
    have := List.mem_of_getLast? hlast
    simp at this
  have hfaithful := Grammar.program_faithful (Grammar.budget session) session
  have hinOrder := Grammar.program_inOrder (Grammar.budget session) (hstart.orderedUpTo rfl)
  have hsource : Session.ofSource policy source = session.after (scan.errors.map .lexical) := by
    simp [Session.ofSource_eq, Session.after, session, scan]
  have hread := Session.readProgram_after hapart
  rw [← hsource] at hread
  unfold ofSource Session.finish
  rw [hread]
  obtain ⟨program, next, hrun, hbare⟩ | ⟨error, next, hrun, hbare⟩ := session.readProgram_cases
  · rw [hrun] at hfaithful hinOrder
    obtain ⟨errors, hdiagnostics, hnames⟩ := Session.ReportsTo.reports hfaithful
    have hinOrder : (next.diagnostics.map Diagnostic.loc).Pairwise (· < ·) := hinOrder
    rw [hdiagnostics, List.nil_append, List.map_map] at hinOrder
    rw [hbare]
    exact ⟨errors, congrArg _ hdiagnostics, hnames, hinOrder⟩
  · rw [hrun] at hfaithful hinOrder
    obtain ⟨errors, hdiagnostics, hnames⟩ := hfaithful.1.reports
    have hinOrder : (next.diagnostics.map Diagnostic.loc).Pairwise (· ≤ ·) := hinOrder
    rw [hdiagnostics, List.nil_append, List.map_map] at hinOrder
    rw [hbare]
    exact ⟨errors, congrArg _ hdiagnostics, List.forall_mem_cons.2 ⟨hfaithful.2, hnames⟩, hinOrder⟩

end Reading

end RoutineSpec
