import RoutineSpec.Proofs.Composed
import RoutineSpec.Reading

/-! # What is reported

Every report is about a token of the stream: it is at the place of the token and says what is found there. What has
been reported before changes nothing about a reading, unless a report at the same place has just been made.
-/

namespace RoutineSpec

/-- The error is at the place of the token, and says that the token is found there. -/
structure SyntaxError.Names (error : SyntaxError) (token : Token) : Prop where
  loc : error.loc = token.loc
  found : error.found = token.describe

namespace Session

/-- What is left to read, with the end of input behind it. -/
def tokens (session : Session) : List Token :=
  session.rest.map .lexeme ++ [.endOfInput session.stop]

/-- The error is about a token that is left to read. -/
def Meets (session : Session) (error : SyntaxError) : Prop :=
  ∃ token ∈ session.tokens, error.Names token

/-- What is reported between `session` and `next` is about what was left to read. -/
structure ReportsTo (session next : Session) : Prop extends session.AdvancesTo next where
  reports : ∃ errors : List SyntaxError, next.diagnostics = session.diagnostics ++ errors.map .syntactic ∧
    ∀ error ∈ errors, session.Meets error

variable {session mid next : Session} {error : SyntaxError}

theorem next_mem_tokens (session : Session) : session.next ∈ session.tokens := by
  unfold Session.next tokens
  cases session.rest <;> simp

theorem Meets.mono (h : mid.Meets error) (htokens : mid.tokens ⊆ session.tokens) : session.Meets error := by
  obtain ⟨token, hmem, hnames⟩ := h
  exact ⟨token, htokens hmem, hnames⟩

namespace ReportsTo

theorem tokens (h : session.ReportsTo next) : next.tokens ⊆ session.tokens := by
  obtain ⟨span, hspan⟩ := h.rest
  simp only [Session.tokens, ← hspan, h.stop, List.map_append, List.append_assoc]
  exact List.subset_append_right _ _

theorem refl (session : Session) : session.ReportsTo session where
  toAdvancesTo := .refl session
  reports := ⟨[], by simp, by simp⟩

theorem trans (h : session.ReportsTo mid) (h' : mid.ReportsTo next) : session.ReportsTo next where
  toAdvancesTo := h.toAdvancesTo.trans h'.toAdvancesTo
  reports := by
    obtain ⟨errors, herrors, hmeets⟩ := h.reports
    obtain ⟨more, hmore, hmeets'⟩ := h'.reports
    refine ⟨errors ++ more, by simp [hmore, herrors], fun error hmem => ?_⟩
    rcases List.mem_append.1 hmem with hearly | hlate
    · exact hmeets error hearly
    · exact (hmeets' error hlate).mono h.tokens

theorem skip {rest : List Lexeme} (h : rest <:+ session.rest) : session.ReportsTo { session with rest := rest } where
  toAdvancesTo := .skip h
  reports := ⟨[], by simp, by simp⟩

theorem unread (session : Session) (span : List Lexeme) : (session.unread span).ReportsTo session :=
  @skip (session.unread span) _ (List.suffix_append _ _)

theorem record (h : session.ReportsTo next) (hmeets : session.Meets error) :
    session.ReportsTo (next.record (.syntactic error)) where
  toAdvancesTo := h.toAdvancesTo.trans (.record next _)
  reports := by
    obtain ⟨errors, herrors, hall⟩ := h.reports
    refine ⟨errors ++ [error], by simp [Session.record, herrors], fun other hmem => ?_⟩
    rcases List.mem_append.1 hmem with hearly | hlate
    · exact hall other hearly
    · exact List.mem_singleton.1 hlate ▸ hmeets

theorem report (h : session.ReportsTo next) (hmeets : session.Meets error) :
    session.ReportsTo (next.report error) := by
  unfold Session.report
  split
  · exact h
  · exact h.record hmeets

end ReportsTo

end Session

/-- However the reading from the session ends, all that is complained about is about what was left to read. -/
def Outcome.Faithful {α : Type} (session : Session) : Outcome α → Prop
  | .done _ next => session.ReportsTo next
  | .failed error next => session.ReportsTo next ∧ session.Meets error
  | .exhausted => True

/-- What is read behind a session is about what was left to read before it. -/
theorem Outcome.Faithful.behind {α : Type} {session mid : Session} (h : session.ReportsTo mid) :
    ∀ {outcome : Outcome α}, outcome.Faithful mid → outcome.Faithful session
  | .done _ _, hrest => h.trans hrest
  | .failed _ _, hrest => ⟨h.trans hrest.1, hrest.2.mono h.tokens⟩
  | .exhausted, _ => trivial

namespace Rule

variable {α β : Type} {crosses : Prop} {ahead : Token → Prop}

theorem faithful_failHere (what : Expectation) (session : Session) :
    ((failHere what : Rule α).run session).Faithful session :=
  ⟨.refl session, session.next, session.next_mem_tokens, rfl, rfl⟩

theorem faithful_bind {rule : Rule α} {follow : α → Rule β} {session : Session}
    (h : (rule.run session).Faithful session) (hfollow : ∀ value next, ((follow value).run next).Faithful next) :
    ((rule >>= follow).run session).Faithful session := by
  rw [run_bind]
  cases hrule : rule.run session with
  | exhausted => trivial
  | failed error next =>
    rw [hrule] at h
    exact h
  | done value mid =>
    rw [hrule] at h
    exact .behind h (hfollow value mid)

theorem faithful_take? (select : Terminal → Option α) (session : Session) :
    ((take? select).run session).Faithful session := by
  rw [run_take?]
  cases htake : session.take? select with
  | none => exact .refl session
  | some taken =>
    obtain ⟨⟨found, loc⟩, next⟩ := taken
    obtain ⟨terminal, -, rfl⟩ := Session.eq_unread_of_take? htake
    exact .unread next _

theorem faithful_increment (session : Session) : (Grammar.increment.run session).Faithful session := by
  rw [Grammar.run_increment]
  cases Grammar.increment? session.rest with
  | none => exact .refl session
  | some tree => exact .skip (List.drop_suffix _ _)

/-- A complaint about a guard is about the first token of the guard. -/
theorem faithful_guard {n : Nat} {session : Session}
    (h : ((Grammar.binary n Precedence.ladder).run session).Faithful session) :
    ((Grammar.guard n).run session).Faithful session := by
  rw [Grammar.run_guard]
  cases hbinary : (Grammar.binary n Precedence.ladder).run session with
  | exhausted => trivial
  | failed error next =>
    rw [hbinary] at h
    exact h
  | done tree next =>
    rw [hbinary] at h
    simp only
    split
    · exact h
    · exact ⟨h, session.next, session.next_mem_tokens, rfl, rfl⟩

theorem faithful_recovering {rule : Rule α} {skip : List Lexeme → List Lexeme} {kept : α → β} {left : β}
    {session : Session} (h : (rule.run session).Faithful session)
    (hback : ∀ {error next}, rule.run session = .failed error next → skip next.rest <:+ next.rest) :
    ((recovering rule skip kept left).run session).Faithful session := by
  rw [run_recovering]
  cases hrule : rule.run session with
  | exhausted => trivial
  | done value next =>
    rw [hrule] at h
    exact h
  | failed error next =>
    rw [hrule] at h
    have hskip := hback hrule
    rw [← rest_report next error] at hskip
    exact (h.1.report h.2).trans (.skip hskip)

theorem Composed.faithful {rule : Rule α} (h : rule.Composed crosses ahead) :
    ∀ session, ahead session.next → (rule.run session).Faithful session := by
  induction h with
  | pure value => exact fun session _ => .refl session
  | exhausted => exact fun _ _ => trivial
  | failHere what => exact fun session _ => faithful_failHere what session
  | bind _ _ ih ihfollow =>
    exact fun session hahead => faithful_bind (ih session hahead) fun value next => ihfollow value next trivial
  | look _ _ ih => exact fun session hahead => ih session hahead session rfl
  | take? _ => exact fun session _ => faithful_take? _ session
  | increment => exact fun session _ => faithful_increment session
  | guard n _ ih => exact fun session hahead => faithful_guard (ih session hahead)
  | recovering _ _ hback _ ih => exact fun session hahead => faithful_recovering (ih session hahead) hback

end Rule

/-! ## Earlier diagnostics -/

namespace Session

/-- The session with diagnostics from before it. -/
def after (session : Session) (before : List Diagnostic) : Session :=
  { session with diagnostics := before ++ session.diagnostics }

/-- The last of the earlier diagnostics is no syntax error at the place of a token that is left to read. -/
def Apart (session : Session) (before : List Diagnostic) : Prop :=
  ∀ error, before.getLast? = some (.syntactic error) → ∀ token ∈ session.tokens, token.loc ≠ error.loc

variable {session next : Session} {before : List Diagnostic} {error : SyntaxError}

@[simp] theorem rest_after : (session.after before).rest = session.rest := rfl

@[simp] theorem next_after : (session.after before).next = session.next := rfl

theorem Apart.mono (h : session.Apart before) (htokens : next.tokens ⊆ session.tokens) : next.Apart before :=
  fun error hlast token hmem => h error hlast token (htokens hmem)

theorem report_after (h : session.Apart before) (hmeets : session.Meets error) (next : Session) :
    (next.after before).report error = (next.report error).after before := by
  have hjust : (next.after before).justReportedAt error.loc = next.justReportedAt error.loc := by
    unfold justReportedAt after
    rw [List.getLast?_append]
    cases hlast : next.diagnostics.getLast? with
    | some last => rfl
    | none =>
      obtain ⟨token, hmem, hnames⟩ := hmeets
      cases hbefore : before.getLast? with
      | none => rfl
      | some last =>
        cases last with
        | lexical => rfl
        | syntactic earlier =>
          have := h earlier hbefore token hmem
          rw [← hnames.loc] at this
          simpa using Ne.symm this
  unfold report
  rw [hjust]
  split
  · rfl
  · simp [record, after]

end Session

/-- What the reading comes to if there are diagnostics from before it. -/
def Outcome.after {α : Type} (before : List Diagnostic) : Outcome α → Outcome α
  | .done value next => .done value (next.after before)
  | .failed error next => .failed error (next.after before)
  | .exhausted => .exhausted

namespace Rule

variable {α β : Type} {crosses : Prop} {ahead : Token → Prop} {session : Session} {before : List Diagnostic}

theorem after_bind {rule : Rule α} {follow : α → Rule β}
    (h : rule.run (session.after before) = (rule.run session).after before)
    (hfollow : ∀ {value next}, rule.run session = .done value next →
      (follow value).run (next.after before) = ((follow value).run next).after before) :
    (rule >>= follow).run (session.after before) = ((rule >>= follow).run session).after before := by
  rw [run_bind, run_bind, h]
  cases hrule : rule.run session with
  | done value next => exact hfollow hrule
  | failed | exhausted => rfl

theorem after_take? (select : Terminal → Option α) :
    (take? select).run (session.after before) = ((take? select).run session).after before := by
  rw [run_take?, run_take?]
  unfold Session.take?
  rw [Session.rest_after]
  cases session.rest with
  | nil => rfl
  | cons lexeme rest => cases hselect : select lexeme.terminal <;> simp [hselect, Outcome.after, Session.after]

theorem after_increment :
    Grammar.increment.run (session.after before) = (Grammar.increment.run session).after before := by
  rw [Grammar.run_increment, Grammar.run_increment, Session.rest_after]
  cases Grammar.increment? session.rest <;> rfl

theorem after_guard {n : Nat}
    (h : (Grammar.binary n Precedence.ladder).run (session.after before) =
      ((Grammar.binary n Precedence.ladder).run session).after before) :
    (Grammar.guard n).run (session.after before) = ((Grammar.guard n).run session).after before := by
  rw [Grammar.run_guard, Grammar.run_guard, h]
  cases (Grammar.binary n Precedence.ladder).run session with
  | failed | exhausted => rfl
  | done tree next =>
    simp only [Outcome.after, Session.next_after]
    split <;> rfl

theorem after_recovering {rule : Rule α} {skip : List Lexeme → List Lexeme} {kept : α → β} {left : β}
    (h : rule.run (session.after before) = (rule.run session).after before) (hapart : session.Apart before)
    (hfaithful : (rule.run session).Faithful session) :
    (recovering rule skip kept left).run (session.after before) =
      ((recovering rule skip kept left).run session).after before := by
  rw [run_recovering, run_recovering, h]
  cases hrule : rule.run session with
  | done | exhausted => rfl
  | failed error next =>
    rw [hrule] at hfaithful
    simp only [Outcome.after]
    rw [Session.report_after hapart hfaithful.2]
    rfl

/-- Diagnostics from before a reading change nothing about it. -/
theorem Composed.run_after {rule : Rule α} (h : rule.Composed crosses ahead) :
    ∀ session : Session, ahead session.next → session.Apart before →
      rule.run (session.after before) = (rule.run session).after before := by
  induction h with
  | pure | exhausted | failHere => exact fun _ _ _ => rfl
  | bind hrule _ ih ihfollow =>
    intro session hahead hapart
    refine after_bind (ih session hahead hapart) fun {value next} hdone => ?_
    have hfaithful := hrule.faithful session hahead
    rw [hdone] at hfaithful
    exact ihfollow value next trivial (hapart.mono (Session.ReportsTo.tokens hfaithful))
  | @look _ _ _ view _ hview _ ih =>
    intro session hahead hapart
    have hsame : view (session.after before) = view session := hview Session.next_after
    rw [run_look, run_look, hsame]
    exact ih session hahead session rfl hapart
  | take? => exact fun _ _ _ => after_take? _
  | increment => exact fun _ _ _ => after_increment
  | guard n _ ih => exact fun session hahead hapart => after_guard (ih session hahead hapart)
  | recovering _ hrule _ _ ih =>
    intro session hahead hapart
    exact after_recovering (ih session hahead hapart) hapart (hrule.faithful session hahead)

end Rule

namespace Grammar

open Rule

variable {n : Nat} {session next : Session} {before : List Diagnostic}

theorem joinSpec_faithful (n : Nat) (session : Session) : ((joinSpec n).run session).Faithful session :=
  (joinSpec_composed n : (joinSpec n).Composed False fun _ => True).faithful session trivial

theorem sequentialSpec_faithful (n : Nat) (session : Session) : ((sequentialSpec n).run session).Faithful session :=
  (sequentialSpec_composed n trivial : (sequentialSpec n).Composed True fun _ => True).faithful session trivial

theorem programBehind_faithful (n : Nat) (loc : Location) (join : Tree) (session : Session) :
    ((programBehind n loc join).run session).Faithful session :=
  (programBehind_composed n trivial loc join : (programBehind n loc join).Composed True fun _ => True).faithful
    session trivial

theorem brokenProgram_faithful {error : SyntaxError} (h : session.ReportsTo next) (hmeets : session.Meets error) :
    ((brokenProgram n error).run next).Faithful session := by
  have hskip := h.trans (.skip (Recovery.skipToSequential_suffix next.rest))
  have hsequential := sequentialSpec_faithful n { next with rest := Recovery.skipToSequential next.rest }
  rw [run_brokenProgram]
  cases hrun : (sequentialSpec n).run { next with rest := Recovery.skipToSequential next.rest } with
  | exhausted => trivial
  | done tree last =>
    rw [hrun] at hsequential
    exact ⟨hskip.trans hsequential, hmeets⟩
  | failed second last =>
    rw [hrun] at hsequential
    exact ⟨(hskip.trans hsequential.1).record (hsequential.2.mono hskip.tokens), hmeets⟩

/-- All that is complained about in a program is about what was left to read. -/
theorem program_faithful (n : Nat) (session : Session) : ((program n).run session).Faithful session := by
  have hjoin := joinSpec_faithful n session
  rw [run_program]
  cases hrun : (joinSpec n).run session with
  | exhausted => trivial
  | done join mid =>
    rw [hrun] at hjoin
    exact .behind hjoin (programBehind_faithful n session.next.loc join mid)
  | failed error mid =>
    rw [hrun] at hjoin
    exact brokenProgram_faithful hjoin.1 hjoin.2

theorem brokenProgram_after {error : SyntaxError} (h : next.Apart before) :
    (brokenProgram n error).run (next.after before) = ((brokenProgram n error).run next).after before := by
  have hcomposed : (sequentialSpec n).Composed True fun _ => True := sequentialSpec_composed n trivial
  have hapart := h.mono (Session.ReportsTo.skip (Recovery.skipToSequential_suffix next.rest)).tokens
  have hskip : { next.after before with rest := Recovery.skipToSequential (next.after before).rest } =
      Session.after { next with rest := Recovery.skipToSequential next.rest } before := rfl
  rw [run_brokenProgram, run_brokenProgram, hskip, hcomposed.run_after _ trivial hapart]
  cases (sequentialSpec n).run { next with rest := Recovery.skipToSequential next.rest } with
  | done | exhausted => rfl
  | failed second last => simp [Outcome.after, Session.after, Session.record]

/-- Earlier diagnostics change nothing about the reading of a program. -/
theorem program_after (h : session.Apart before) :
    (program n).run (session.after before) = ((program n).run session).after before := by
  have hcomposed : (joinSpec n).Composed False fun _ => True := joinSpec_composed n
  have hjoin := joinSpec_faithful n session
  rw [run_program, run_program, hcomposed.run_after session trivial h]
  cases hrun : (joinSpec n).run session with
  | exhausted => rfl
  | done join mid =>
    rw [hrun] at hjoin
    have hbehind : (programBehind n session.next.loc join).Composed True fun _ => True :=
      programBehind_composed n trivial _ join
    exact hbehind.run_after mid trivial (h.mono (Session.ReportsTo.tokens hjoin))
  | failed error mid =>
    rw [hrun] at hjoin
    exact brokenProgram_after (h.mono hjoin.1.tokens)

end Grammar

/-- Earlier diagnostics stay in front of what a reading reports. -/
theorem Session.readProgram_after {session : Session} {before : List Diagnostic} (h : session.Apart before) :
    (session.after before).readProgram =
      match session.readProgram with
      | (.ok program, next) => (.ok program, next.after before)
      | (.error failure, next) => (.error ⟨failure.error, before ++ failure.diagnostics⟩, next) := by
  have hrun : (Grammar.program (Grammar.budget (session.after before))).run (session.after before) =
      ((Grammar.program (Grammar.budget session)).run session).after before := Grammar.program_after h
  obtain ⟨program, next, hbare, hread⟩ | ⟨error, next, hbare, hread⟩ := session.readProgram_cases
  · rw [hbare] at hrun
    rw [hread, readProgram_of_done hrun]
  · rw [hbare] at hrun
    rw [hread, readProgram_of_failed hrun]
    rfl

end RoutineSpec
