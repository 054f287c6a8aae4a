import RoutineSpec.Proofs.Completion
import RoutineSpec.Proofs.Halves
import RoutineSpec.Proofs.Mending
import RoutineSpec.Proofs.Nesting

/-! # Malformed selections and iterations

A selection or an iteration that fails is skipped from its start, up to a semicolon or a closing brace outside of all
parentheses and braces. The statement rules do not come that far without being done: where they fail, the count of
brackets that they have passed is not over. So what has failed lies inside of what is skipped, and all that is reported
of it too, whatever the statement holds.
-/

namespace RoutineSpec

namespace Phrase

/-- What opens and closes. -/
def brackets : List Terminal :=
  [.mark .openParen, .mark .closeParen, .mark .openBrace, .mark .closeBrace]

/-- The parentheses and braces among the lexemes are closed, each one by its own kind. -/
inductive Nested : List Lexeme → Prop where
  | none : Nested []
  | plain {lexeme others} :
      lexeme.terminal ∉ brackets →
      Nested others →
      Nested (lexeme :: others)
  | parens {inside others paren close} :
      Nested inside →
      Nested others →
      Nested (⟨.mark .openParen, paren⟩ :: inside ++ ⟨.mark .closeParen, close⟩ :: others)
  | braces {inside others brace close} :
      Nested inside →
      Nested others →
      Nested (⟨.mark .openBrace, brace⟩ :: inside ++ ⟨.mark .closeBrace, close⟩ :: others)

/-- What ends a statement, unless an `else` follows. -/
def statementEnds : List Terminal :=
  [.mark .semicolon, .mark .closeBrace]

/-- The lexemes begin like a selection or an iteration, and reach to where such a statement ends by its brackets: the
    last of them is the first one outside of all parentheses and braces that ends a statement and is followed by no
    `else`. -/
structure CompoundRun (span : List Lexeme) : Prop where
  starts : ∃ first others, span = first :: others ∧ (first.terminal = .keyword .if_ ∨ first.terminal = .keyword .for_)
  not_sequential : ∀ lexeme ∈ span, lexeme.terminal ≠ .keyword .sequential
  nested : Nested span
  ends : ∃ front last, span = front ++ [last] ∧ last.terminal ∈ statementEnds
  goes_on : ∀ {front lexeme follower rest}, span = front ++ lexeme :: follower :: rest → Nested (front ++ [lexeme]) →
    lexeme.terminal ∈ statementEnds → follower.terminal = .keyword .else_

theorem Nested.append {span more : List Lexeme} (h : Nested span) (h' : Nested more) : Nested (span ++ more) := by
  induction h with
  | none => exact h'
  | plain hlexeme _ ih => exact .plain hlexeme ih
  | @parens inside others paren close hinside _ _ ih => simpa using Nested.parens hinside ih
  | @braces inside others brace close hinside _ _ ih => simpa using Nested.braces hinside ih

end Phrase

namespace Recovery.Nesting

open Phrase

variable {nesting : Nesting} {span : List Lexeme}

/-- The count is inside of some bracket. -/
structure Enclosed (nesting : Nesting) : Prop where
  brackets : ¬ (nesting.braces = 0 ∧ nesting.parens = 0)
  ended : nesting.ended = false

theorem plain_of_not_mem {terminal : Terminal} (hbracket : terminal ∉ brackets)
    (hsequential : terminal ≠ .keyword .sequential) (helse : terminal ≠ .keyword .else_)
    (hsemicolon : terminal ≠ .mark .semicolon) : plain terminal = true := by
  unfold plain
  split <;> simp_all [brackets]

/-- Inside of brackets nothing but a bracket changes the count. -/
theorem after?_enclosed {terminal : Terminal} (h : nesting.Enclosed) (hbracket : terminal ∉ brackets)
    (hsequential : terminal ≠ .keyword .sequential) : nesting.after? terminal = some nesting := by
  obtain ⟨parens, braces, ended⟩ := nesting
  obtain ⟨hinside, rfl⟩ := h
  by_cases helse : terminal = .keyword .else_
  · subst helse; rfl
  by_cases hsemicolon : terminal = .mark .semicolon
  · rw [hsemicolon, Grammar.after?_semicolon rfl, decide_eq_false hinside]
  exact after?_plain (plain_of_not_mem hbracket hsequential helse hsemicolon) rfl

theorem after?_closeBrace_enclosed (h : nesting.Enclosed) :
    Nesting.after? { nesting with braces := nesting.braces + 1 } (.mark .closeBrace) = some nesting := by
  obtain ⟨parens, braces, ended⟩ := nesting
  obtain ⟨hbrackets, rfl⟩ := h
  have hended : decide (braces = 0 ∧ parens = 0) = false := decide_eq_false hbrackets
  rw [Grammar.after?_closeBrace (by rfl) (Nat.succ_ne_zero braces)]
  simpa using hended

/-- Where the count is over, only an `else` is passed. -/
theorem after?_over {terminal : Terminal} (helse : terminal ≠ .keyword .else_) :
    Nesting.after? ⟨0, 0, true⟩ terminal = none := by
  unfold after?
  split <;> simp_all

/-- Behind what ends a statement outside of all brackets, the count is over. -/
theorem ended_of_after? {terminal : Terminal} {ended : Bool} (h : nesting.after? terminal = some ⟨0, 0, ended⟩)
    (hends : terminal ∈ statementEnds) : ended = true := by
  obtain ⟨parens, braces, before⟩ := nesting
  rcases (by simpa [statementEnds] using hends : terminal = .mark .semicolon ∨ _) with rfl | rfl
  · simp only [after?, Option.ite_none_left_eq_some, Option.some.injEq, mk.injEq] at h
    obtain ⟨-, hparens, hbraces, rfl⟩ := h
    exact decide_eq_true ⟨hbraces, hparens⟩
  · simp only [after?, Option.ite_none_left_eq_some, Option.some.injEq, mk.injEq] at h
    obtain ⟨-, hopen, hparens, hbraces, rfl⟩ := h
    exact decide_eq_true ⟨by omega, hparens⟩

/-- Brackets are passed if what stands between them leaves the count as it was. -/
theorem past?_bracketed {inner behind outer : Nesting} {inside others : List Lexeme} {opening closing : Lexeme}
    (hopening : nesting.after? opening.terminal = some inner) (hinside : inner.past? inside = some inner)
    (hclosing : inner.after? closing.terminal = some behind) (hothers : behind.past? others = some outer) :
    nesting.past? (opening :: inside ++ closing :: others) = some outer :=
  past?_cons_eq_some_iff.2 ⟨inner, hopening,
    past?_eq_some_append hinside (past?_cons_eq_some_iff.2 ⟨behind, hclosing, hothers⟩)⟩

/-- Inside of brackets, nested lexemes leave the count as it was. -/
theorem past?_enclosed (hspan : Nested span) : (∀ lexeme ∈ span, lexeme.terminal ≠ .keyword .sequential) →
    ∀ {nesting : Nesting}, nesting.Enclosed → nesting.past? span = some nesting := by
  induction hspan with
  | none => exact fun _ _ _ => rfl
  | @plain lexeme others hplain _ ih =>
    intro hsequential nesting h
    obtain ⟨hfirst, hothers⟩ := List.forall_mem_cons.1 hsequential
    exact past?_cons_eq_some_iff.2 ⟨nesting, after?_enclosed h hplain hfirst, ih hothers h⟩
  | @parens inside others paren close _ _ ihInside ihOthers =>
    intro hsequential nesting h
    simp only [List.forall_mem_append, List.forall_mem_cons] at hsequential
    obtain ⟨⟨-, hinside⟩, -, hothers⟩ := hsequential
    exact past?_bracketed (Grammar.after?_openParen h.ended) (ihInside hinside ⟨by simp, h.ended⟩)
      (Grammar.after?_closeParen h.ended) (ihOthers hothers h)
  | @braces inside others brace close _ _ ihInside ihOthers =>
    intro hsequential nesting h
    simp only [List.forall_mem_append, List.forall_mem_cons] at hsequential
    obtain ⟨⟨-, hinside⟩, -, hothers⟩ := hsequential
    exact past?_bracketed (Grammar.after?_openBrace h.ended) (ihInside hinside ⟨by simp, h.ended⟩)
      (after?_closeBrace_enclosed h) (ihOthers hothers h)

/-- Outside of all brackets a semicolon ends a statement, and nothing else but a closing brace does. -/
theorem after?_outside {terminal : Terminal} {ended : Bool} (hbracket : terminal ∉ brackets)
    (hsequential : terminal ≠ .keyword .sequential) (hended : ended = true → terminal = .keyword .else_) :
    ∃ next, Nesting.after? ⟨0, 0, ended⟩ terminal = some ⟨0, 0, next⟩ ∧ (next = true → terminal = .mark .semicolon) := by
  by_cases helse : terminal = .keyword .else_
  · subst helse
    exact ⟨false, rfl, nofun⟩
  obtain rfl : ended = false := Bool.eq_false_iff.2 fun h => helse (hended h)
  by_cases hsemicolon : terminal = .mark .semicolon
  · subst hsemicolon
    exact ⟨true, rfl, fun _ => rfl⟩
  exact ⟨false, after?_plain (plain_of_not_mem hbracket hsequential helse hsemicolon) rfl, nofun⟩

end Recovery.Nesting

open Recovery (Nesting)

namespace Phrase.CompoundRun

open Recovery.Nesting

variable {run span : List Lexeme}

/-- Behind what ends a statement outside of all brackets, the next lexeme of the run is an `else`. -/
theorem else_of_ends (h : CompoundRun run) {front others : List Lexeme} {lexeme : Lexeme}
    (hrun : run = front ++ lexeme :: others) (hfront : Nested (front ++ [lexeme]))
    (hends : lexeme.terminal ∈ statementEnds) : ∀ follower ∈ others.head?, follower.terminal = .keyword .else_ := by
  intro follower hmem
  cases others with
  | nil => cases hmem
  | cons first rest =>
    cases hmem
    exact h.goes_on hrun hfront hends

/-- The counts tell which fronts of some lexemes may be nested. -/
theorem else_of_counts (hsequential : ∀ lexeme ∈ run, lexeme.terminal ≠ .keyword .sequential)
    (hcounts : ∀ length < run.length, ∀ lexeme ∈ run[length]?, ∀ follower ∈ run[length + 1]?,
      lexeme.terminal ∈ statementEnds → Nesting.past? ⟨1, 1, false⟩ (run.take (length + 1)) = some ⟨1, 1, false⟩ →
      follower.terminal = .keyword .else_)
    {front : List Lexeme} {lexeme follower : Lexeme} {rest : List Lexeme} (hrun : run = front ++ lexeme :: follower :: rest)
    (hnested : Nested (front ++ [lexeme])) (hends : lexeme.terminal ∈ statementEnds) :
    follower.terminal = .keyword .else_ := by
  have hfront : run.take (front.length + 1) = front ++ [lexeme] := by
    rw [hrun, List.append_cons]
    exact List.take_left' (by simp)
  refine hcounts front.length (by simp [hrun]) lexeme (by simp [hrun]) follower (by simp [hrun]) hends ?_
  rw [hfront]
  refine past?_enclosed hnested (fun other hmem => hsequential other ?_) ⟨by simp, rfl⟩
  rw [hrun, List.append_cons]
  exact List.mem_append_left _ hmem

/-- The count gets past the rest of a run from between two of its lexemes that are outside of all brackets. -/
theorem past?_outside (h : CompoundRun run) (hspan : Nested span) : ∀ {front}, run = front ++ span → Nested front →
    ∀ {ended}, (ended = true → ∀ lexeme ∈ span.head?, lexeme.terminal = .keyword .else_) →
      ∃ last, Nesting.past? ⟨0, 0, ended⟩ span = some ⟨0, 0, last⟩ := by
  induction hspan with
  | none => exact fun _ _ ended _ => ⟨ended, rfl⟩
  | @plain lexeme others hbracket _ ih =>
    intro front hrun hfront ended hended
    have hnested : Nested (front ++ [lexeme]) := hfront.append (.plain hbracket .none)
    obtain ⟨next, hnext, hsemicolon⟩ := after?_outside hbracket (h.not_sequential lexeme (by simp [hrun]))
      fun hover => hended hover lexeme rfl
    have helse : next = true → ∀ follower ∈ others.head?, follower.terminal = .keyword .else_ := fun hover =>
      h.else_of_ends hrun hnested (by simp [hsemicolon hover, statementEnds])
    obtain ⟨last, hlast⟩ := ih (by simpa using hrun) hnested helse
    exact ⟨last, past?_cons_eq_some_iff.2 ⟨_, hnext, hlast⟩⟩
  | @parens inside others paren close hinside _ _ ih =>
    intro front hrun hfront ended hended
    obtain rfl : ended = false := Bool.eq_false_iff.2 fun hover => by simpa using hended hover
    have helse : false = true → ∀ follower ∈ others.head?, follower.terminal = .keyword .else_ := nofun
    obtain ⟨last, hlast⟩ := ih (by simpa using hrun) (hfront.append (.parens hinside .none)) helse
    refine ⟨last, past?_bracketed (Grammar.after?_openParen rfl) (past?_enclosed hinside ?_ ⟨by simp, rfl⟩)
      (Grammar.after?_closeParen rfl) hlast⟩
    exact fun lexeme hmem => h.not_sequential lexeme (by simp [hrun, hmem])
  | @braces inside others brace close hinside _ _ ih =>
    intro front hrun hfront ended hended
    obtain rfl : ended = false := Bool.eq_false_iff.2 fun hover => by simpa using hended hover
    have hclose : run = (front ++ ⟨.mark .openBrace, brace⟩ :: inside) ++ ⟨.mark .closeBrace, close⟩ :: others := by
      simpa using hrun
    have hnested : Nested ((front ++ ⟨.mark .openBrace, brace⟩ :: inside) ++ [⟨.mark .closeBrace, close⟩]) := by
      simpa using hfront.append (.braces hinside .none)
    have helse : true = true → ∀ follower ∈ others.head?, follower.terminal = .keyword .else_ := fun _ =>
      h.else_of_ends hclose hnested (by simp [statementEnds])
    obtain ⟨last, hlast⟩ := ih (by simpa using hrun) hnested helse
    refine ⟨last, past?_bracketed (Grammar.after?_openBrace rfl) (past?_enclosed hinside ?_ ⟨by simp, rfl⟩)
      (Grammar.after?_closeBrace rfl (by simp)) hlast⟩
    exact fun lexeme hmem => h.not_sequential lexeme (by simp [hrun, hmem])

/-- Behind a run the count is over. -/
theorem past?_eq (h : CompoundRun run) : Nesting.outermost.past? run = some ⟨0, 0, true⟩ := by
  have hstart : false = true → ∀ lexeme ∈ run.head?, lexeme.terminal = .keyword .else_ := nofun
  obtain ⟨ended, hended⟩ := h.past?_outside h.nested rfl .none hstart
  obtain ⟨front, last, rfl, hends⟩ := h.ends
  have hlast := hended
  rw [past?_append, Option.bind_eq_some_iff] at hlast
  obtain ⟨mid, -, hmid⟩ := hlast
  obtain ⟨inner, hinner, hnil⟩ := past?_cons_eq_some_iff.1 hmid
  cases hnil
  cases ended_of_after? hinner hends
  exact hended

/-- The scan over a run stops right behind it. -/
theorem skipStatement_append (h : CompoundRun run) {rest : List Lexeme}
    (hrest : ∀ lexeme ∈ rest.head?, lexeme.terminal ≠ .keyword .else_) :
    Recovery.skipStatement .outermost (run ++ rest) = rest := by
  rw [Recovery.skipStatement_append rest h.past?_eq]
  cases rest with
  | nil => rfl
  | cons lexeme rest => rw [Recovery.skipStatement, after?_over (hrest lexeme rfl)]

/-- What the count gets past without being over is in front of the last lexemes of a run. -/
theorem exists_left (h : CompoundRun run) {rest left : List Lexeme} {inner : Nesting}
    (hrest : ∀ lexeme ∈ rest.head?, lexeme.terminal ≠ .keyword .else_) (hlexemes : run ++ rest = span ++ left)
    (hpast : Nesting.outermost.past? span = some inner) (hinner : inner.ended = false) :
    ∃ first more, run = span ++ first :: more ∧ left = first :: more ++ rest := by
  rcases List.append_eq_append_iff.1 hlexemes with ⟨more, rfl, rfl⟩ | ⟨more, rfl, rfl⟩
  · rw [past?_append, h.past?_eq, Option.bind_some] at hpast
    cases more with
    | nil => cases hpast; cases hinner
    | cons lexeme more =>
      obtain ⟨mid, hmid, -⟩ := past?_cons_eq_some_iff.1 hpast
      rw [after?_over (hrest lexeme rfl)] at hmid
      cases hmid
  · cases more with
    | nil =>
      rw [List.append_nil] at h
      cases h.past?_eq.symm.trans hpast
      cases hinner
    | cons first more => exact ⟨first, more, rfl, rfl⟩

end Phrase.CompoundRun

/-- There are errors, and all of them are at some of the lexemes. -/
def ReportsWithin (span : List Lexeme) (errors : List SyntaxError) : Prop :=
  errors ≠ [] ∧ ∀ error ∈ errors, ∃ lexeme ∈ span, error.loc = lexeme.loc

/-- A report adds the error unless there is one already. -/
theorem Session.exists_report {session : Session} {errors : List SyntaxError}
    (h : session.diagnostics = errors.map .syntactic) (error : SyntaxError) :
    ∃ more, (session.report error).diagnostics = more.map .syntactic ∧ more ≠ [] ∧ more ⊆ errors ++ [error] := by
  by_cases hjust : session.justReportedAt error.loc = true
  · have hne := session.diagnostics_report_ne_nil error
    rw [report, if_pos hjust] at hne ⊢
    exact ⟨errors, h, by rintro rfl; exact hne h, List.subset_append_left _ _⟩
  · rw [report, if_neg hjust]
    exact ⟨errors ++ [error], by simp [record, h], by simp, List.Subset.refl _⟩

namespace Grammar

open Rule Phrase

variable {run first second : List Lexeme} {trees₁ trees₂ : List Tree} {n : Nat} {next last : Session}
  {error : SyntaxError}

/-- Where a statement that is a run by its brackets fails, it fails inside of the run, and so does all that has been
    reported on the way. -/
theorem reports_of_failed (h : CompoundRun run) (hclean : next.diagnostics = [])
    (hincreasing : Increasing (run ++ next.rest) next.stop)
    (hnext : ∀ lexeme ∈ next.rest.head?, lexeme.terminal ≠ .keyword .else_)
    (hfailed : (statement n).run (next.unread run) = .failed error last) :
    ∃ errors, last.diagnostics = errors.map .syntactic ∧
      ∀ reported ∈ errors ++ [error], ∃ lexeme ∈ run, reported.loc = lexeme.loc := by
  have hcrosses := statement_crosses n (rfl : Nesting.outermost.ended = false) (next.unread run)
  rw [hfailed] at hcrosses
  obtain ⟨span, inner, hlexemes, hpast, hinner⟩ := hcrosses
  obtain ⟨broken, more, rfl, hleft⟩ := h.exists_left hnext hlexemes hpast hinner
  have hsession : next.unread (span ++ broken :: more) = ⟨span ++ broken :: (more ++ next.rest), next.stop, []⟩ := by
    simp [Session.unread, hclean]
  rw [hsession] at hfailed
  have hplaces : Increasing (span ++ broken :: (more ++ next.rest)) next.stop := by simpa using hincreasing
  have hstart : Session.Increases ⟨span ++ broken :: (more ++ next.rest), next.stop, []⟩ := hplaces
  have hcomposed : (statement n).Composed False fun _ => True := statement_composed n
  have hordered := hcomposed.ordered _ trivial (hstart.orderedUpTo rfl)
  have hfaithful := hcomposed.faithful ⟨span ++ broken :: (more ++ next.rest), next.stop, []⟩ trivial
  rw [hfailed] at hordered hfaithful
  obtain ⟨⟨-, errors, herrors, hmeets⟩, hmeetsError⟩ := hfaithful
  have hahead : error.loc ≤ broken.loc := by
    have := Session.OrderedUpTo.ahead hordered
    simpa [Session.next, hleft, Token.loc] using this
  have within : ∀ reported : SyntaxError, Session.Meets ⟨span ++ broken :: (more ++ next.rest), next.stop, []⟩ reported →
      reported.loc ≤ error.loc → ∃ lexeme ∈ span ++ broken :: more, reported.loc = lexeme.loc := by
    intro reported hreported hle
    obtain ⟨lexeme, hmem, hnames⟩ := hreported.exists_lexeme hplaces (hle.trans hahead)
    refine ⟨lexeme, ?_, hnames.loc⟩
    rw [List.append_cons]
    exact List.mem_append_left more hmem
  refine ⟨errors, by simpa using herrors, fun reported hmem => ?_⟩
  rcases List.mem_append.1 hmem with hearly | hlast
  · refine within reported (hmeets reported hearly) (Session.OrderedUpTo.upTo hordered (.syntactic reported) ?_)
    rw [herrors]
    simpa using hearly
  · rw [List.mem_singleton.1 hlast]
    exact within error hmeetsError le_rfl

theorem startsStatement_of_run (h : CompoundRun run) : StartsStatement run := by
  obtain ⟨first, others, rfl, hfirst⟩ := h.starts
  refine ⟨first, others, rfl, ?_⟩
  rcases hfirst with hterminal | hterminal <;> rw [hterminal] <;> rfl

theorem resume_of_run (h : CompoundRun run) (rest left : List Lexeme) :
    Recovery.resume (run ++ rest) left = Recovery.skipStatement .outermost (run ++ rest) := by
  obtain ⟨first, others, rfl, hfirst⟩ := h.starts
  have hcompound : Recovery.startsCompound first.terminal = true := by
    rcases hfirst with hterminal | hterminal <;> rw [hterminal] <;> rfl
  exact if_pos hcompound

/-- The statement rule fails here, given budget enough. -/
def Rejects (session : Session) : Prop :=
  ∃ n error last, (statement n).run session = .failed error last

/-- With less budget or with more, the rule is not done either. -/
theorem Rejects.ne_done {session : Session} (h : Rejects session) (n : Nat) (tree : Tree) (last : Session) :
    (statement n).run session ≠ .done tree last := by
  intro hdone
  obtain ⟨m, error, broken, hfailed⟩ := h
  rcases Nat.le_total n m with hle | hle
  · have := statement_extends hle session (by simp [hdone])
    simp [hdone, hfailed] at this
  · have := statement_extends hle session (by simp [hfailed])
    simp [hdone, hfailed] at this

/-- A run that is rejected is skipped. -/
theorem statementIfSound_of_rejected (h : CompoundRun run) (hclean : next.diagnostics = [])
    (hincreasing : Increasing (run ++ next.rest) next.stop)
    (hnext : ∀ lexeme ∈ next.rest.head?, lexeme.terminal ≠ .keyword .else_) (hrejected : Rejects (next.unread run)) :
    (statementIfSound n).Mends run next [] (ReportsWithin run) := by
  cases n with
  | zero => exact mends_exhausted
  | succ n =>
    rw [statementIfSound_eq, Mends, Succeeds, run_look, run_recovering]
    cases hrun : (statement n).run (next.unread run) with
    | exhausted => trivial
    | done tree last => exact absurd hrun (hrejected.ne_done n tree last)
    | failed error last =>
      obtain ⟨errors, herrors, hwithin⟩ := reports_of_failed h hclean hincreasing hnext hrun
      obtain ⟨more, hmore, hne, hsubset⟩ := Session.exists_report herrors error
      have hstop : (last.report error).stop = next.stop :=
        (((statement_advances n).failed hrun).trans (.report last error)).stop
      have hresume : Recovery.resume (next.unread run).rest last.rest = next.rest := by
        rw [Session.rest_unread, resume_of_run h]
        exact h.skipStatement_append hnext
      refine ⟨rfl, more, ⟨hne, fun reported hmem => hwithin reported (hsubset hmem)⟩, ?_⟩
      rw [rest_report, hresume]
      exact congrArg₂ (Session.mk next.rest) hstop (hmore.trans (by simp [hclean]))

/-- A rejected run between statements is got over. -/
theorem mendsAt_of_rejected (hfirst : Statements Location.Touches first trees₁)
    (hsecond : Statements Location.Touches second trees₂) (h : CompoundRun run) {behind : List Lexeme}
    {close stop : Location}
    (hincreasing : Increasing (run ++ (second ++ ⟨.mark .closeBrace, close⟩ :: behind)) stop)
    (hrejected : Rejects ⟨run ++ (second ++ ⟨.mark .closeBrace, close⟩ :: behind), stop, []⟩) :
    MendsAt (first ++ (run ++ second)) ⟨⟨.mark .closeBrace, close⟩ :: behind, stop, []⟩ (trees₁ ++ trees₂)
      (ReportsWithin run) := by
  intro n
  refine statements_mends_behind ?_ (fun m => ?_) hfirst
  · rw [List.append_assoc]
    exact (startsStatement_of_run h).not_else
  · cases m with
    | zero => rw [statements]; exact mends_exhausted
    | succ m =>
      rw [statements]
      apply mends_bind_look
      rw [Session.unread_append, atBlockEnd_unread (startsStatement_of_run h)]
      apply (statementIfSound_of_rejected h ?_ ?_ ?_ ?_).bind_reads
      · intro errors
        have hread : (statements m).Reads second
            (Session.unread ⟨behind, stop, errors.map .syntactic⟩ [⟨.mark .closeBrace, close⟩]) trees₂ :=
          statements_complete hsecond
        exact hread.bind_nil reads_pure
      · rfl
      · exact hincreasing
      · exact not_else_of_statements hsecond (by simp)
      · exact hrejected

end Grammar

namespace Reading

open Phrase Grammar

/-- A malformed selection or iteration is dropped alone. Where a program is read without diagnostics and has the
    statements of `first` and `second` in a block, lexemes between them that begin like a selection or an iteration and
    reach to where such a statement ends change nothing of the program if the statement rule rejects them. Something is
    reported of them, and nothing of anything else. -/
theorem ofTokens_of_malformed_compound {before first run second behind : List Lexeme} {trees₁ trees₂ : List Tree}
    {brace close stop : Location} {tree : Tree} (hfirst : Statements Location.Touches first trees₁)
    (hsecond : Statements Location.Touches second trees₂)
    (hclean : ofTokens ((before ++ braced brace close (first ++ second) ++ behind).map .lexeme ++ [.endOfInput stop]) =
      .ok ⟨tree, []⟩)
    (hincreasing : Increasing (before ++ braced brace close (first ++ (run ++ second)) ++ behind) stop)
    (hrun : CompoundRun run)
    (hrejected : Rejects ⟨run ++ (second ++ ⟨.mark .closeBrace, close⟩ :: behind), stop, []⟩) :
    (∃ visit ∈ tree.visits, visit.node = .block brace (trees₁ ++ trees₂)) ∧
      ∃ errors : List SyntaxError, errors ≠ [] ∧
        ofTokens ((before ++ braced brace close (first ++ (run ++ second)) ++ behind).map .lexeme ++ [.endOfInput stop]) =
          .ok ⟨tree, errors.map .syntactic⟩ ∧
        ∀ error ∈ errors, ∃ lexeme ∈ run, error.loc = lexeme.loc := by
  have hplaces : Increasing (run ++ (second ++ ⟨.mark .closeBrace, close⟩ :: behind)) stop := by
    have hsplit : before ++ braced brace close (first ++ (run ++ second)) ++ behind =
        (before ++ ⟨.mark .openBrace, brace⟩ :: first) ++ (run ++ (second ++ ⟨.mark .closeBrace, close⟩ :: behind)) := by
      simp [braced]
    exact Increasing.of_append (hsplit ▸ hincreasing)
  obtain ⟨errors, ⟨hne, hwithin⟩, hread, hblock⟩ :=
    ofTokens_mended_at hclean (hfirst.append hsecond) (mendsAt_of_rejected hfirst hsecond hrun hplaces hrejected)
  exact ⟨hblock, errors, hne, hread, hwithin⟩

/-- An `if` fails in its second branch, behind a first branch that holds a malformed assignment. Both are reported, and the
    whole `if` is dropped behind a statement that would take an `else`. -/
theorem ofTokens_of_headless_else :
    let before : List Lexeme := List.mapIdx (fun i terminal => ⟨terminal, ⟨1, i + 1⟩⟩)
      [.keyword .join, .mark .openParen, .mark .pipe, .mark .closeParen,
        .keyword .returns, .mark .openParen, .mark .closeParen, .keyword .locals, .mark .openParen, .mark .closeParen]
    let first : List Lexeme := List.mapIdx (fun i terminal => ⟨terminal, ⟨2, i + 1⟩⟩)
      [.keyword .if_, .mark .openParen, .keyword .true_, .mark .closeParen,
        .identifier "x", .mark .plus, .mark .plus, .mark .semicolon]
    let run : List Lexeme :=
      ⟨.keyword .if_, ⟨3, 1⟩⟩ :: (⟨.mark .openParen, ⟨3, 2⟩⟩ :: [⟨.identifier "x", ⟨3, 3⟩⟩] ++ ⟨.mark .closeParen, ⟨3, 4⟩⟩ ::
        (⟨.mark .openBrace, ⟨3, 5⟩⟩ :: [⟨.identifier "x", ⟨3, 6⟩⟩, ⟨.mark .equal, ⟨3, 7⟩⟩, ⟨.mark .semicolon, ⟨3, 8⟩⟩] ++
          ⟨.mark .closeBrace, ⟨3, 9⟩⟩ :: ⟨.keyword .else_, ⟨3, 10⟩⟩ :: ⟨.keyword .for_, ⟨3, 11⟩⟩ ::
            (⟨.mark .openParen, ⟨3, 12⟩⟩ :: [] ++ ⟨.mark .closeParen, ⟨3, 13⟩⟩ ::
              (⟨.mark .openBrace, ⟨3, 14⟩⟩ :: [] ++ [⟨.mark .closeBrace, ⟨3, 15⟩⟩]))))
    let second : List Lexeme := List.mapIdx (fun i terminal => ⟨terminal, ⟨4, i + 1⟩⟩)
      [.identifier "x", .mark .equal, .integer 2, .mark .semicolon]
    let behind : List Lexeme := List.mapIdx (fun i terminal => ⟨terminal, ⟨5, i + 2⟩⟩)
      [.keyword .sequential, .mark .openParen, .mark .closeParen,
        .keyword .returns, .mark .openParen, .mark .closeParen, .keyword .locals, .mark .openParen, .mark .closeParen,
        .mark .openBrace, .mark .closeBrace]
    let branch : Tree := .ifThen ⟨2, 1⟩ (.constant ⟨2, 3⟩ (.bool true)) (.increment ⟨2, 5⟩ "x" .add ⟨2, 6⟩)
    let equation : Tree := .assignment ⟨4, 1⟩ (.var ⟨4, 1⟩ "x" none none) (.constant ⟨4, 3⟩ (.int 2))
    let tree : Tree := .program ⟨1, 1⟩ (.joinSpec ⟨1, 1⟩ [] [] [] [] (.block ⟨1, 11⟩ [branch, equation]))
      (.sequentialSpec ⟨5, 2⟩ [] [] [] (.block ⟨5, 11⟩ []))
    (∃ visit ∈ tree.visits, visit.node = .block ⟨1, 11⟩ [branch, equation]) ∧
      ∃ errors : List SyntaxError, errors ≠ [] ∧
        ofTokens ((before ++ braced ⟨1, 11⟩ ⟨5, 1⟩ (first ++ (run ++ second)) ++ behind).map .lexeme ++
          [.endOfInput ⟨5, 13⟩]) = .ok ⟨tree, errors.map .syntactic⟩ ∧
        ∀ error ∈ errors, ∃ lexeme ∈ run, error.loc = lexeme.loc := by
  intro before first run second behind branch equation tree
  have hfirst : Statements Location.Touches (first ++ []) [branch] :=
    .more (.ifThen (Suffixed.expression (.primary .true_)) (.assignment (.increment (.inl rfl) (by decide)))) .none
  have hsecond : Statements Location.Touches (second ++ []) [equation] :=
    .more (.assignment (.equation (.primary .name) (Suffixed.expression (.primary .integer)))) .none
  have hclean : ofTokens ((before ++ braced ⟨1, 11⟩ ⟨5, 1⟩ (first ++ second) ++ behind).map .lexeme ++
      [.endOfInput ⟨5, 13⟩]) = .ok ⟨tree, []⟩ := rfl
  have hsequential : ∀ lexeme ∈ run, lexeme.terminal ≠ .keyword .sequential := by decide
  have hnested : Nested run :=
    .plain (by decide) (.parens (.plain (by decide) .none)
      (.braces (.plain (by decide) (.plain (by decide) (.plain (by decide) .none)))
        (.plain (by decide) (.plain (by decide) (.parens .none (.braces .none .none))))))
  have hrun : CompoundRun run :=
    ⟨⟨_, _, rfl, .inl rfl⟩, hsequential, hnested, ⟨run.take 14, ⟨.mark .closeBrace, ⟨3, 15⟩⟩, rfl, by decide⟩,
      CompoundRun.else_of_counts hsequential (by decide)⟩
  have hrejected : Rejects ⟨run ++ (second ++ ⟨.mark .closeBrace, ⟨5, 1⟩⟩ :: behind), ⟨5, 13⟩, []⟩ := by
    refine ⟨40, ⟨.expected .expression, "')'", ⟨3, 13⟩⟩, ⟨run.drop 12 ++ (second ++ ⟨.mark .closeBrace, ⟨5, 1⟩⟩ :: behind),
      ⟨5, 13⟩, [.syntactic ⟨.expected .expression, "';'", ⟨3, 8⟩⟩]⟩, ?_⟩
    unfold run second behind
    cbv
  exact ofTokens_of_malformed_compound hfirst hsecond hclean (by decide) hrun hrejected

end Reading

end RoutineSpec
