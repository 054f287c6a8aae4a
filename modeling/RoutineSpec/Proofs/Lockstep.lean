import Mathlib.Logic.Relator
import RoutineSpec.Proofs.Alike
import RoutineSpec.Proofs.Unread

/-! # In lockstep

Two sessions on streams that differ in their places only. Whatever a rule reads, skips or reports in the one, it reads,
skips or reports in the other, as long as the streams agree on which signs are doubled: the place of a sign tells an
increment from two operators, and nothing else is told from a place.
-/

namespace RoutineSpec

variable {pairs : Location → Location → Prop}

namespace Lexeme

/-- A plus or a minus, and the same sign right behind it. -/
def Doubles (first second : Lexeme) : Prop :=
  (first.terminal = .mark .plus ∨ first.terminal = .mark .minus) ∧ second.terminal = first.terminal ∧
    first.loc.Touches second.loc

instance (first second : Lexeme) : Decidable (first.Doubles second) :=
  inferInstanceAs (Decidable (_ ∧ _))

/-- For every two neighbours, whether they are a doubled sign. -/
def doubled (lexemes : List Lexeme) : List Bool :=
  lexemes.zipWith (fun first second => decide (first.Doubles second)) lexemes.tail

/-- The same terminals at places that go together, with the same signs doubled. -/
inductive AllAlike (pairs : Location → Location → Prop) : List Lexeme → List Lexeme → Prop where
  | nil : AllAlike pairs [] []
  | cons {terminal loc loc' rest rest'} : pairs loc loc' →
      doubled (⟨terminal, loc⟩ :: rest) = doubled (⟨terminal, loc'⟩ :: rest') → AllAlike pairs rest rest' →
      AllAlike pairs (⟨terminal, loc⟩ :: rest) (⟨terminal, loc'⟩ :: rest')

variable {lexemes others : List Lexeme}

theorem allAlike_of_doubled (hterminals : lexemes.map terminal = others.map terminal)
    (hdoubled : doubled lexemes = doubled others)
    (hplaces : List.Forall₂ pairs (lexemes.map loc) (others.map loc)) : AllAlike pairs lexemes others := by
  induction lexemes generalizing others with
  | nil =>
    cases others with
    | nil => exact .nil
    | cons => cases hterminals
  | cons first rest ih =>
    cases others with
    | nil => cases hterminals
    | cons other rest' =>
      obtain ⟨terminal, place⟩ := first
      obtain ⟨terminal', place'⟩ := other
      simp only [List.map_cons, List.cons.injEq] at hterminals hplaces
      obtain ⟨rfl, hterminals⟩ := hterminals
      obtain ⟨hplace, hplaces⟩ := List.forall₂_cons.1 hplaces
      have hrest : doubled rest = doubled rest' := by
        cases rest with
        | nil =>
          cases rest' with
          | nil => rfl
          | cons => cases hterminals
        | cons =>
          cases rest' with
          | nil => cases hterminals
          | cons => exact (List.cons.inj hdoubled).2
      exact .cons hplace hdoubled (ih hterminals hrest hplaces)

theorem AllAlike.length_eq (h : AllAlike pairs lexemes others) : lexemes.length = others.length := by
  induction h with
  | nil => rfl
  | cons _ _ _ ih => exact congrArg (· + 1) ih

theorem AllAlike.drop (h : AllAlike pairs lexemes others) (count : Nat) :
    AllAlike pairs (lexemes.drop count) (others.drop count) := by
  induction h generalizing count with
  | nil => simpa using .nil
  | cons hplace hdoubled hrest ih =>
    cases count with
    | zero => exact .cons hplace hdoubled hrest
    | succ count => exact ih count

end Lexeme

namespace Recovery

open Lexeme

variable {lexemes others : List Lexeme}

theorem alike_dropWhile (p : Terminal → Bool) (h : AllAlike pairs lexemes others) :
    AllAlike pairs (lexemes.dropWhile fun lexeme => p lexeme.terminal)
      (others.dropWhile fun lexeme => p lexeme.terminal) := by
  induction h with
  | nil => exact .nil
  | @cons terminal _ _ _ _ hplace hdoubled hrest ih =>
    cases hp : p terminal with
    | true => simpa [hp] using ih
    | false => simpa [hp] using .cons hplace hdoubled hrest

theorem alike_skipArgument (h : AllAlike pairs lexemes others) :
    AllAlike pairs (skipArgument lexemes) (skipArgument others) :=
  alike_dropWhile (fun terminal => !argumentEnds.contains terminal) h

theorem alike_skipToSequential (h : AllAlike pairs lexemes others) :
    AllAlike pairs (skipToSequential lexemes) (skipToSequential others) :=
  alike_dropWhile (· != .keyword .sequential) h

theorem alike_skipAssignment (h : AllAlike pairs lexemes others) :
    AllAlike pairs (skipAssignment lexemes) (skipAssignment others) := by
  induction h with
  | nil => exact .nil
  | cons hplace hdoubled hrest ih =>
    simp only [skipAssignment]
    split
    · exact hrest
    · exact .cons hplace hdoubled hrest
    · exact .cons hplace hdoubled hrest
    · exact ih

theorem alike_skipStatement (nesting : Nesting) (h : AllAlike pairs lexemes others) :
    AllAlike pairs (skipStatement nesting lexemes) (skipStatement nesting others) := by
  induction h generalizing nesting with
  | nil => exact .nil
  | cons hplace hdoubled hrest ih =>
    simp only [skipStatement]
    split
    · exact .cons hplace hdoubled hrest
    · exact ih _

theorem alike_resume {start start' : List Lexeme} (hstart : AllAlike pairs start start')
    (h : AllAlike pairs lexemes others) : AllAlike pairs (resume start lexemes) (resume start' others) := by
  have hlength := hstart.length_eq
  cases hstart with
  | nil => exact .nil
  | cons hplace hdoubled hrest =>
    simp only [resume, h.length_eq, hlength]
    split
    · exact alike_skipStatement _ (.cons hplace hdoubled hrest)
    · split
      · exact hrest
      · exact alike_skipAssignment h

end Recovery

/-- The errors say the same of the same token, each at its place. -/
structure SyntaxError.Alike (pairs : Location → Location → Prop) (error other : SyntaxError) : Prop where
  describe : error.describe = other.describe
  found : error.found = other.found
  loc : pairs error.loc other.loc

theorem SyntaxError.alike_of_complaint {complaint : Complaint} {found : String} {loc loc' : Location}
    (h : pairs loc loc') : SyntaxError.Alike pairs ⟨complaint, found, loc⟩ ⟨complaint, found, loc'⟩ :=
  ⟨rfl, rfl, h⟩

/-- Syntax errors that are alike. -/
inductive Diagnostic.Alike (pairs : Location → Location → Prop) : Diagnostic → Diagnostic → Prop where
  | syntactic {error other} : SyntaxError.Alike pairs error other → Alike pairs (.syntactic error) (.syntactic other)

/-- What is left to read and what has been reported is the same, but for the places. No place goes with two. -/
structure Session.Alike (pairs : Location → Location → Prop) (session other : Session) : Prop where
  unique : Relator.BiUnique pairs
  rest : Lexeme.AllAlike pairs session.rest other.rest
  stop : pairs session.stop other.stop
  diagnostics : List.Forall₂ (Diagnostic.Alike pairs) session.diagnostics other.diagnostics

namespace Session.Alike

variable {session other : Session}

/-- The next tokens are described in the same way, and their places go together. -/
theorem next (h : session.Alike pairs other) :
    session.next.describe = other.next.describe ∧ pairs session.next.loc other.next.loc := by
  obtain ⟨rest, stop, diagnostics⟩ := session
  obtain ⟨rest', stop', diagnostics'⟩ := other
  obtain ⟨-, hrest, hstop, -⟩ := h
  cases hrest with
  | nil => exact ⟨rfl, hstop⟩
  | cons hplace _ _ => exact ⟨rfl, hplace⟩

theorem skip (h : session.Alike pairs other) {rest rest' : List Lexeme} (hrest : Lexeme.AllAlike pairs rest rest') :
    { session with rest := rest }.Alike pairs { other with rest := rest' } :=
  ⟨h.unique, hrest, h.stop, h.diagnostics⟩

theorem atEnd_eq (h : session.Alike pairs other) : session.atEnd = other.atEnd := by
  have hrest := h.rest
  unfold Session.atEnd
  generalize session.rest = lexemes at hrest ⊢
  generalize other.rest = others at hrest ⊢
  cases hrest <;> rfl

theorem follows_eq (h : session.Alike pairs other) (terminals : List Terminal) :
    session.follows terminals = other.follows terminals := by
  have hrest := h.rest
  unfold Session.follows
  generalize session.rest = lexemes at hrest ⊢
  generalize other.rest = others at hrest ⊢
  cases hrest <;> rfl

theorem atBlockEnd_eq (h : session.Alike pairs other) : Grammar.atBlockEnd session = Grammar.atBlockEnd other := by
  rw [Grammar.atBlockEnd, Grammar.atBlockEnd, h.atEnd_eq, h.follows_eq]

theorem record (h : session.Alike pairs other) {error error' : SyntaxError} (herror : error.Alike pairs error') :
    (session.record (.syntactic error)).Alike pairs (other.record (.syntactic error')) :=
  ⟨h.unique, h.rest, h.stop, List.rel_append h.diagnostics (.cons (.syntactic herror) .nil)⟩

/-- Whether an error has just been reported at a place does not depend on the place as such. -/
theorem justReportedAt_eq (h : session.Alike pairs other) {loc loc' : Location} (hloc : pairs loc loc') :
    session.justReportedAt loc = other.justReportedAt loc' := by
  have hlast := List.forall₂_reverse_iff.2 h.diagnostics
  unfold justReportedAt
  rw [← List.head?_reverse, ← List.head?_reverse]
  generalize session.diagnostics.reverse = latest at hlast ⊢
  generalize other.diagnostics.reverse = latest' at hlast ⊢
  cases hlast with
  | nil => rfl
  | cons hfirst _ =>
    cases hfirst with
    | syntactic herror => exact decide_eq_decide.2 (Relator.rel_eq h.unique herror.loc hloc)

theorem report (h : session.Alike pairs other) {error error' : SyntaxError} (herror : error.Alike pairs error') :
    (session.report error).Alike pairs (other.report error') := by
  unfold Session.report
  rw [h.justReportedAt_eq herror.loc]
  split
  · exact h
  · exact h.record herror

end Session.Alike

/-- The readings end in the same way, with values that agree and sessions that are alike. -/
inductive Outcome.Alike {α β : Type} (pairs : Location → Location → Prop) (agree : α → β → Prop) :
    Outcome α → Outcome β → Prop where
  | done {value value' session other} : agree value value' → session.Alike pairs other →
      Alike pairs agree (.done value session) (.done value' other)
  | failed {error error' session other} : error.Alike pairs error' → session.Alike pairs other →
      Alike pairs agree (.failed error session) (.failed error' other)
  | exhausted : Alike pairs agree .exhausted .exhausted

/-- From sessions that are alike, the rules come to the same. -/
def Rule.Alike {α β : Type} (pairs : Location → Location → Prop) (agree : α → β → Prop) (rule : Rule α)
    (other : Rule β) : Prop :=
  ∀ session mate : Session, session.Alike pairs mate → (rule.run session).Alike pairs agree (other.run mate)

namespace Rule

variable {α α' β β' : Type} {agree : α → α' → Prop} {agrees : β → β' → Prop} {rule : Rule α} {other : Rule α'}
  {follow : α → Rule β} {further : α' → Rule β'}

theorem alike_pure {value : α} {value' : α'} (h : agree value value') :
    (pure value : Rule α).Alike pairs agree (pure value' : Rule α') :=
  fun _ _ halike => .done h halike

theorem alike_exhausted : (exhausted : Rule α).Alike pairs agree (exhausted : Rule α') :=
  fun _ _ _ => .exhausted

theorem alike_fail {error error' : SyntaxError} (h : error.Alike pairs error') :
    (fail error : Rule α).Alike pairs agree (fail error' : Rule α') :=
  fun _ _ halike => .failed h halike

theorem alike_failHere (what : Expectation) : (failHere what : Rule α).Alike pairs agree (failHere what : Rule α') := by
  intro session mate halike
  obtain ⟨hdescribe, hloc⟩ := halike.next
  simp only [failHere, hdescribe]
  exact .failed (SyntaxError.alike_of_complaint hloc) halike

theorem Alike.bind (h : rule.Alike pairs agree other)
    (hfollow : ∀ {value value'}, agree value value' → (follow value).Alike pairs agrees (further value')) :
    (rule >>= follow).Alike pairs agrees (other >>= further) := by
  intro session mate halike
  have hrule := h session mate halike
  rw [run_bind, run_bind]
  generalize rule.run session = outcome at hrule ⊢
  generalize other.run mate = outcome' at hrule ⊢
  cases hrule with
  | done hvalue hnext => exact hfollow hvalue _ _ hnext
  | failed herror hnext => exact .failed herror hnext
  | exhausted => exact .exhausted

/-- A failure that is handed over is alike in both. -/
theorem Alike.bind_attempt {follow : Except SyntaxError α → Rule β} {further : Except SyntaxError α' → Rule β'}
    (h : rule.Alike pairs agree other)
    (hok : ∀ {value value'}, agree value value' → (follow (.ok value)).Alike pairs agrees (further (.ok value')))
    (herror : ∀ {error error'}, error.Alike pairs error' →
      (follow (.error error)).Alike pairs agrees (further (.error error'))) :
    (attempt rule >>= follow).Alike pairs agrees (attempt other >>= further) := by
  intro session mate halike
  have hrule := h session mate halike
  rw [run_bind, run_bind, run_attempt, run_attempt]
  generalize rule.run session = outcome at hrule ⊢
  generalize other.run mate = outcome' at hrule ⊢
  cases hrule with
  | done hvalue hnext => exact hok hvalue _ _ hnext
  | failed hfailed hnext => exact herror hfailed _ _ hnext
  | exhausted => exact .exhausted

/-- What is looked at is the same in both sessions. -/
theorem alike_bind_look {γ : Type} {view : Session → γ} {follow : γ → Rule β} {further : γ → Rule β'}
    (hview : ∀ {session mate : Session}, session.Alike pairs mate → view session = view mate)
    (h : ∀ seen, (follow seen).Alike pairs agrees (further seen)) :
    (look view >>= follow).Alike pairs agrees (look view >>= further) := by
  intro session mate halike
  rw [run_look, run_look, hview halike]
  exact h _ _ _ halike

theorem alike_bind_here {follow : Location → Rule β} {further : Location → Rule β'}
    (h : ∀ {loc loc'}, pairs loc loc' → (follow loc).Alike pairs agrees (further loc')) :
    (here >>= follow).Alike pairs agrees (here >>= further) :=
  fun _ _ halike => h halike.next.2 _ _ halike

theorem alike_bind_follows (terminals : List Terminal) {follow : Bool → Rule β} {further : Bool → Rule β'}
    (h : ∀ seen, (follow seen).Alike pairs agrees (further seen)) :
    (follows terminals >>= follow).Alike pairs agrees (follows terminals >>= further) :=
  alike_bind_look (fun halike => halike.follows_eq terminals) h

/-- Either none of the next lexemes is selected, or both are, and the same is made of them. -/
theorem alike_bind_take? {γ : Type} (select : Terminal → Option γ) {follow : Option (γ × Location) → Rule β}
    {further : Option (γ × Location) → Rule β'} (hnone : (follow none).Alike pairs agrees (further none))
    (hsome : ∀ {terminal value loc loc'}, select terminal = some value → pairs loc loc' →
      (follow (some (value, loc))).Alike pairs agrees (further (some (value, loc')))) :
    (take? select >>= follow).Alike pairs agrees (take? select >>= further) := by
  intro session mate halike
  obtain ⟨rest, stop, diagnostics⟩ := session
  obtain ⟨rest', stop', diagnostics'⟩ := mate
  rw [run_bind, run_bind, run_take?, run_take?]
  cases hrest : halike.rest with
  | nil => exact hnone _ _ halike
  | @cons terminal _ _ _ _ hplace _ hbehind =>
    cases hselect : select terminal with
    | none => simpa [Session.take?, hselect] using hnone _ _ halike
    | some value => simpa [Session.take?, hselect] using hsome hselect hplace _ _ (halike.skip hbehind)

theorem alike_bind_accept (terminal : Terminal) {follow : Option Location → Rule β}
    {further : Option Location → Rule β'} (hnone : (follow none).Alike pairs agrees (further none))
    (hsome : ∀ {loc loc'}, pairs loc loc' → (follow (some loc)).Alike pairs agrees (further (some loc'))) :
    (accept terminal >>= follow).Alike pairs agrees (accept terminal >>= further) := by
  rw [accept_bind, accept_bind]
  exact alike_bind_take? _ hnone fun _ => hsome

theorem alike_bind_expect (terminal : Terminal) (what : Expectation) {follow : Unit → Rule β}
    {further : Unit → Rule β'} (h : (follow ()).Alike pairs agrees (further ())) :
    (expect terminal what >>= follow).Alike pairs agrees (expect terminal what >>= further) := by
  rw [expect_bind, expect_bind]
  exact alike_bind_accept _ (alike_failHere what) fun _ => h

theorem alike_bind_identifier {follow : String × Location → Rule β} {further : String × Location → Rule β'}
    (h : ∀ {name loc loc'}, pairs loc loc' → (follow (name, loc)).Alike pairs agrees (further (name, loc'))) :
    (identifier >>= follow).Alike pairs agrees (identifier >>= further) := by
  rw [identifier_bind, identifier_bind]
  exact alike_bind_take? _ (alike_failHere _) fun _ => h

theorem alike_bind_record {error error' : SyntaxError} (herror : error.Alike pairs error') {follow : Unit → Rule β}
    {further : Unit → Rule β'} (h : (follow ()).Alike pairs agrees (further ())) :
    (record error >>= follow).Alike pairs agrees (record error' >>= further) :=
  fun _ _ halike => h _ _ (halike.record herror)

theorem alike_bind_skipWith {skip skip' : List Lexeme → List Lexeme}
    (hskip : ∀ {lexemes others}, Lexeme.AllAlike pairs lexemes others →
      Lexeme.AllAlike pairs (skip lexemes) (skip' others))
    {follow : Unit → Rule β} {further : Unit → Rule β'} (h : (follow ()).Alike pairs agrees (further ())) :
    (skipWith skip >>= follow).Alike pairs agrees (skipWith skip' >>= further) :=
  fun _ _ halike => h _ _ (halike.skip (hskip halike.rest))

/-- A repair is the same in both, where the same is skipped. -/
theorem Alike.recovering (h : rule.Alike pairs agree other) {skip skip' : List Lexeme → List Lexeme}
    (hskip : ∀ {lexemes others}, Lexeme.AllAlike pairs lexemes others →
      Lexeme.AllAlike pairs (skip lexemes) (skip' others))
    {kept : α → β} {kept' : α' → β'} (hkept : ∀ {value value'}, agree value value' → agrees (kept value) (kept' value'))
    {left : β} {left' : β'} (hleft : agrees left left') :
    (recovering rule skip kept left).Alike pairs agrees (recovering other skip' kept' left') := by
  intro session mate halike
  have hrule := h session mate halike
  rw [run_recovering, run_recovering]
  generalize rule.run session = outcome at hrule ⊢
  generalize other.run mate = outcome' at hrule ⊢
  cases hrule with
  | done hvalue hnext => exact .done (hkept hvalue) hnext
  | failed herror hnext =>
    have hreported := hnext.report herror
    exact .done hleft (hreported.skip (hskip hreported.rest))
  | exhausted => exact .exhausted

theorem alike_ite {condition : Prop} [Decidable condition] {rule further : Rule α} {other others : Rule α'}
    (h : rule.Alike pairs agree other) (h' : further.Alike pairs agree others) :
    (if condition then rule else further).Alike pairs agree (if condition then other else others) := by
  split
  · exact h
  · exact h'

end Rule

end RoutineSpec
