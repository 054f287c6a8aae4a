import RoutineSpec.Proofs.ProgramComplete

/-! # Headers

The header of a specification is all that stands in front of its body. Reading a header does not depend on the body:
whatever the body comes to, the specification is built on that. So what is known of the reading of a body, such as
that it gets over some errors, is known of the reading of the specification.
-/

namespace RoutineSpec

/-- Some lexemes between braces. -/
def braced (brace close : Location) (lexemes : List Lexeme) : List Lexeme :=
  ⟨.mark .openBrace, brace⟩ :: lexemes ++ [⟨.mark .closeBrace, close⟩]

/-- Unless its budget runs out, the rule is done from the session, and `Post` holds of what it comes to. -/
def Rule.Succeeds {α : Type} (rule : Rule α) (session : Session) (Post : α → Session → Prop) : Prop :=
  match rule.run session with
  | .done value next => Post value next
  | .failed .. => False
  | .exhausted => True

namespace Rule

variable {α β : Type} {rule : Rule α} {follow : α → Rule β} {session next : Session} {span : List Lexeme}
  {Post : α → Session → Prop} {Post' : β → Session → Prop} {first : α}

theorem Succeeds.exists_done (h : rule.Succeeds session Post) (hbudget : rule.run session ≠ .exhausted) :
    ∃ value next, rule.run session = .done value next ∧ Post value next := by
  unfold Succeeds at h
  cases hrun : rule.run session with
  | done value next => exact ⟨value, next, rfl, by simpa [hrun] using h⟩
  | failed error next => simp [hrun] at h
  | exhausted => exact absurd hrun hbudget

theorem Succeeds.mono {Post' : α → Session → Prop} (h : rule.Succeeds session Post)
    (hpost : ∀ {value next}, Post value next → Post' value next) : rule.Succeeds session Post' := by
  unfold Succeeds at *
  cases hrun : rule.run session with
  | done value next => exact hpost (by simpa [hrun] using h)
  | failed error next => simp [hrun] at h
  | exhausted => trivial

theorem Succeeds.bind (h : rule.Succeeds session Post)
    (hfollow : ∀ {value next}, Post value next → (follow value).Succeeds next Post') :
    (rule >>= follow).Succeeds session Post' := by
  unfold Succeeds at *
  rw [run_bind]
  cases hrun : rule.run session with
  | done value next => exact hfollow (by simpa [hrun] using h)
  | failed error next => simp [hrun] at h
  | exhausted => trivial

theorem Reads.succeeds (h : rule.Reads span next first) :
    rule.Succeeds (next.unread span) fun value last => value = first ∧ last = next := by
  unfold Succeeds
  rcases h with h | h
  · rw [h]; trivial
  · rw [h]; exact ⟨rfl, rfl⟩

theorem Reads.bind_succeeds (h : rule.Reads span next first) (hfollow : (follow first).Succeeds next Post') :
    (rule >>= follow).Succeeds (next.unread span) Post' :=
  h.succeeds.bind fun ⟨hvalue, hlast⟩ => hvalue ▸ hlast ▸ hfollow

/-- A success needs no attempt. -/
theorem Succeeds.attempt (h : rule.Succeeds session Post) :
    (attempt rule).Succeeds session fun ended last => ∃ value, ended = .ok value ∧ Post value last := by
  unfold Succeeds at *
  rw [run_attempt]
  cases hrun : rule.run session with
  | done value next => exact ⟨value, rfl, by simpa [hrun] using h⟩
  | failed error next => simp [hrun] at h
  | exhausted => trivial

theorem succeeds_bind_look {γ : Type} {view : Session → γ} {follow : γ → Rule β}
    (h : (follow (view session)).Succeeds session Post') : (look view >>= follow).Succeeds session Post' := h

theorem succeeds_bind_accept_none {terminal : Terminal} {follow : Option Location → Rule β}
    (habsent : ∀ lexeme ∈ session.rest.head?, lexeme.terminal ≠ terminal)
    (h : (follow none).Succeeds session Post') : (accept terminal >>= follow).Succeeds session Post' := by
  have hnone : session.take? terminal.same? = none :=
    session.take?_eq_none_iff.2 fun lexeme hmem => Terminal.same?_eq_none_iff.2 (habsent lexeme hmem)
  rw [Succeeds, run_bind, run_accept, hnone]
  exact h

theorem succeeds_bind_accept_some {terminal : Terminal} {loc : Location} {follow : Option Location → Rule β}
    (h : (follow (some loc)).Succeeds (next.unread span) Post') :
    (accept terminal >>= follow).Succeeds (next.unread (⟨terminal, loc⟩ :: span)) Post' := by
  have hsame : terminal.same? terminal = some () := Terminal.same?_eq_some_iff.2 rfl
  rw [Session.unread_cons, Succeeds, run_bind, run_accept, Session.take?_unread _ hsame]
  exact h

theorem succeeds_bind_expect {terminal : Terminal} {loc : Location} {what : Expectation} {follow : Unit → Rule β}
    (h : (follow ()).Succeeds (next.unread span) Post') :
    (expect terminal what >>= follow).Succeeds (next.unread (⟨terminal, loc⟩ :: span)) Post' := by
  rw [expect_bind]
  exact succeeds_bind_accept_some h

end Rule

namespace Phrase

/-- No brace is opened in the lexemes. -/
def Unbraced (span : List Lexeme) : Prop :=
  ∀ lexeme ∈ span, lexeme.terminal ≠ .mark .openBrace

theorem Unbraced.append {span more : List Lexeme} (h : Unbraced span) (h' : Unbraced more) : Unbraced (span ++ more) :=
  List.forall_mem_append.2 ⟨h, h'⟩

theorem Unbraced.cons {lexeme : Lexeme} {span : List Lexeme} (hfirst : lexeme.terminal ≠ .mark .openBrace)
    (h : Unbraced span) : Unbraced (lexeme :: span) :=
  List.forall_mem_cons.2 ⟨hfirst, h⟩

theorem unbraced_nil : Unbraced [] := by
  simp [Unbraced]

variable {Item : List Lexeme → Tree → Prop} {Adjacent : Location → Location → Prop} {span : List Lexeme} {tree : Tree}
  {trees : List Tree}

theorem JoinSpec.eq_joinSpec (h : JoinSpec Adjacent span tree) :
    ∃ loc left right returned locals body, tree = .joinSpec loc left right returned locals body := by
  cases h
  exact ⟨_, _, _, _, _, _, rfl⟩

theorem SequentialSpec.eq_sequentialSpec (h : SequentialSpec Adjacent span tree) :
    ∃ loc args returned locals body, tree = .sequentialSpec loc args returned locals body := by
  cases h
  exact ⟨_, _, _, _, _, rfl⟩

/-! ## Where no brace is opened -/

theorem Argument.unbraced (h : Argument span tree) : Unbraced span := by
  cases h with
  | declaration typePhrase =>
    cases typePhrase with
    | base => exact .cons (by simp) (.cons (by simp) unbraced_nil)
    | pointer => exact .cons (by simp) (.cons (by simp) (.cons (by simp) unbraced_nil))

theorem Returned.unbraced (h : Returned span tree) : Unbraced span := by
  cases h with
  | name => exact .cons (by simp) unbraced_nil

theorem AnyListed.unbraced (h : AnyListed Item span trees) (hitem : ∀ {span tree}, Item span tree → Unbraced span) :
    Unbraced span := by
  cases h with
  | none => exact unbraced_nil
  | some phrase =>
    induction phrase with
    | last phrase => exact hitem phrase
    | more phrase _ ih => exact (hitem phrase).append (.cons (by simp) ih)

end Phrase

namespace Grammar

open Rule Phrase

/-- A body that is read as a statement is read as the body of a first specification. -/
theorem joinBody_of_statement {n : Nat} {session : Session} {Post : Tree → Session → Prop}
    (h : (statement n).Succeeds session Post) : (joinBody n).Succeeds session Post := by
  refine succeeds_bind_look (h.attempt.bind fun {ended last} hended => ?_)
  obtain ⟨tree, rfl, hpost⟩ := hended
  exact hpost

/-- The lexemes are a header: where `body` comes to a tree behind them, `rule` comes to what `build` makes of the
    tree. -/
structure Heads (rule body : Nat → Rule Tree) (header : List Lexeme) (build : Tree → Tree) : Prop where
  unbraced : Unbraced header
  succeeds : ∀ {n next Post}, (body n).Succeeds next Post →
    (rule n).Succeeds (next.unread header) fun tree last => ∃ inner, Post inner last ∧ tree = build inner

variable {Adjacent : Location → Location → Prop} {span : List Lexeme} {returned locals : List Tree} {body : Tree}

/-- The clauses in front of a body are read in front of any body. -/
theorem clauses_heads (h : Clauses Adjacent span returned locals body) :
    ∃ header bodySpan, span = header ++ bodySpan ∧ Statement Adjacent bodySpan body ∧
      ∀ {rule : Nat → Rule Tree} {build : List Tree → List Tree → Tree → Tree},
        Heads (fun n => returnsClause n >>= fun returned => localsClause n >>= fun locals => rule n >>= fun tree =>
          pure (build returned locals tree)) rule header (build returned locals) := by
  cases h with
  | @clauses returnedSpan localSpan bodySpan _ _ _ returns paren end_ locals_ paren' end' returnedPhrase localPhrase
    bodyPhrase =>
  refine ⟨(⟨.keyword .returns, returns⟩ :: ⟨.mark .openParen, paren⟩ :: returnedSpan ++
      [⟨.mark .closeParen, end_⟩]) ++ (⟨.keyword .locals, locals_⟩ :: ⟨.mark .openParen, paren'⟩ :: localSpan ++
        [⟨.mark .closeParen, end'⟩]), bodySpan, by simp, bodyPhrase, fun {rule build} => ⟨?_, fun hbody => ?_⟩⟩
  · refine .append (.append (.cons (by simp) (.cons (by simp) ?_)) (.cons (by simp) unbraced_nil))
      (.append (.cons (by simp) (.cons (by simp) ?_)) (.cons (by simp) unbraced_nil))
    · exact returnedPhrase.unbraced Returned.unbraced
    · exact localPhrase.unbraced Argument.unbraced
  · rw [Session.unread_append]
    refine (returnsClause_complete returnedPhrase).bind_succeeds ?_
    refine (localsClause_complete localPhrase).bind_succeeds ?_
    exact hbody.bind fun hpost => ⟨_, hpost, rfl⟩

/-- A first specification is a header with a body behind it. -/
theorem joinSpec_heads {loc : Location} {left right : List Tree}
    (h : JoinSpec Adjacent span (.joinSpec loc left right returned locals body)) :
    ∃ header bodySpan, span = ⟨.keyword .join, loc⟩ :: header ++ bodySpan ∧ Statement Adjacent bodySpan body ∧
      Heads joinSpec joinBody (⟨.keyword .join, loc⟩ :: header) (.joinSpec loc left right returned locals) := by
  cases h with
  | @join leftSpan rightSpan _ _ _ _ _ _ _ paren pipe closeParen leftPhrase rightPhrase clausePhrase =>
  obtain ⟨header, bodySpan, rfl, bodyPhrase, hclauses⟩ := clauses_heads clausePhrase
  refine ⟨⟨.mark .openParen, paren⟩ :: leftSpan ++ ⟨.mark .pipe, pipe⟩ :: rightSpan ++
    ⟨.mark .closeParen, closeParen⟩ :: header, bodySpan, by simp, bodyPhrase, ?_, fun {n next Post} hbody => ?_⟩
  · refine .append (.append (.cons (by simp) (.cons (by simp) ?_)) (.cons (by simp) ?_)) (.cons (by simp) ?_)
    · exact leftPhrase.unbraced Argument.unbraced
    · exact rightPhrase.unbraced Argument.unbraced
    · exact (@hclauses joinBody (.joinSpec loc left right)).unbraced
  · simp only [List.append_assoc, List.cons_append]
    refine succeeds_bind_look (succeeds_bind_expect (succeeds_bind_expect ?_))
    rw [Session.unread_append]
    refine (argumentList_complete leftPhrase (.inr rfl)).bind_succeeds (succeeds_bind_expect ?_)
    rw [Session.unread_append]
    refine (argumentList_complete rightPhrase (.inl rfl)).bind_succeeds (succeeds_bind_expect ?_)
    exact hclauses.succeeds hbody

/-- The same of a second specification. -/
theorem sequentialSpec_heads {loc : Location} {args : List Tree}
    (h : SequentialSpec Adjacent span (.sequentialSpec loc args returned locals body)) :
    ∃ header bodySpan, span = header ++ bodySpan ∧ Statement Adjacent bodySpan body ∧
      Heads sequentialSpec statement header (.sequentialSpec loc args returned locals) := by
  cases h with
  | @sequential argSpan _ _ _ _ _ _ paren closeParen argPhrase clausePhrase =>
  obtain ⟨header, bodySpan, rfl, bodyPhrase, hclauses⟩ := clauses_heads clausePhrase
  refine ⟨⟨.keyword .sequential, loc⟩ :: ⟨.mark .openParen, paren⟩ :: argSpan ++
    ⟨.mark .closeParen, closeParen⟩ :: header, bodySpan, by simp, bodyPhrase, ?_, fun {n next Post} hbody => ?_⟩
  · refine .append (.cons (by simp) (.cons (by simp) ?_)) (.cons (by simp) ?_)
    · exact argPhrase.unbraced Argument.unbraced
    · exact (@hclauses statement (.sequentialSpec loc args)).unbraced
  · simp only [List.cons_append]
    refine succeeds_bind_look (succeeds_bind_expect (succeeds_bind_expect ?_))
    rw [Session.unread_append]
    refine (argumentList_complete argPhrase (.inl rfl)).bind_succeeds (succeeds_bind_expect ?_)
    exact hclauses.succeeds hbody

end Grammar

end RoutineSpec
