import RoutineSpec.Proofs.Unread

/-! # What a rule reads given budget enough

A rule reads a run of lexemes as a value if, in front of that run, it is done with the value behind the run and
reports nothing, or its budget runs out. The second case is why no bound on budgets is needed here:
`RoutineSpec.Grammar.Progress` excludes it for a whole program once and for all.
-/

namespace RoutineSpec

namespace Rule

variable {α β : Type}

def Reads (rule : Rule α) (span : List Lexeme) (next : Session) (value : α) : Prop :=
  rule.run (next.unread span) = .exhausted ∨ rule.run (next.unread span) = .done value next

variable {rule : Rule α} {follow : α → Rule β} {span more : List Lexeme} {next : Session} {first : α}
  {value : β} {terminal : Terminal} {loc : Location}

theorem reads_exhausted : (exhausted : Rule α).Reads span next first :=
  .inl rfl

theorem reads_pure : (pure first : Rule α).Reads [] next first :=
  .inr rfl

theorem Reads.bind (h : rule.Reads span (next.unread more) first)
    (hfollow : (follow first).Reads more next value) : (rule >>= follow).Reads (span ++ more) next value := by
  unfold Reads at *
  rw [Session.unread_append, run_bind]
  cases h with
  | inl h => exact .inl (by rw [h])
  | inr h => simpa only [h] using hfollow

/-- The last part of a rule may read nothing more. -/
theorem Reads.bind_nil (h : rule.Reads span next first) (hfollow : (follow first).Reads [] next value) :
    (rule >>= follow).Reads span next value := by
  have hwhole : (rule >>= follow).Reads (span ++ []) next value := h.bind hfollow
  rwa [List.append_nil] at hwhole

theorem reads_bind_look {γ : Type} {view : Session → γ} {follow : γ → Rule β}
    (h : (follow (view (next.unread span))).Reads span next value) :
    (look view >>= follow).Reads span next value := h

theorem reads_bind_take?_some {γ : Type} {select : Terminal → Option γ} {found : γ}
    {follow : Option (γ × Location) → Rule β} (hselect : select terminal = some found)
    (h : (follow (some (found, loc))).Reads span next value) :
    (take? select >>= follow).Reads (⟨terminal, loc⟩ :: span) next value := by
  unfold Reads at *
  rw [Session.unread_cons, run_bind, run_take?, Session.take?_unread _ hselect]
  exact h

theorem reads_bind_take?_none {γ : Type} {select : Terminal → Option γ}
    {follow : Option (γ × Location) → Rule β}
    (hselect : ∀ lexeme ∈ (span ++ next.rest).head?, select lexeme.terminal = none)
    (h : (follow none).Reads span next value) : (take? select >>= follow).Reads span next value := by
  unfold Reads at *
  rw [run_bind, run_take?, (Session.take?_eq_none_iff _).2 hselect]
  exact h

theorem reads_bind_accept_some {follow : Option Location → Rule β}
    (h : (follow (some loc)).Reads span next value) :
    (accept terminal >>= follow).Reads (⟨terminal, loc⟩ :: span) next value := by
  unfold Reads at *
  have hsame : terminal.same? terminal = some () := Terminal.same?_eq_some_iff.2 rfl
  rw [Session.unread_cons, run_bind, run_accept, Session.take?_unread _ hsame]
  exact h

theorem reads_bind_accept_none {follow : Option Location → Rule β}
    (habsent : ∀ lexeme ∈ (span ++ next.rest).head?, lexeme.terminal ≠ terminal)
    (h : (follow none).Reads span next value) : (accept terminal >>= follow).Reads span next value := by
  have hnone : (next.unread span).take? terminal.same? = none :=
    (Session.take?_eq_none_iff _).2 fun lexeme hmem => Terminal.same?_eq_none_iff.2 (habsent lexeme hmem)
  unfold Reads at *
  rw [run_bind, run_accept, hnone]
  exact h

theorem reads_bind_expect {what : Expectation} {follow : Unit → Rule β}
    (h : (follow ()).Reads span next value) :
    (expect terminal what >>= follow).Reads (⟨terminal, loc⟩ :: span) next value := by
  have hread : (expect terminal what).Reads [⟨terminal, loc⟩] (next.unread span) () :=
    reads_bind_accept_some reads_pure
  exact hread.bind h

theorem reads_bind_identifier {name : String} {follow : String × Location → Rule β}
    (h : (follow (name, loc)).Reads span next value) :
    (identifier >>= follow).Reads (⟨.identifier name, loc⟩ :: span) next value := by
  have hread : identifier.Reads [⟨.identifier name, loc⟩] (next.unread span) (name, loc) :=
    reads_bind_take?_some rfl reads_pure
  exact hread.bind h

/-- What is read without a failure needs no attempt. -/
theorem Reads.attempt (h : rule.Reads span next first) : (attempt rule).Reads span next (.ok first) := by
  unfold Reads at *
  rw [run_attempt]
  cases h with
  | inl h => exact .inl (by rw [h])
  | inr h => exact .inr (by rw [h])

end Rule

end RoutineSpec
