import RoutineSpec.Grammar.Rule

/-! # Bounds on what is left

How many lexemes a rule leaves, and that it is not exhausted, goes from the parts of a rule to the whole:
there is a statement for each way to build a rule.
-/

namespace RoutineSpec

/-- The reading ends with fewer than `whenDone` lexemes left if it is done, and with fewer than `whenFailed`
    if it fails. -/
def Outcome.Within {α : Type} (whenDone whenFailed : Nat) : Outcome α → Prop
  | .done _ session => session.rest.length < whenDone
  | .failed _ session => session.rest.length < whenFailed
  | .exhausted => False

namespace Rule

variable {α β : Type} {rule : Rule α} {follow : α → Rule β} {session : Session} {d f d' f' : Nat}

/-- The rule reads from the session within the given bounds. -/
def Within (rule : Rule α) (session : Session) (d f : Nat) : Prop :=
  (rule.run session).Within d f

theorem Within.mono (h : rule.Within session d f) (hd : d ≤ d') (hf : f ≤ f') :
    rule.Within session d' f' := by
  unfold Within Outcome.Within at *
  cases hrun : rule.run session with
  | done | failed => simp only [hrun] at h ⊢; omega
  | exhausted => simp only [hrun] at h

theorem Within.ne_exhausted (h : rule.Within session d f) : rule.run session ≠ .exhausted := by
  intro hrun
  rw [Within, hrun] at h
  exact h

theorem Within.bind (h : rule.Within session d f) (hf : f ≤ f')
    (hfollow : ∀ value next, next.rest.length < d → (follow value).Within next d' f') :
    (rule >>= follow).Within session d' f' := by
  unfold Within at *
  rw [run_bind]
  cases hrun : rule.run session with
  | done value next => exact hfollow _ _ (by simpa [hrun, Outcome.Within] using h)
  | failed error next =>
    have : next.rest.length < f := by simpa [hrun, Outcome.Within] using h
    exact Nat.lt_of_lt_of_le this hf
  | exhausted => simp [hrun, Outcome.Within] at h

theorem within_pure {value : α} (h : session.rest.length < d) : (pure value : Rule α).Within session d f := h

theorem within_failHere {what : Expectation} (h : session.rest.length < f) :
    (failHere what : Rule α).Within session d f := h

theorem within_fail {error : SyntaxError} (h : session.rest.length < f) :
    (fail error : Rule α).Within session d f := h

theorem within_bind_look {γ : Type} {view : Session → γ} {follow : γ → Rule β}
    (h : (follow (view session)).Within session d f) : (look view >>= follow).Within session d f := h

theorem within_bind_skipWith {skip : List Lexeme → List Lexeme} {follow : Unit → Rule β}
    (h : ∀ next : Session, next.rest = skip session.rest → (follow ()).Within next d f) :
    (skipWith skip >>= follow).Within session d f := h _ rfl

theorem rest_report (session : Session) (error : SyntaxError) :
    (session.report error).rest = session.rest := by
  unfold Session.report
  split <;> rfl

theorem within_bind_report {error : SyntaxError} {follow : Unit → Rule β}
    (h : ∀ next : Session, next.rest = session.rest → (follow ()).Within next d f) :
    (report error >>= follow).Within session d f := h _ (rest_report session error)

theorem within_bind_record {error : SyntaxError} {follow : Unit → Rule β}
    (h : ∀ next : Session, next.rest = session.rest → (follow ()).Within next d f) :
    (record error >>= follow).Within session d f := h _ rfl

theorem length_of_take? {γ : Type} {select : Terminal → Option γ} {found : γ × Location} {next : Session}
    (h : session.take? select = some (found, next)) : next.rest.length + 1 = session.rest.length := by
  obtain ⟨terminal, rest, hrest, -, rfl⟩ := Session.take?_eq_some_iff.1 h
  simp [hrest]

theorem within_bind_take? {γ : Type} {select : Terminal → Option γ} {follow : Option (γ × Location) → Rule β}
    (hnone : (follow none).Within session d f)
    (hsome : ∀ found next, next.rest.length + 1 = session.rest.length →
      (follow (some found)).Within next d f) :
    (take? select >>= follow).Within session d f := by
  rw [Within, run_bind, run_take?]
  cases htake : session.take? select with
  | none => exact hnone
  | some found => exact hsome found.1 found.2 (length_of_take? htake)

theorem within_bind_accept {terminal : Terminal} {follow : Option Location → Rule β}
    (hnone : (follow none).Within session d f)
    (hsome : ∀ loc next, next.rest.length + 1 = session.rest.length →
      (follow (some loc)).Within next d f) :
    (accept terminal >>= follow).Within session d f := by
  rw [Within, run_bind, run_accept]
  cases htake : session.take? terminal.same? with
  | none => exact hnone
  | some found => exact hsome found.1.2 found.2 (length_of_take? htake)

theorem within_expect (terminal : Terminal) (what : Expectation) (session : Session) :
    (expect terminal what).Within session session.rest.length (session.rest.length + 1) :=
  within_bind_accept (within_failHere (Nat.lt_succ_self _)) fun _ _ _ => within_pure (by omega)

theorem within_identifier (session : Session) :
    identifier.Within session session.rest.length (session.rest.length + 1) :=
  within_bind_take? (within_failHere (Nat.lt_succ_self _)) fun _ _ _ => within_pure (by omega)

/-- A failure that is handed over as a value is no failure. -/
theorem within_bind_attempt {follow : Except SyntaxError α → Rule β} (h : rule.Within session d f)
    (hok : ∀ value next, next.rest.length < d → (follow (.ok value)).Within next d' f')
    (herror : ∀ error next, next.rest.length < f → (follow (.error error)).Within next d' f') :
    (attempt rule >>= follow).Within session d' f' := by
  unfold Within at *
  rw [run_bind, run_attempt]
  cases hrun : rule.run session with
  | done value next => exact hok _ _ (by simpa [hrun, Outcome.Within] using h)
  | failed error next => exact herror _ _ (by simpa [hrun, Outcome.Within] using h)
  | exhausted => simp [hrun, Outcome.Within] at h

end Rule

end RoutineSpec
