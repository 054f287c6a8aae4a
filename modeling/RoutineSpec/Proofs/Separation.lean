import RoutineSpec.Proofs.Composed

/-! # No look past the second specification

The word that starts the second specification closes the first one off. Reading the first specification stops at the
word, and so does everything that is skipped, so what stands behind the word makes no difference to it.
-/

namespace RoutineSpec

namespace Session

/-- The session on a stream that goes on behind its last lexeme. -/
def followedBy (session : Session) (behind : List Lexeme) (stop : Location) : Session :=
  ⟨session.rest ++ behind, stop, session.diagnostics⟩

variable {session : Session} {key : Lexeme} {behind : List Lexeme} {stop : Location}

/-- Where something is left to read, the next token is the same. -/
theorem next_followedBy (h : [key] <:+ session.rest) : (session.followedBy behind stop).next = session.next := by
  unfold followedBy Session.next
  cases hrest : session.rest with
  | nil => simp [hrest] at h
  | cons lexeme rest => rfl

theorem take?_followedBy {α : Type} (select : Terminal → Option α) (h : [key] <:+ session.rest) :
    (session.followedBy behind stop).take? select =
      (session.take? select).map fun (found, next) => (found, next.followedBy behind stop) := by
  unfold followedBy take?
  cases hrest : session.rest with
  | nil => simp [hrest] at h
  | cons lexeme rest => cases hselect : select lexeme.terminal <;> simp [hselect]

theorem report_followedBy (error : SyntaxError) :
    (session.followedBy behind stop).report error = (session.report error).followedBy behind stop := by
  have hjust : (session.followedBy behind stop).justReportedAt error.loc = session.justReportedAt error.loc := rfl
  unfold report
  rw [hjust]
  split <;> rfl

end Session

/-- What the reading comes to if the stream goes on. -/
def Outcome.followedBy {α : Type} (behind : List Lexeme) (stop : Location) : Outcome α → Outcome α
  | .done value next => .done value (next.followedBy behind stop)
  | .failed error next => .failed error (next.followedBy behind stop)
  | .exhausted => .exhausted

/-- However the reading ends, `key` is left at the end of the stream. -/
def Outcome.Leaves {α : Type} (key : Lexeme) : Outcome α → Prop
  | .done _ next | .failed _ next => [key] <:+ next.rest
  | .exhausted => True

namespace Grammar

variable {key : Lexeme} {lexemes : List Lexeme}

/-- An increment is told by four lexemes, and none of them is the word that starts the second specification. -/
theorem increment?_eq_none_of_mem (hkey : key.terminal = .keyword .sequential) (hmem : key ∈ lexemes.take 4) :
    increment? lexemes = none := by
  unfold increment?
  split
  · next name loc first second fourth more =>
    refine ite_eq_right_iff.2 fun ⟨hsame, _, hend⟩ => ?_
    rcases (by simpa using hmem : key = _ ∨ key = first ∨ key = second ∨ key = fourth) with rfl | rfl | rfl | rfl
    · cases hkey
    · simp [hkey, incrementOp?]
    · simp [hsame, hkey, incrementOp?]
    · simp [hkey] at hend
  · rfl

theorem increment?_append (hkey : key.terminal = .keyword .sequential) (h : [key] <:+ lexemes)
    (behind : List Lexeme) : increment? (lexemes ++ behind) = increment? lexemes := by
  obtain ⟨before, rfl⟩ := h
  match before with
  | [] | [_] | [_, _] | [_, _, _] =>
    rw [increment?_eq_none_of_mem hkey (by simp), increment?_eq_none_of_mem hkey (by simp)]
  | ⟨terminal, loc⟩ :: _ :: _ :: _ :: _ => cases terminal <;> rfl

theorem suffix_drop_of_increment? {tree : Tree} (hkey : key.terminal = .keyword .sequential)
    (h : [key] <:+ lexemes) (hincrement : increment? lexemes = some tree) : [key] <:+ lexemes.drop 3 := by
  obtain ⟨before, rfl⟩ := h
  match before with
  | [] | [_] | [_, _] => rw [increment?_eq_none_of_mem hkey (by simp)] at hincrement; cases hincrement
  | _ :: _ :: _ :: before => exact List.suffix_append before [key]

end Grammar

namespace Rule

variable {α β : Type} {ahead : Token → Prop} {session : Session} {key : Lexeme}

/-- The rule leaves `key`, at the end of what there is to read, and does the same whatever follows `key`. -/
structure Separate (rule : Rule α) (key : Lexeme) (session : Session) : Prop where
  leaves : (rule.run session).Leaves key
  run_followedBy : ∀ behind stop,
    rule.run (session.followedBy behind stop) = (rule.run session).followedBy behind stop

theorem separate_pure (value : α) (h : [key] <:+ session.rest) : (pure value : Rule α).Separate key session :=
  ⟨h, fun _ _ => rfl⟩

theorem separate_failHere (what : Expectation) (h : [key] <:+ session.rest) :
    (failHere what : Rule α).Separate key session := by
  refine ⟨h, fun behind stop => ?_⟩
  simp [failHere, Outcome.followedBy, Session.next_followedBy h]

theorem separate_bind {rule : Rule α} {follow : α → Rule β} (h : rule.Separate key session)
    (hfollow : ∀ value next, [key] <:+ next.rest → (follow value).Separate key next) :
    (rule >>= follow).Separate key session := by
  obtain ⟨hleaves, hrule⟩ := h
  refine ⟨?_, fun behind stop => ?_⟩
  · rw [run_bind]
    cases hrun : rule.run session with
    | exhausted => trivial
    | failed error next =>
      rw [hrun] at hleaves
      exact hleaves
    | done value next =>
      rw [hrun] at hleaves
      exact (hfollow value next hleaves).leaves
  · rw [run_bind, run_bind, hrule]
    cases hrun : rule.run session with
    | exhausted | failed => rfl
    | done value next =>
      rw [hrun] at hleaves
      exact (hfollow value next hleaves).run_followedBy behind stop

theorem separate_take? {select : Terminal → Option α} (hselect : select key.terminal = none)
    (h : [key] <:+ session.rest) : (take? select).Separate key session := by
  refine ⟨?_, fun behind stop => ?_⟩
  · rw [run_take?]
    cases htake : session.take? select with
    | none => exact h
    | some taken =>
      obtain ⟨⟨found, loc⟩, next⟩ := taken
      obtain ⟨terminal, rest, hrest, hfound, rfl⟩ := Session.take?_eq_some_iff.1 htake
      rw [hrest, List.suffix_cons_iff] at h
      rcases h with hkey | hrest
      · cases hkey
        simp [hselect] at hfound
      · exact hrest
  · rw [run_take?, run_take?, Session.take?_followedBy select h]
    cases session.take? select <;> rfl

theorem separate_increment (hkey : key.terminal = .keyword .sequential) (h : [key] <:+ session.rest) :
    Grammar.increment.Separate key session := by
  refine ⟨?_, fun behind stop => ?_⟩
  · rw [Grammar.run_increment]
    cases hincrement : Grammar.increment? session.rest with
    | none => exact h
    | some tree => exact Grammar.suffix_drop_of_increment? hkey h hincrement
  · have hrest : (session.followedBy behind stop).rest = session.rest ++ behind := rfl
    rw [Grammar.run_increment, Grammar.run_increment, hrest, Grammar.increment?_append hkey h]
    cases hincrement : Grammar.increment? session.rest with
    | none => rfl
    | some tree =>
      have hlength : 3 ≤ session.rest.length := by
        obtain ⟨before, hbefore⟩ := Grammar.suffix_drop_of_increment? hkey h hincrement
        have := congrArg List.length hbefore
        simp only [List.length_append, List.length_singleton, List.length_drop] at this
        omega
      simp [Outcome.followedBy, Session.followedBy, List.drop_append_of_le_length hlength]

theorem separate_guard {n : Nat} (hend : [key] <:+ session.rest)
    (h : (Grammar.binary n Precedence.ladder).Separate key session) : (Grammar.guard n).Separate key session := by
  obtain ⟨hleaves, hrun⟩ := h
  refine ⟨?_, fun behind stop => ?_⟩
  · rw [Grammar.run_guard]
    cases hbinary : (Grammar.binary n Precedence.ladder).run session with
    | exhausted => trivial
    | failed error next =>
      rw [hbinary] at hleaves
      exact hleaves
    | done tree next =>
      rw [hbinary] at hleaves
      simp only
      split
      · exact hleaves
      · exact hleaves
  · rw [Grammar.run_guard, Grammar.run_guard, hrun, Session.next_followedBy hend]
    cases (Grammar.binary n Precedence.ladder).run session with
    | exhausted | failed => rfl
    | done tree next =>
      simp only [Outcome.followedBy]
      split <;> rfl

theorem separate_recovering {rule : Rule α} {skip : List Lexeme → List Lexeme → List Lexeme} {kept : α → β}
    {left : β} (hend : [key] <:+ session.rest) (h : rule.Separate key session)
    (hstops : ∀ {before : List Lexeme}, session.rest = before ++ [key] → ∀ others behind, ∃ left,
      skip (before ++ [key]) (others ++ [key]) = left ++ [key] ∧
        skip (before ++ key :: behind) (others ++ key :: behind) = left ++ key :: behind) :
    (look Session.rest >>= fun start => recovering rule (skip start) kept left).Separate key session := by
  obtain ⟨hleaves, hrun⟩ := h
  obtain ⟨before, hbefore⟩ := hend
  refine ⟨?_, fun behind stop => ?_⟩
  · rw [run_look, run_recovering]
    cases hrule : rule.run session with
    | exhausted => trivial
    | done value next =>
      rw [hrule] at hleaves
      exact hleaves
    | failed error next =>
      rw [hrule] at hleaves
      obtain ⟨others, hothers⟩ := hleaves
      obtain ⟨kept, hskip, -⟩ := hstops hbefore.symm others []
      simp only [Outcome.Leaves, rest_report]
      rw [← hbefore, ← hothers, hskip]
      exact List.suffix_append _ _
  · rw [run_look, run_look, run_recovering, run_recovering, hrun]
    cases hrule : rule.run session with
    | exhausted | done => rfl
    | failed error next =>
      rw [hrule] at hleaves
      obtain ⟨others, hothers⟩ := hleaves
      obtain ⟨kept, hskip, hskip'⟩ := hstops hbefore.symm others behind
      have hwhole : (session.followedBy behind stop).rest = before ++ key :: behind := by
        simp [Session.followedBy, ← hbefore]
      have hwhole' : ((next.report error).followedBy behind stop).rest = others ++ key :: behind := by
        simp [Session.followedBy, rest_report, ← hothers]
      simp only [Outcome.followedBy, Session.report_followedBy]
      rw [hwhole, hwhole', hskip', rest_report, ← hbefore, ← hothers, hskip]
      simp [Session.followedBy]

theorem Composed.separate {rule : Rule α} (h : rule.Composed False ahead) (hkey : key.terminal = .keyword .sequential) :
    ∀ session : Session, ahead session.next → [key] <:+ session.rest → rule.Separate key session := by
  induction h with
  | pure value => exact fun _ _ hend => separate_pure value hend
  | exhausted => exact fun _ _ _ => ⟨trivial, fun _ _ => rfl⟩
  | failHere what => exact fun _ _ hend => separate_failHere what hend
  | bind _ _ ih ihfollow =>
    exact fun session hahead hend => separate_bind (ih session hahead hend) fun value next =>
      ihfollow value next trivial
  | @look _ _ _ view _ hview _ ih =>
    intro session hahead hend
    obtain ⟨hleaves, hrun⟩ := ih session hahead session rfl hend
    refine ⟨hleaves, fun behind stop => ?_⟩
    have hsame : view (session.followedBy behind stop) = view session := hview (Session.next_followedBy hend)
    rw [run_look, run_look, hsame]
    exact hrun behind stop
  | take? hselect => exact fun _ _ hend => separate_take? (by rw [hkey]; exact hselect.resolve_right id) hend
  | increment => exact fun _ _ hend => separate_increment hkey hend
  | guard n _ ih => exact fun session hahead hend => separate_guard hend (ih session hahead hend)
  | recovering _ _ _ hstops ih =>
    exact fun session hahead hend => separate_recovering hend (ih session hahead hend) fun hrest =>
      hstops hkey hrest hahead

end Rule

end RoutineSpec
