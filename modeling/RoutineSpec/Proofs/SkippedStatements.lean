import RoutineSpec.Proofs.Position

/-! # Skipping a statement leads ahead

A compound statement that fails is skipped from its start, whatever was skipped inside of it before it failed. The skip
ends no earlier than where the statement failed, in front of the end of input and of the second specification, and in the
block that the statement stands in.
-/

namespace RoutineSpec

namespace Recovery

/-- In front of each closing brace there is an opening one for it: nowhere have more braces been closed than opened. -/
def BracesMatched (span : List Lexeme) : Prop :=
  ∀ front, front <+: span → marks .closeBrace front ≤ marks .openBrace front

/-- A count from outside of all braces gets past no closing brace before the opening one for it. -/
theorem bracesMatched_of_past? {nesting inner : Nesting} {span : List Lexeme} (hbraces : nesting.braces = 0)
    (h : nesting.past? span = some inner) : BracesMatched span := by
  rintro front ⟨more, rfl⟩
  rw [Nesting.past?_append] at h
  obtain ⟨mid, hmid, -⟩ := Option.bind_eq_some_iff.1 h
  have hcount := Nesting.past?_braces hmid
  omega

theorem resume_of_compound {first : Lexeme} {others : List Lexeme} (h : startsCompound first.terminal = true)
    (rest : List Lexeme) : resume (first :: others) rest = skipStatement .outermost (first :: others) :=
  if_pos h

end Recovery

namespace Session

theorem exists_rest_of_next {session : Session} {first : Lexeme} (h : session.next = .lexeme first) :
    ∃ others, session.rest = first :: others := by
  unfold next at h
  split at h
  · cases h
  · next lexeme others hrest =>
    cases h
    exact ⟨others, hrest⟩

/-- A compound statement that fails is skipped to where it failed or further ahead, whatever the vector and wherever in it
    the statement starts. At least the first lexeme is passed, but neither the end of input nor the start of the second
    specification, and each closing brace that is passed has its opening one passed before it. -/
theorem skipStatement_leads_ahead (tokens : List Token) (start : Nat) (diagnostics : List Diagnostic) (n : Nat)
    {first : Lexeme} {error : SyntaxError} {stopped : Session}
    (hfirst : (supplied .start tokens)[start]? = some (.lexeme first))
    (hcompound : Recovery.startsCompound first.terminal = true)
    (hfailed : (Grammar.statement n).run (standing (supplied .start tokens) start diagnostics) =
      .failed error stopped) :
    let vector := supplied .start tokens
    let session := standing vector start diagnostics
    let skipped := { stopped with rest := Recovery.skipStatement .outermost session.rest }
    ∃ ending failure further span,
      session.StandsAt vector start ending ∧
      stopped.StandsAt vector failure ending ∧
      skipped.StandsAt vector further ending ∧
      start ≤ failure ∧ failure ≤ further ∧ start < further ∧
      vector.drop start = span.map .lexeme ++ vector.drop further ∧ further = start + span.length ∧
      (∀ lexeme ∈ span, lexeme.terminal ≠ .keyword .sequential) ∧
      Recovery.BracesMatched span := by
  intro vector session skipped
  have hlength : start < vector.length := (List.getElem?_eq_some_iff.1 hfirst).1
  have hstands : session.StandsAt vector start _ :=
    standsAt_standing (exists_endOfInput_mem_drop .start hlength) diagnostics
  have hadvances := (Grammar.statement_advances n).failed hfailed
  obtain ⟨failure, hfailure, hstopped⟩ := hstands.of_suffix hadvances.rest hadvances.stop
  obtain ⟨others, hrest⟩ : ∃ others, session.rest = first :: others := by
    have hnext : session.next = .lexeme first := Option.some.inj (hstands.getElem?.symm.trans hfirst)
    exact exists_rest_of_next hnext
  have hresume : Recovery.resume session.rest stopped.rest = skipped.rest := by
    rw [hrest, Recovery.resume_of_compound hcompound, ← hrest]
  -- What is skipped begins where the statement begins, and goes on at least to where it failed.
  obtain ⟨span, inner, hspan, hpast⟩ : ∃ span inner, session.rest = span ++ skipped.rest ∧
      Recovery.Nesting.outermost.past? span = some inner := Recovery.exists_skipStatement .outermost session.rest
  obtain ⟨hdrop, hfurther⟩ := hstands.behind hspan hadvances.stop
  have hahead : skipped.rest <:+ stopped.rest := hresume ▸ Grammar.resume_suffix_of_failed hfailed
  have hshorter : skipped.rest.length < session.rest.length :=
    hresume ▸ Recovery.length_resume_lt (by simp [hrest]) hadvances.rest.length_le
  refine ⟨_, failure, start + span.length, span, hstands, hstopped, hfurther, hfailure, ?_, ?_, hdrop, rfl,
    Recovery.Nesting.past?_not_sequential hpast, Recovery.bracesMatched_of_past? rfl hpast⟩
  · have hlengths := hahead.length_le
    have hat := hstopped.length
    have hat' := hfurther.length
    omega
  · have hat := hstands.length
    have hat' := hfurther.length
    omega

/-- An `if` fails in its second branch. In its first branch two assignments have been skipped, one with a parenthesis that
    is never closed, which the skip of the whole `if` still counts when it comes to the end of that branch. -/
theorem skipStatement_leads_ahead_of_open_paren :
    let lexemes : List Lexeme := List.mapIdx (fun i terminal => ⟨terminal, ⟨2, i + 1⟩⟩)
      [.keyword .if_, .mark .openParen, .identifier "x", .mark .closeParen, .mark .openBrace,
        .identifier "x", .mark .equal, .mark .openParen, .mark .semicolon,
        .mark .openBrace, .identifier "y", .mark .equal, .mark .semicolon, .mark .closeBrace, .mark .closeBrace,
        .keyword .else_, .keyword .for_, .mark .openParen, .mark .closeParen, .keyword .sequential]
    let vector := supplied .start (.endOfInput ⟨1, 1⟩ :: lexemes.map .lexeme)
    let session := standing vector 1 []
    let stopped : Session := ⟨lexemes.drop 18, ⟨2, 20⟩,
      [.syntactic ⟨.expected .expression, "';'", ⟨2, 9⟩⟩, .syntactic ⟨.expected .expression, "';'", ⟨2, 13⟩⟩]⟩
    let skipped := { stopped with rest := Recovery.skipStatement .outermost session.rest }
    ∃ ending failure further span,
      session.StandsAt vector 1 ending ∧
      stopped.StandsAt vector failure ending ∧
      skipped.StandsAt vector further ending ∧
      1 ≤ failure ∧ failure ≤ further ∧ 1 < further ∧
      vector.drop 1 = span.map .lexeme ++ vector.drop further ∧ further = 1 + span.length ∧
      (∀ lexeme ∈ span, lexeme.terminal ≠ .keyword .sequential) ∧
      Recovery.BracesMatched span := by
  intro lexemes vector session stopped
  have hsession : session = ⟨lexemes, ⟨2, 20⟩, []⟩ := rfl
  have hfailed : (Grammar.statement 40).run session = .failed ⟨.expected .expression, "')'", ⟨2, 19⟩⟩ stopped := by
    rw [hsession]
    unfold stopped lexemes
    cbv
  exact skipStatement_leads_ahead _ 1 [] 40 rfl rfl hfailed

end Session

end RoutineSpec
