import RoutineSpec.Proofs.ProgramComplete
import RoutineSpec.Reading

/-! # What is read without diagnostics

A token stream is read without diagnostics if and only if its lexemes are a phrase for a program, and then the
program that is read is the one that the phrase stands for.
-/

namespace RoutineSpec

namespace Phrase

section Adjacency

/-! A phrase stays a phrase where more signs are side by side. -/

variable {Adjacent Adjacent' : Location → Location → Prop}

theorem Assignment.mono {span : List Lexeme} {tree : Tree} (h : Assignment Adjacent span tree)
    (hmono : ∀ lexeme ∈ span, ∀ next, Adjacent lexeme.loc next → Adjacent' lexeme.loc next) :
    Assignment Adjacent' span tree := by
  cases h with
  | @increment name loc first second op hsign hadjacent =>
    exact .increment hsign (hmono ⟨.mark op.mark, first⟩ (by simp) second hadjacent)
  | equation targetPhrase valuePhrase => exact .equation targetPhrase valuePhrase

mutual

theorem Statement.mono : ∀ {span tree}, Statement Adjacent span tree →
    (∀ lexeme ∈ span, ∀ next, Adjacent lexeme.loc next → Adjacent' lexeme.loc next) →
    Statement Adjacent' span tree
  | _, _, .assignment phrase, hmono =>
    .assignment (phrase.mono fun lexeme hmem => hmono lexeme (by simp [hmem]))
  | _, _, .ifThen conditionPhrase truePhrase, hmono =>
    .ifThen conditionPhrase (truePhrase.mono fun lexeme hmem => hmono lexeme (by simp [hmem]))
  | _, _, .ifThenElse conditionPhrase truePhrase htakes falsePhrase, hmono =>
    .ifThenElse conditionPhrase (truePhrase.mono fun lexeme hmem => hmono lexeme (by simp [hmem])) htakes
      (falsePhrase.mono fun lexeme hmem => hmono lexeme (by simp [hmem]))
  | _, _, .iteration initPhrase guardPhrase updatePhrase bodyPhrase, hmono =>
    .iteration (initPhrase.mono fun lexeme hmem => hmono lexeme (by simp [hmem])) guardPhrase
      (updatePhrase.mono fun lexeme hmem => hmono lexeme (by simp [hmem]))
      (bodyPhrase.mono fun lexeme hmem => hmono lexeme (by simp [hmem]))
  | _, _, .block phrase, hmono =>
    .block (phrase.mono fun lexeme hmem => hmono lexeme (by simp [hmem]))

theorem Statements.mono : ∀ {span trees}, Statements Adjacent span trees →
    (∀ lexeme ∈ span, ∀ next, Adjacent lexeme.loc next → Adjacent' lexeme.loc next) →
    Statements Adjacent' span trees
  | _, _, .none, _ => .none
  | _, _, .more phrase others, hmono =>
    .more (phrase.mono fun lexeme hmem => hmono lexeme (by simp [hmem]))
      (others.mono fun lexeme hmem => hmono lexeme (by simp [hmem]))

end

variable {span : List Lexeme} {tree : Tree}

theorem Clauses.mono {returned locals : List Tree} {body : Tree}
    (h : Clauses Adjacent span returned locals body)
    (hmono : ∀ lexeme ∈ span, ∀ next, Adjacent lexeme.loc next → Adjacent' lexeme.loc next) :
    Clauses Adjacent' span returned locals body := by
  obtain ⟨returnedPhrase, localPhrase, bodyPhrase⟩ := h
  exact .clauses returnedPhrase localPhrase
    (bodyPhrase.mono fun lexeme hmem => hmono lexeme (by simp [hmem]))

theorem Program.mono (h : Program Adjacent span tree)
    (hmono : ∀ lexeme ∈ span, ∀ next, Adjacent lexeme.loc next → Adjacent' lexeme.loc next) :
    Program Adjacent' span tree := by
  obtain ⟨joinPhrase, sequentialPhrase⟩ := h
  obtain ⟨leftPhrase, rightPhrase, joinClauses⟩ := joinPhrase
  obtain ⟨argPhrase, sequentialClauses⟩ := sequentialPhrase
  exact .program
    (.join leftPhrase rightPhrase (joinClauses.mono fun lexeme hmem => hmono lexeme (by simp [hmem])))
    (.sequential argPhrase (sequentialClauses.mono fun lexeme hmem => hmono lexeme (by simp [hmem])))

end Adjacency

end Phrase

namespace Session

theorem readable_lexemes (last stop : Location) (lexemes : List Lexeme) :
    readable last (lexemes.map .lexeme ++ [.endOfInput stop]) = (lexemes, stop) := by
  induction lexemes generalizing last with
  | nil => rfl
  | cons lexeme lexemes ih => simp [readable, ih]

/-- A session on some lexemes with one end of input, behind them. -/
theorem ofTokens_lexemes (stop : Location) (lexemes : List Lexeme) :
    ofTokens (lexemes.map .lexeme ++ [.endOfInput stop]) = ⟨lexemes, stop, []⟩ := by
  simp [ofTokens, readable_lexemes]

theorem ofSource_eq (policy : DecimalPolicy) (source : String) :
    ofSource policy source =
      ⟨(Scan.of policy source).lexemes, (Scan.of policy source).stop, (Scan.of policy source).errors.map .lexical⟩ := by
  simp [ofSource, Scan.tokens, ofTokens_lexemes]

/-- A session is read without a report, and to its end, if and only if it is in front of a program. -/
theorem finish_eq_ok_nil_iff {session : Session} {tree : Tree} (hclean : session.diagnostics = []) :
    session.finish = .ok ⟨tree, []⟩ ↔ Phrase.Program Location.Touches session.rest tree := by
  rw [finish_eq_ok_iff]
  constructor
  · rintro ⟨next, hdone, hdiagnostics⟩
    obtain ⟨hend, span, hreads, phrase⟩ := Grammar.program_sound hdone
    rw [hreads.clean hdiagnostics, rest_unread, hend, List.append_nil]
    exact phrase
  · intro phrase
    have hread : (Grammar.program (Grammar.budget session)).Reads session.rest
        { session with rest := [] } tree := Grammar.program_complete phrase rfl
    have hsession : Session.unread { session with rest := [] } session.rest = session := by
      simp [unread]
    unfold Rule.Reads at hread
    rw [hsession] at hread
    cases hread with
    | inl hexhausted => exact absurd hexhausted (Grammar.program_ne_exhausted session)
    | inr hdone => exact ⟨_, hdone, hclean⟩

end Session

/-- The grammar is unambiguous: a phrase stands for one program. -/
theorem Phrase.Program.unique {span : List Lexeme} {tree other : Tree}
    (h : Phrase.Program Location.Touches span tree) (h' : Phrase.Program Location.Touches span other) :
    tree = other := by
  have hread : ∀ found, Phrase.Program Location.Touches span found →
      Session.finish ⟨span, .start, []⟩ = .ok ⟨found, []⟩ :=
    fun found => (Session.finish_eq_ok_nil_iff (rfl : (⟨span, .start, []⟩ : Session).diagnostics = [])).2
  cases (hread tree h).symm.trans (hread other h')
  rfl

namespace Reading

/-- Short of the last column, exactly the phrases for programs are read without diagnostics, and the program is
    the one that the phrase stands for. -/
theorem ofTokens_eq_ok_nil_iff (lexemes : List Lexeme) (stop : Location)
    (h : ∀ lexeme ∈ lexemes, lexeme.loc.column < Location.columnCount - 1) (tree : Tree) :
    ofTokens (lexemes.map .lexeme ++ [.endOfInput stop]) = .ok ⟨tree, []⟩ ↔
      Phrase.Program Location.Adjoins lexemes tree := by
  have htouches : ∀ lexeme ∈ lexemes, ∀ next, lexeme.loc.Touches next ↔ lexeme.loc.Adjoins next := by
    intro lexeme hmem next
    exact Location.touches_iff_adjoins (Nat.add_lt_of_lt_sub (h lexeme hmem))
  unfold ofTokens
  rw [Session.ofTokens_lexemes, Session.finish_eq_ok_nil_iff rfl]
  constructor
  · intro phrase
    exact phrase.mono fun lexeme hmem next => (htouches lexeme hmem next).1
  · intro phrase
    exact phrase.mono fun lexeme hmem next => (htouches lexeme hmem next).2

/-- The two signs of an increment are a phrase where they are in consecutive columns. -/
theorem program_of_adjacent_signs :
    let lexemes : List Lexeme := List.mapIdx (fun i terminal => ⟨terminal, ⟨1, i + 1⟩⟩)
      [.keyword .join, .mark .openParen, .mark .pipe, .mark .closeParen,
        .keyword .returns, .mark .openParen, .mark .closeParen,
        .keyword .locals, .mark .openParen, .mark .closeParen, .mark .openBrace, .mark .closeBrace,
        .keyword .sequential, .mark .openParen, .mark .closeParen,
        .keyword .returns, .mark .openParen, .mark .closeParen,
        .keyword .locals, .mark .openParen, .mark .closeParen,
        .identifier "x", .mark .plus, .mark .plus, .mark .semicolon]
    (∀ lexeme ∈ lexemes, lexeme.loc.column < Location.columnCount - 1) ∧
      Phrase.Program Location.Adjoins lexemes
        (.program ⟨1, 1⟩ (.joinSpec ⟨1, 1⟩ [] [] [] [] (.block ⟨1, 11⟩ []))
          (.sequentialSpec ⟨1, 13⟩ [] [] [] (.increment ⟨1, 22⟩ "x" .add ⟨1, 23⟩))) := by
  intro lexemes
  have hcolumns : ∀ lexeme ∈ lexemes, lexeme.loc.column < Location.columnCount - 1 := by decide
  exact ⟨hcolumns, (ofTokens_eq_ok_nil_iff lexemes ⟨1, 26⟩ hcolumns _).1 rfl⟩

end Reading

end RoutineSpec
