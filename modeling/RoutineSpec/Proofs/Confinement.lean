import RoutineSpec.Proofs.Agreement
import RoutineSpec.Proofs.Halves
import RoutineSpec.Proofs.Headers

/-! # Recovery does not leave a block

Where a block holds no other block, whatever stands between its braces, reading the block is done, and is done at its
closing brace. A statement gets past that brace neither where it is read nor where it is skipped: in the count of
brackets the brace would close a block that no statement has opened.
-/

namespace RoutineSpec

/-- Neither a brace nor the word that starts the second specification. -/
def Terminal.flat : Terminal → Bool
  | .mark .openBrace | .mark .closeBrace | .keyword .sequential => false
  | _ => true

namespace Recovery

/-- The lexemes are those of a block up to a closing brace, with `behind` behind it. -/
def Approaches (close : Location) (behind lexemes : List Lexeme) : Prop :=
  ∃ inside, lexemes = inside ++ ⟨.mark .closeBrace, close⟩ :: behind ∧
    ∀ lexeme ∈ inside, lexeme.terminal.flat = true

variable {close : Location} {behind lexemes span rest : List Lexeme}

/-- What begins in the block and does not pass its closing brace leaves the block at that brace or before. -/
theorem Approaches.of_append (h : Approaches close behind (span ++ rest))
    (hstays : ∀ inside more, span = inside ++ ⟨.mark .closeBrace, close⟩ :: more →
      (∀ lexeme ∈ inside, lexeme.terminal.flat = true) → False) : Approaches close behind rest := by
  obtain ⟨inside, hlexemes, hflat⟩ := h
  obtain ⟨left, hinside, hrest⟩ | ⟨more, hspan, hmore⟩ := List.append_eq_append_iff.1 hlexemes
  · exact ⟨left, hrest, fun lexeme hmem => hflat lexeme (hinside ▸ List.mem_append_right _ hmem)⟩
  · cases more with
    | nil => exact ⟨[], hmore.symm, by simp⟩
    | cons first more =>
      cases (List.cons.inj hmore).1
      exact absurd hflat (hstays inside more hspan)

namespace Nesting

variable {nesting inner : Nesting}

theorem marks_eq_zero_of_flat {sign : Mark} (hsign : Terminal.flat (.mark sign) = false)
    (hflat : ∀ lexeme ∈ span, lexeme.terminal.flat = true) : marks sign span = 0 := by
  refine List.count_eq_zero.2 fun hmem => ?_
  obtain ⟨lexeme, hlexeme, hterminal⟩ := List.mem_map.1 hmem
  rw [← hterminal, hflat lexeme hlexeme] at hsign
  cases hsign

theorem braces_of_past?_flat (h : nesting.past? span = some inner)
    (hflat : ∀ lexeme ∈ span, lexeme.terminal.flat = true) : inner.braces = nesting.braces := by
  have hbraces := past?_braces h
  rwa [marks_eq_zero_of_flat rfl hflat, marks_eq_zero_of_flat rfl hflat] at hbraces

/-- Where no brace is open, a closing one is no part of the statement. -/
theorem after?_closeBrace_eq_none (h : nesting.braces = 0) : nesting.after? (.mark .closeBrace) = none := by
  unfold after?
  simp [h]

end Nesting

theorem Approaches.of_past? {nesting inner : Nesting} (h : Approaches close behind (span ++ rest))
    (hbraces : nesting.braces = 0) (hpast : nesting.past? span = some inner) : Approaches close behind rest := by
  refine h.of_append fun inside more hspan hflat => ?_
  -- Up to the brace, the count of braces stays at zero, and there the statement would be over.
  rw [hspan, Nesting.past?_append] at hpast
  obtain ⟨mid, hmid, hclose⟩ := Option.bind_eq_some_iff.1 hpast
  obtain ⟨next, hnext, -⟩ := Nesting.past?_cons_eq_some_iff.1 hclose
  rw [Nesting.after?_closeBrace_eq_none (by rw [Nesting.braces_of_past?_flat hmid hflat, hbraces])] at hnext
  cases hnext

theorem Approaches.skipStatement (h : Approaches close behind lexemes) :
    Approaches close behind (skipStatement .outermost lexemes) := by
  obtain ⟨span, inner, hspan, hpast⟩ := exists_skipStatement .outermost lexemes
  rw [hspan] at h
  exact h.of_past? rfl hpast

theorem Approaches.skipAssignment (h : Approaches close behind lexemes) :
    Approaches close behind (skipAssignment lexemes) := by
  obtain ⟨span, hspan, hpasses⟩ := exists_skipAssignment lexemes
  rw [hspan] at h
  refine h.of_append fun inside more hinside _ => ?_
  exact (hpasses ⟨.mark .closeBrace, close⟩ (by simp [hinside])).1 rfl

/-- The block goes on in the same block. -/
theorem Approaches.resume {start : List Lexeme} (hstart : Approaches close behind start)
    (hend : start ≠ ⟨.mark .closeBrace, close⟩ :: behind) (hrest : Approaches close behind rest) :
    Approaches close behind (resume start rest) := by
  unfold Recovery.resume
  split
  · exact hstart
  · next first others =>
    split
    · exact hstart.skipStatement
    · split
      · obtain ⟨inside, hinside, hflat⟩ := hstart
        cases inside with
        | nil => exact absurd hinside hend
        | cons lexeme inside =>
          exact ⟨inside, (List.cons.inj hinside).2, (List.forall_mem_cons.1 hflat).2⟩
      · exact hrest.skipAssignment

end Recovery

open Recovery (Approaches)

theorem Rule.Succeeds.eq_ok {α : Type} {rule : Rule α} {session : Session} {Post : α → Session → Prop}
    {result : Except SyntaxError α × Session} (h : rule.Succeeds session Post) (hrun : rule.run session = .of result) :
    ∃ value, result = (.ok value, result.2) ∧ Post value result.2 := by
  obtain ⟨ended, last⟩ := result
  rw [Succeeds, hrun] at h
  cases ended with
  | ok value => exact ⟨value, rfl, h⟩
  | error error => exact absurd h id

namespace Grammar

open Rule Phrase

variable {close brace : Location} {behind soup : List Lexeme} {session next : Session}

/-- In the block, the end of the block is its closing brace. -/
theorem atBlockEnd_iff_of_approaches (h : Approaches close behind session.rest) :
    atBlockEnd session = true ↔ session.rest = ⟨.mark .closeBrace, close⟩ :: behind := by
  obtain ⟨inside, hrest, hflat⟩ := h
  cases inside with
  | nil =>
    rw [hrest]
    simp [atBlockEnd, Session.follows, hrest]
  | cons first inside =>
    have hfirst := (List.forall_mem_cons.1 hflat).1
    constructor
    · intro hend
      simp [atBlockEnd, Session.atEnd, Session.follows, hrest] at hend
      rcases hend with hend | hend <;> rw [hend] at hfirst <;> cases hfirst
    · intro hclose
      rw [hrest, List.cons_append] at hclose
      rw [(List.cons.inj hclose).1] at hfirst
      cases hfirst

theorem approaches_of_crossesTo {Post : Recovery.Nesting → Prop} (h : Approaches close behind session.rest)
    (hcrosses : session.CrossesTo next .outermost Post) : Approaches close behind next.rest := by
  obtain ⟨span, inner, hspan, hpast, -⟩ := hcrosses
  rw [hspan] at h
  exact h.of_past? rfl hpast

theorem statementIfSound_succeeds (n : Nat) (h : Approaches close behind session.rest)
    (hend : ¬ atBlockEnd session = true) :
    (statementIfSound n).Succeeds session fun _ next => Approaches close behind next.rest := by
  cases n with
  | zero => trivial
  | succ n =>
    rw [statementIfSound_eq, Succeeds, run_look, run_recovering]
    -- Also what is read of a statement that fails is counted over from outside of all brackets.
    have hcrosses := statement_crosses n (rfl : Recovery.Nesting.outermost.ended = false) session
    cases hstatement : (statement n).run session with
    | exhausted => trivial
    | done tree next =>
      rw [hstatement] at hcrosses
      exact approaches_of_crossesTo h hcrosses
    | failed error next =>
      rw [hstatement] at hcrosses
      simp only [rest_report]
      exact h.resume (fun hclose => hend ((atBlockEnd_iff_of_approaches h).2 hclose))
        (approaches_of_crossesTo h hcrosses)

/-- The statements of the block go up to its closing brace. -/
theorem statements_succeeds : ∀ n {session : Session}, Approaches close behind session.rest →
    (statements n).Succeeds session fun _ next => next.rest = ⟨.mark .closeBrace, close⟩ :: behind
  | 0, _, _ => trivial
  | n + 1, session, h => by
    rw [statements]
    refine succeeds_bind_look ?_
    split
    · next hend => exact (atBlockEnd_iff_of_approaches h).1 hend
    · next hend =>
      refine (statementIfSound_succeeds n h hend).bind fun happroaches => ?_
      exact (statements_succeeds n happroaches).bind fun hclose => hclose

/-- The tree is the block at `brace`, and what `next` leaves is left behind it. -/
def EndsBlock (brace : Location) (next : Session) (tree : Tree) (last : Session) : Prop :=
  (∃ trees, tree = .block brace trees) ∧ last.rest = next.rest

variable (next) (n : Nat)

theorem block_succeeds (hsoup : ∀ lexeme ∈ soup, lexeme.terminal.flat = true) :
    (block n brace).Succeeds (next.unread (soup ++ [⟨.mark .closeBrace, close⟩])) (EndsBlock brace next) := by
  cases n with
  | zero =>
    rw [block]
    trivial
  | succ n =>
    rw [block]
    have happroaches : Approaches close next.rest (next.unread (soup ++ [⟨.mark .closeBrace, close⟩])).rest :=
      ⟨soup, by simp, hsoup⟩
    refine (statements_succeeds n happroaches).bind fun {trees last} hlast => ?_
    have hclose : last.rest = [⟨.mark .closeBrace, close⟩] ++ next.rest := hlast
    rw [← Session.unread_of_rest hclose]
    exact succeeds_bind_expect ⟨⟨trees, rfl⟩, rfl⟩

theorem statement_succeeds (hsoup : ∀ lexeme ∈ soup, lexeme.terminal.flat = true) :
    (statement n).Succeeds (next.unread (braced brace close soup)) (EndsBlock brace next) := by
  have hhead : ∀ {terminal : Terminal}, terminal ≠ .mark .openBrace →
      ∀ lexeme ∈ (next.unread (braced brace close soup)).rest.head?, lexeme.terminal ≠ terminal := by
    intro terminal hne lexeme hmem
    cases hmem
    exact hne.symm
  cases n with
  | zero => trivial
  | succ n =>
    rw [statement]
    refine succeeds_bind_accept_none (hhead (by decide)) ?_
    refine succeeds_bind_accept_none (hhead (by decide)) ?_
    exact succeeds_bind_accept_some (block_succeeds next n hsoup)

theorem joinBody_succeeds (hsoup : ∀ lexeme ∈ soup, lexeme.terminal.flat = true) :
    (joinBody n).Succeeds (next.unread (braced brace close soup)) (EndsBlock brace next) :=
  joinBody_of_statement (statement_succeeds next n hsoup)

variable {n next} {span : List Lexeme} {returned locals : List Tree}

theorem eq_braced_nil (h : Statement Location.Touches span (.block brace [])) :
    ∃ close, span = braced brace close [] := by
  cases h with
  | assignment phrase => cases phrase
  | @block _ _ _ close phrase =>
    cases phrase
    exact ⟨close, rfl⟩

/-- The header of a first specification, whose body is an empty block, is read in front of any body. -/
theorem joinSpec_succeeds {loc : Location} {left right : List Tree}
    (h : JoinSpec Location.Touches span (.joinSpec loc left right returned locals (.block brace []))) :
    ∃ header close, span = header ++ braced brace close [] ∧
      ∀ n next close {soup}, (∀ lexeme ∈ soup, lexeme.terminal.flat = true) →
        (joinSpec n).Succeeds ((next.unread (braced brace close soup)).unread header) fun tree last =>
          ∃ body, EndsBlock brace next body last ∧ tree = .joinSpec loc left right returned locals body := by
  obtain ⟨header, bodySpan, rfl, bodyPhrase, hheads⟩ := joinSpec_heads h
  obtain ⟨close, rfl⟩ := eq_braced_nil bodyPhrase
  exact ⟨⟨.keyword .join, loc⟩ :: header, close, rfl, fun n next close soup hsoup =>
    hheads.succeeds (joinBody_succeeds next n hsoup)⟩

/-- The same of a second specification. -/
theorem sequentialSpec_succeeds {loc : Location} {args : List Tree}
    (h : SequentialSpec Location.Touches span (.sequentialSpec loc args returned locals (.block brace []))) :
    ∃ header close, span = header ++ braced brace close [] ∧
      ∀ n next close {soup}, (∀ lexeme ∈ soup, lexeme.terminal.flat = true) →
        (sequentialSpec n).Succeeds ((next.unread (braced brace close soup)).unread header) fun tree last =>
          ∃ body, EndsBlock brace next body last ∧ tree = .sequentialSpec loc args returned locals body := by
  obtain ⟨header, bodySpan, rfl, bodyPhrase, hheads⟩ := sequentialSpec_heads h
  obtain ⟨close, rfl⟩ := eq_braced_nil bodyPhrase
  exact ⟨header, close, rfl, fun n next close soup hsoup => hheads.succeeds (statement_succeeds next n hsoup)⟩

end Grammar

namespace Session

open Grammar

variable {session : Session} {header soup behind : List Lexeme} {brace close close' stop : Location}
  {returned locals : List Tree}

/-- What is read to the end without a report is what is there, so that the header in front of the empty block is
    known. -/
theorem ReadsAs.header_eq {found : List Lexeme} {brace' : Location}
    (h : ReadsAs ⟨header ++ braced brace close [], stop, []⟩ ⟨[], stop, []⟩ (found ++ braced brace' close' [])) :
    header = found := by
  have hclean := congrArg Session.rest (h.clean rfl)
  simp only [rest_unread, List.append_nil] at hclean
  exact (List.append_inj' hclean rfl).1

/-- Where the header of a first specification is read without a report in front of an empty block, it is read in front
    of any body in braces. -/
theorem readJoin_of_header {loc : Location} {left right : List Tree}
    (h : readJoin ⟨header ++ braced brace close [], stop, []⟩ =
      (.ok (.joinSpec loc left right returned locals (.block brace [])), ⟨[], stop, []⟩))
    (hsoup : ∀ lexeme ∈ soup, lexeme.terminal.flat = true)
    (hrest : session.rest = header ++ braced brace close' soup ++ behind) :
    ∃ trees last, last.rest = behind ∧
      session.readJoin = (.ok (.joinSpec loc left right returned locals (.block brace trees)), last) := by
  have hdone := run_joinSpec (Nat.le_refl (budget ⟨header ++ braced brace close [], stop, []⟩))
  rw [h] at hdone
  obtain ⟨span, hreads, phrase, -⟩ := joinSpec_sound hdone
  obtain ⟨found, foundClose, rfl, hsucceeds⟩ := Grammar.joinSpec_succeeds phrase
  obtain rfl := hreads.header_eq
  have hrun := hsucceeds (budget session) { session with rest := behind } close' hsoup
  rw [← unread_append, unread_of_rest hrest] at hrun
  obtain ⟨join, hread, body, ⟨⟨trees, rfl⟩, hlast⟩, rfl⟩ := hrun.eq_ok (run_joinSpec (Nat.le_refl _))
  exact ⟨trees, _, hlast, hread⟩

/-- The same of a second specification. -/
theorem readSequential_of_header {loc : Location} {args : List Tree}
    (h : readSequential ⟨header ++ braced brace close [], stop, []⟩ =
      (.ok (.sequentialSpec loc args returned locals (.block brace [])), ⟨[], stop, []⟩))
    (hsoup : ∀ lexeme ∈ soup, lexeme.terminal.flat = true)
    (hrest : session.rest = header ++ braced brace close' soup ++ behind) :
    ∃ trees last, last.rest = behind ∧
      session.readSequential = (.ok (.sequentialSpec loc args returned locals (.block brace trees)), last) := by
  have hdone := run_sequentialSpec (Nat.le_refl (budget ⟨header ++ braced brace close [], stop, []⟩))
  rw [h] at hdone
  obtain ⟨span, hreads, phrase⟩ := sequentialSpec_sound hdone
  obtain ⟨found, foundClose, rfl, hsucceeds⟩ := Grammar.sequentialSpec_succeeds phrase
  obtain rfl := hreads.header_eq
  have hrun := hsucceeds (budget session) { session with rest := behind } close' hsoup
  rw [← unread_append, unread_of_rest hrest] at hrun
  obtain ⟨sequential, hread, body, ⟨⟨trees, rfl⟩, hlast⟩, rfl⟩ := hrun.eq_ok (run_sequentialSpec (Nat.le_refl _))
  exact ⟨trees, _, hlast, hread⟩

end Session

/-- A program is well-formed if its bodies are blocks. -/
theorem Expressible.Program.violations_eq_nil {vocabulary : Vocabulary} {tree join sequential : Tree}
    (h : Expressible.Program vocabulary tree) (hbodies : tree.bodies? = some (join, sequential))
    (hjoin : join.kind = .block) (hsequential : sequential.kind = .block) : tree.violations = [] := by
  obtain ⟨_, _, hfound, -, -, hviolations⟩ := h.violations_eq
  cases hbodies.symm.trans hfound
  rw [hviolations, Violation.ofBody_eq_nil_iff.2 hjoin, Violation.ofBody_eq_nil_iff.2 hsequential, List.append_nil]

namespace Reading

/-- No repair leaves a block. Two headers that are read without a report in front of an empty block are read in front
    of bodies in which anything stands between the braces, as long as there are no other braces and no `sequential`.
    Reading comes to a program, both bodies are the blocks at their own braces, and nothing in the program is amiss. -/
theorem ofTokens_of_flat_bodies {header₁ header₂ soup₁ soup₂ : List Lexeme}
    {loc₁ brace₁ close₁ loc₂ brace₂ close₂ stop₁ stop₂ : Location}
    {left right returned₁ locals₁ args returned₂ locals₂ : List Tree}
    (hjoin : Session.readJoin ⟨header₁ ++ braced brace₁ close₁ [], stop₁, []⟩ =
      (.ok (.joinSpec loc₁ left right returned₁ locals₁ (.block brace₁ [])), ⟨[], stop₁, []⟩))
    (hsequential : Session.readSequential ⟨header₂ ++ braced brace₂ close₂ [], stop₂, []⟩ =
      (.ok (.sequentialSpec loc₂ args returned₂ locals₂ (.block brace₂ [])), ⟨[], stop₂, []⟩))
    (hsoup₁ : ∀ lexeme ∈ soup₁, lexeme.terminal.flat = true)
    (hsoup₂ : ∀ lexeme ∈ soup₂, lexeme.terminal.flat = true) (stop : Location) :
    ∃ statements₁ statements₂ diagnostics,
      let program : Tree := .program loc₁
        (.joinSpec loc₁ left right returned₁ locals₁ (.block brace₁ statements₁))
        (.sequentialSpec loc₂ args returned₂ locals₂ (.block brace₂ statements₂))
      ofTokens ((header₁ ++ braced brace₁ close₁ soup₁ ++ (header₂ ++ braced brace₂ close₂ soup₂)).map .lexeme ++
        [.endOfInput stop]) = .ok ⟨program, diagnostics⟩ ∧ program.violations = [] := by
  -- The first body ends at its brace with any diagnostics, and the second specification is read from there.
  let whole : Session :=
    ⟨header₁ ++ braced brace₁ close₁ soup₁ ++ (header₂ ++ braced brace₂ close₂ soup₂), stop, []⟩
  have hwhole : whole.rest = header₁ ++ braced brace₁ close₁ soup₁ ++ (header₂ ++ braced brace₂ close₂ soup₂) := rfl
  obtain ⟨statements₁, mid, hmid, hread₁⟩ := Session.readJoin_of_header hjoin hsoup₁ hwhole
  have hsecond : mid.rest = header₂ ++ braced brace₂ close₂ soup₂ ++ [] := by rw [hmid, List.append_nil]
  obtain ⟨statements₂, last, hlast, hread₂⟩ := Session.readSequential_of_header hsequential hsoup₂ hsecond
  have hend : last.atEnd = true := List.isEmpty_iff.2 hlast
  have hplace : loc₁ = whole.next.loc := by
    have hdone := Session.run_joinSpec (Nat.le_refl (Grammar.budget whole))
    rw [hread₁] at hdone
    obtain ⟨-, -, -, hloc⟩ := Grammar.joinSpec_sound hdone
    exact hloc
  have hfinish := Session.finish_of_readJoin_ok hread₁
  simp only [hread₂, hend, if_true, ← hplace] at hfinish
  have hexpressible : Expressible.Program .any _ := Session.expressible_any_of_finish hfinish
  refine ⟨statements₁, statements₂, last.diagnostics, ?_, hexpressible.violations_eq_nil rfl rfl rfl⟩
  rw [ofTokens, Session.ofTokens_lexemes]
  exact hfinish

/-- The first body is the start of a loop with parentheses that are not closed. In the second one a name stands alone,
    and an `else` before an increment that is cut short. -/
theorem ofTokens_of_broken_bodies :
    let header₁ : List Lexeme := List.mapIdx (fun i terminal => ⟨terminal, ⟨1, i + 1⟩⟩)
      [.keyword .join, .mark .openParen, .keyword .int, .identifier "a", .mark .pipe, .mark .closeParen,
        .keyword .returns, .mark .openParen, .identifier "a", .mark .closeParen,
        .keyword .locals, .mark .openParen, .mark .closeParen]
    let soup₁ : List Lexeme := List.mapIdx (fun i terminal => ⟨terminal, ⟨2, i + 1⟩⟩)
      [.keyword .for_, .mark .openParen, .mark .openParen, .identifier "a", .mark .equal, .mark .semicolon]
    let header₂ : List Lexeme := List.mapIdx (fun i terminal => ⟨terminal, ⟨3, i + 2⟩⟩)
      [.keyword .sequential, .mark .openParen, .mark .closeParen,
        .keyword .returns, .mark .openParen, .mark .closeParen,
        .keyword .locals, .mark .openParen, .mark .closeParen]
    let soup₂ : List Lexeme := List.mapIdx (fun i terminal => ⟨terminal, ⟨4, i + 1⟩⟩)
      [.identifier "b", .mark .semicolon, .keyword .else_, .identifier "b", .mark .plus, .mark .plus]
    let argument : Tree := .argument ⟨1, 3⟩ (.dataType ⟨1, 3⟩ ⟨.int, false⟩) (.var ⟨1, 4⟩ "a" (some ⟨.int, false⟩) none)
    let returned : Tree := .var ⟨1, 9⟩ "a" none none
    ∃ statements₁ statements₂ diagnostics,
      let program : Tree := .program ⟨1, 1⟩
        (.joinSpec ⟨1, 1⟩ [argument] [] [returned] [] (.block ⟨1, 14⟩ statements₁))
        (.sequentialSpec ⟨3, 2⟩ [] [] [] (.block ⟨3, 11⟩ statements₂))
      ofTokens ((header₁ ++ braced ⟨1, 14⟩ ⟨3, 1⟩ soup₁ ++ (header₂ ++ braced ⟨3, 11⟩ ⟨5, 1⟩ soup₂)).map .lexeme ++
        [.endOfInput ⟨5, 2⟩]) = .ok ⟨program, diagnostics⟩ ∧ program.violations = [] := by
  intro header₁ soup₁ header₂ soup₂ argument returned
  have hjoin : Session.readJoin ⟨header₁ ++ braced ⟨1, 14⟩ ⟨3, 1⟩ [], ⟨3, 2⟩, []⟩ =
      (.ok (.joinSpec ⟨1, 1⟩ [argument] [] [returned] [] (.block ⟨1, 14⟩ [])), ⟨[], ⟨3, 2⟩, []⟩) := rfl
  have hsequential : Session.readSequential ⟨header₂ ++ braced ⟨3, 11⟩ ⟨5, 1⟩ [], ⟨5, 2⟩, []⟩ =
      (.ok (.sequentialSpec ⟨3, 2⟩ [] [] [] (.block ⟨3, 11⟩ [])), ⟨[], ⟨5, 2⟩, []⟩) := rfl
  exact ofTokens_of_flat_bodies hjoin hsequential (by decide) (by decide) ⟨5, 2⟩

end Reading

end RoutineSpec
