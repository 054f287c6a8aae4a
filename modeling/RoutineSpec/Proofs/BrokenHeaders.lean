import RoutineSpec.Proofs.ArgumentLists

/-! # Headers that break off

A header that goes on with an argument list breaks off where the list is over too early, whatever has been reported in
front of it. With the header the program breaks off.
-/

namespace RoutineSpec

/-- Unless its budget runs out, the rule is done where `span` stands in front of `rest`, and leaves `rest`. -/
def Rule.Clears {α : Type} (rule : Rule α) (span rest : List Lexeme) : Prop :=
  ∀ session : Session, session.rest = span ++ rest → rule.Succeeds session fun _ last => last.rest = rest

/-- Unless its budget runs out, the rule fails on `lexemes`, at `broken`, which it leaves in front of `rest`. -/
def Rule.BreaksAt {α : Type} (rule : Rule α) (lexemes : List Lexeme) (broken : Lexeme) (rest : List Lexeme) : Prop :=
  ∀ session : Session, session.rest = lexemes →
    match rule.run session with
    | .done .. => False
    | .failed error last => error.loc = broken.loc ∧ last.rest = broken :: rest
    | .exhausted => True

namespace Rule

variable {α β : Type} {rule : Rule α} {follow : α → Rule β} {span lexemes rest : List Lexeme} {broken : Lexeme}
  {terminal : Terminal} {what : Expectation} {loc : Location}

theorem BreaksAt.exists_failed (h : rule.BreaksAt lexemes broken rest) {session : Session} (hrest : session.rest = lexemes)
    (hbudget : rule.run session ≠ .exhausted) :
    ∃ error last, rule.run session = .failed error last ∧ error.loc = broken.loc ∧ last.rest = broken :: rest := by
  have hbreaks := h session hrest
  cases hrun : rule.run session with
  | done value last => simp [hrun] at hbreaks
  | failed error last => exact ⟨error, last, rfl, by simpa [hrun] using hbreaks⟩
  | exhausted => exact absurd hrun hbudget

theorem Reads.clears {value : α} (h : ∀ next, rule.Reads span next value) : rule.Clears span rest := by
  intro session hrest
  rw [← Session.unread_of_rest hrest]
  exact (h _).succeeds.mono fun ⟨_, hlast⟩ => by rw [hlast]

theorem Clears.bind_breaks (h : rule.Clears span lexemes) (hfollow : ∀ value, (follow value).BreaksAt lexemes broken rest) :
    (rule >>= follow).BreaksAt (span ++ lexemes) broken rest := by
  intro session hrest
  have hclears := h session hrest
  unfold Succeeds at hclears
  rw [run_bind]
  cases hrun : rule.run session with
  | done value last => exact hfollow value last (by simpa [hrun] using hclears)
  | failed error last => simp [hrun] at hclears
  | exhausted => trivial

theorem BreaksAt.bind (h : rule.BreaksAt lexemes broken rest) : (rule >>= follow).BreaksAt lexemes broken rest := by
  intro session hrest
  have hbreaks := h session hrest
  rw [run_bind]
  cases hrun : rule.run session with
  | done value last => simp [hrun] at hbreaks
  | failed error last => simpa [hrun] using hbreaks
  | exhausted => trivial

theorem breaks_bind_look {γ : Type} {view : Session → γ} {follow : γ → Rule β}
    (h : ∀ value, (follow value).BreaksAt lexemes broken rest) : (look view >>= follow).BreaksAt lexemes broken rest :=
  fun session hrest => h _ session hrest

theorem expect_clears : (expect terminal what).Clears [⟨terminal, loc⟩] rest :=
  Reads.clears fun _ => reads_bind_accept_some reads_pure

theorem breaks_bind_expect {follow : Unit → Rule β} (h : (follow ()).BreaksAt lexemes broken rest) :
    (expect terminal what >>= follow).BreaksAt (⟨terminal, loc⟩ :: lexemes) broken rest :=
  expect_clears.bind_breaks fun _ => h

theorem expect_breaks (h : broken.terminal ≠ terminal) : (expect terminal what).BreaksAt (broken :: rest) broken rest := by
  intro session hrest
  have hnone : session.take? terminal.same? = none :=
    session.take?_eq_none_iff.2 fun lexeme hmem => Terminal.same?_eq_none_iff.2 fun hsame => h (by simp_all)
  have hnext : session.next = .lexeme broken := by simp [Session.next, hrest]
  rw [expect, run_bind, run_accept, hnone]
  exact ⟨congrArg Token.loc hnext, hrest⟩

end Rule

namespace Grammar

open Rule Phrase

/-- A list of segments, none of which is overfull, with `closing` behind it. It may be empty. -/
structure Settled (closing : Lexeme) (segments : List Segment) : Prop where
  listed : Segment.Listed closing segments
  sound : ∀ segment ∈ segments, ¬ segment.Overfull

variable {closing extra : Lexeme} {segments : List Segment} {n : Nat} {rest left passed : List Lexeme}

theorem Settled.clears (h : Settled closing segments) (n : Nat) (rest : List Lexeme) :
    ∃ span, Segment.text segments = span ++ [closing] ∧ (argumentList n).Clears span (closing :: rest) := by
  obtain ⟨span, htext⟩ := h.listed.text_eq
  refine ⟨span, htext, fun session hrest => ?_⟩
  by_cases hnone : segments = [⟨[], closing⟩]
  · have hspan : span = [] := by simpa [hnone, Segment.text, Segment.span] using htext.symm
    have hfollows : session.follows Segment.closers = true := by
      simpa [Session.follows, hrest, hspan] using h.listed.closes
    refine succeeds_bind_look ?_
    rw [show session.follows [.mark .closeParen, .mark .pipe] = true from hfollows]
    simp [Succeeds, hrest, hspan]
  · have hread : session.rest = Segment.text segments ++ rest := by simp [hrest, htext]
    rw [← Session.unread_of_rest hread]
    exact (argumentList_sifts h.listed hnone h.sound).mono fun hlast => hlast.2.rest

/-- What stands in a specification in front of one of its argument lists. There may be malformed arguments in the lists
    that come before. -/
inductive Leads : (Nat → Rule Tree) → List Lexeme → Prop where
  | left {join paren} : Leads joinSpec [⟨.keyword .join, join⟩, ⟨.mark .openParen, paren⟩]
  | right {join paren pipe left} :
      Settled ⟨.mark .pipe, pipe⟩ left →
      Leads joinSpec (⟨.keyword .join, join⟩ :: ⟨.mark .openParen, paren⟩ :: Segment.text left)
  | joinLocals {join paren pipe close locals paren' left right returned names} :
      Settled ⟨.mark .pipe, pipe⟩ left →
      Settled ⟨.mark .closeParen, close⟩ right →
      Clause .returns Returned returned names →
      Leads joinSpec (⟨.keyword .join, join⟩ :: ⟨.mark .openParen, paren⟩ :: (Segment.text left ++ (Segment.text right ++
        (returned ++ [⟨.keyword .locals, locals⟩, ⟨.mark .openParen, paren'⟩]))))
  | arguments {sequential paren} : Leads sequentialSpec [⟨.keyword .sequential, sequential⟩, ⟨.mark .openParen, paren⟩]
  | sequentialLocals {sequential paren close locals paren' args returned names} :
      Settled ⟨.mark .closeParen, close⟩ args →
      Clause .returns Returned returned names →
      Leads sequentialSpec (⟨.keyword .sequential, sequential⟩ :: ⟨.mark .openParen, paren⟩ ::
        (Segment.text args ++ (returned ++ [⟨.keyword .locals, locals⟩, ⟨.mark .openParen, paren'⟩])))

theorem Leads.eq_or_eq {rule : Nat → Rule Tree} {header : List Lexeme} (h : Leads rule header) :
    rule = joinSpec ∨ rule = sequentialSpec := by
  cases h with
  | left | right | joinLocals => exact .inl rfl
  | arguments | sequentialLocals => exact .inr rfl

/-- A list that is over in front of what cannot close it is not closed. -/
theorem argumentList_breaks {α : Type} {sign : Mark} {what : Expectation} {follow : List Tree → Unit → Rule α}
    (hlist : (argumentList n).Clears passed (extra :: left)) (hextra : extra.terminal ≠ .mark sign) :
    (argumentList n >>= fun args => expect (.mark sign) what >>= follow args).BreaksAt (passed ++ extra :: left) extra
      left :=
  hlist.bind_breaks fun _ => (expect_breaks hextra).bind

/-- A list that is closed is passed. -/
theorem breaks_bind_settled {α : Type} {sign : Mark} {loc : Location} {what : Expectation}
    {follow : List Tree → Unit → Rule α} (h : Settled ⟨.mark sign, loc⟩ segments)
    (hfollow : ∀ args, (follow args ()).BreaksAt rest extra left) :
    (argumentList n >>= fun args => expect (.mark sign) what >>= follow args).BreaksAt (Segment.text segments ++ rest)
      extra left := by
  obtain ⟨span, htext, hclears⟩ := h.clears n rest
  rw [htext, List.append_assoc]
  exact hclears.bind_breaks fun args => breaks_bind_expect (hfollow args)

theorem breaks_bind_clauses {α : Type} {returned : List Lexeme} {names : List Tree} {locals paren : Location}
    {follow : List Tree → List Tree → Rule α} (phrase : Clause .returns Returned returned names)
    (hlist : (argumentList n).Clears passed (extra :: left)) (hextra : extra.terminal ≠ .mark .closeParen) :
    (returnsClause n >>= fun names => localsClause n >>= follow names).BreaksAt
      (returned ++ ⟨.keyword .locals, locals⟩ :: ⟨.mark .openParen, paren⟩ :: (passed ++ extra :: left)) extra left := by
  obtain ⟨phrase⟩ := phrase
  refine (Reads.clears fun next => returnsClause_complete phrase).bind_breaks fun names => BreaksAt.bind ?_
  exact breaks_bind_expect (breaks_bind_expect (argumentList_breaks hlist hextra))

theorem Leads.breaks {rule : Nat → Rule Tree} {header : List Lexeme} (h : Leads rule header)
    (hlist : (argumentList n).Clears passed (extra :: left)) (hextra : extra.terminal ∉ Segment.closers) :
    (rule n).BreaksAt (header ++ (passed ++ extra :: left)) extra left := by
  have hpipe : extra.terminal ≠ .mark .pipe := by
    rintro heq
    simp [heq, Segment.closers] at hextra
  have hclose : extra.terminal ≠ .mark .closeParen := by
    rintro heq
    simp [heq, Segment.closers] at hextra
  cases h with
  | left => exact breaks_bind_look fun loc => breaks_bind_expect (breaks_bind_expect (argumentList_breaks hlist hpipe))
  | right hleft =>
    refine breaks_bind_look fun loc => breaks_bind_expect (breaks_bind_expect ?_)
    exact breaks_bind_settled hleft fun _ => argumentList_breaks hlist hclose
  | joinLocals hleft hright phrase =>
    simp only [List.cons_append, List.append_assoc]
    refine breaks_bind_look fun loc => breaks_bind_expect (breaks_bind_expect ?_)
    exact breaks_bind_settled hleft fun _ => breaks_bind_settled hright fun _ => breaks_bind_clauses phrase hlist hclose
  | arguments =>
    exact breaks_bind_look fun loc => breaks_bind_expect (breaks_bind_expect (argumentList_breaks hlist hclose))
  | sequentialLocals hargs phrase =>
    simp only [List.cons_append, List.append_assoc]
    refine breaks_bind_look fun loc => breaks_bind_expect (breaks_bind_expect ?_)
    exact breaks_bind_settled hargs fun _ => breaks_bind_clauses phrase hlist hclose

/-- Where nothing has been reported at the places of a list before, the list in front of `behind` comes to `trees` and
    is over in front of `rest`, and exactly one error is reported for each of the malformed segments. -/
def ListComesTo (list behind : List Lexeme) (trees : List Tree) (rest : List Lexeme) (malformed : List Segment) : Prop :=
  ∀ {session : Session} {n}, session.rest = list ++ behind → session.FreshAt list → session.rest.length < n →
    ∃ errors, List.Forall₂ Segment.Locates malformed errors ∧
      (argumentList n).run session = .done trees ⟨rest, session.stop, session.diagnostics ++ errors.map .syntactic⟩

theorem listComesTo_of_sifts {list behind : List Lexeme} {trees : List Tree} {sifted : List Segment}
    (hincreasing : (list.map Lexeme.loc).Pairwise (· < ·)) (hsifted : Segment.text sifted <+: list)
    (h : ∀ {n} {next : Session}, next.rest = behind → (argumentList n).Succeeds (next.unread list) fun found last =>
      found = trees ∧ (next.unread list).Sifts sifted rest last) :
    ListComesTo list behind trees rest (Segment.malformed sifted) := by
  intro session n hrest hfresh hbudget
  have hne := (argumentList_within n session hbudget).ne_exhausted
  rw [← Session.unread_of_rest hrest] at hne ⊢
  obtain ⟨found, last, hrun, rfl, hlast⟩ := (h rfl).exists_done hne
  have hnodup : (list.map Lexeme.loc).Nodup := hincreasing.imp ne_of_lt
  obtain ⟨errors, hlocates, hdiagnostics⟩ := hlast.reports (fun lexeme hmem => hfresh lexeme (hsifted.subset hmem))
    (hnodup.sublist (hsifted.sublist.map _))
  refine ⟨errors, hlocates, hrun.trans (congrArg _ ?_)⟩
  obtain ⟨lastRest, lastStop, lastDiagnostics⟩ := last
  exact congr (congrArg₂ _ hlast.rest hlast.stop) hdiagnostics

end Grammar

namespace Reading

open Phrase Grammar

variable {lexemes before rest : List Lexeme} {broken : Lexeme} {stop : Location}

/-- A program ends with the error that its first header breaks off with. -/
theorem ofTokens_of_broken_join (h : ∀ n, (joinSpec n).BreaksAt lexemes broken rest) :
    ∃ failure, ofTokens (lexemes.map .lexeme ++ [.endOfInput stop]) = .error failure ∧
      failure.error.loc = broken.loc := by
  let session : Session := ⟨lexemes, stop, []⟩
  obtain ⟨error, last, hrun, hloc, -⟩ :=
    (h _).exists_failed (rfl : session.rest = lexemes) (joinSpec_ne_exhausted session)
  have hjoin : session.readJoin = (.error error, last) := Outcome.result_eq_error_iff.2 hrun
  unfold ofTokens
  rw [Session.ofTokens_lexemes, Session.finish_of_readJoin_error hjoin]
  split <;> exact ⟨_, rfl, hloc⟩

/-- Behind a first specification, a program ends with the error that the second header breaks off with. -/
theorem ofTokens_of_broken_sequential {join : Tree} {reports : List Diagnostic}
    (h : ∀ n, (sequentialSpec n).BreaksAt lexemes broken rest)
    (hjoin : Session.readJoin ⟨before ++ lexemes, stop, []⟩ = (.ok join, ⟨lexemes, stop, reports⟩)) :
    ∃ failure, ofTokens ((before ++ lexemes).map .lexeme ++ [.endOfInput stop]) = .error failure ∧
      failure.error.loc = broken.loc := by
  let session : Session := ⟨lexemes, stop, reports⟩
  obtain ⟨error, last, hrun, hloc, -⟩ :=
    (h _).exists_failed (rfl : session.rest = lexemes) (sequentialSpec_ne_exhausted session)
  have hsequential : session.readSequential = (.error error, last) := Outcome.result_eq_error_iff.2 hrun
  unfold ofTokens
  rw [Session.ofTokens_lexemes, Session.finish_of_readJoin_ok hjoin, hsequential]
  exact ⟨_, rfl, hloc⟩

/-- Each header that goes on with `lexemes` fails at `broken`, and so does each program with such a header. -/
structure HeaderFailsAt (lexemes : List Lexeme) (broken : Lexeme) (rest : List Lexeme) : Prop where
  header : ∀ {spec header}, Leads spec header → ∀ {session : Session} {n}, session.rest = header ++ lexemes →
    budget session ≤ n → ∃ error last,
      (spec n).run session = .failed error last ∧ error.loc = broken.loc ∧ last.rest = broken :: rest
  first : ∀ {header}, Leads joinSpec header → ∀ stop, ∃ failure,
    ofTokens ((header ++ lexemes).map .lexeme ++ [.endOfInput stop]) = .error failure ∧ failure.error.loc = broken.loc
  second : ∀ {header}, Leads sequentialSpec header → ∀ {before stop join reports},
    Session.readJoin ⟨before ++ (header ++ lexemes), stop, []⟩ = (.ok join, ⟨header ++ lexemes, stop, reports⟩) →
      ∃ failure, ofTokens ((before ++ (header ++ lexemes)).map .lexeme ++ [.endOfInput stop]) = .error failure ∧
        failure.error.loc = broken.loc

theorem headerFailsAt_of_clears {passed : List Lexeme} (hlist : ∀ n, (argumentList n).Clears passed (broken :: rest))
    (hbroken : broken.terminal ∉ Segment.closers) : HeaderFailsAt (passed ++ broken :: rest) broken rest where
  header {spec header} hleads {session n} hrest hbudget := by
    refine (hleads.breaks (hlist n) hbroken).exists_failed hrest ?_
    rcases hleads.eq_or_eq with rfl | rfl
    · exact (joinSpec_within n session hbudget).ne_exhausted
    · exact (sequentialSpec_within n session hbudget).ne_exhausted
  first hleads _ := ofTokens_of_broken_join fun n => hleads.breaks (hlist n) hbroken
  second hleads _ _ _ _ hjoin := ofTokens_of_broken_sequential (fun n => hleads.breaks (hlist n) hbroken) hjoin

/-- Exactly the good arguments of a list are kept. Where no segment of a list goes on behind an argument, the list is
    read up to what closes it: its arguments are those of the segments that are arguments, and each of the other ones is
    reported once. Otherwise the list is over in the first segment that goes on behind an argument, at the first lexeme
    that is too much, and there the header around the list fails. -/
theorem arguments_of_segments {segments : List Segment} {closing : Lexeme} (hlisted : Segment.Listed closing segments)
    (hsome : segments ≠ [⟨[], closing⟩])
    (hincreasing : ((Segment.text segments).map Lexeme.loc).Pairwise (· < ·)) (behind : List Lexeme) :
    ((∀ segment ∈ segments, ¬ segment.Overfull) →
      ListComesTo (Segment.text segments) behind (Segment.arguments segments) (closing :: behind)
        (Segment.malformed segments)) ∧
    ∀ {sound front extra more ending others tree}, segments = sound ++ ⟨front ++ extra :: more, ending⟩ :: others →
      (∀ segment ∈ sound, ¬ segment.Overfull) → Argument front tree →
      let left := more ++ ending :: Segment.text others ++ behind
      ListComesTo (Segment.text segments) behind (Segment.arguments sound ++ [tree]) (extra :: left)
        (Segment.malformed sound) ∧ HeaderFailsAt (Segment.text segments ++ behind) extra left := by
  constructor
  · intro hsound
    refine listComesTo_of_sifts hincreasing (List.prefix_refl _) fun {n next} hnext => ?_
    rw [← hnext]
    exact argumentList_sifts hlisted hsome hsound
  · rintro sound front extra more ending others tree rfl hsound phrase left
    have hextra : extra.terminal ∉ Segment.closers := fun hmem =>
      hlisted.enclosed ⟨front ++ extra :: more, ending⟩ (by simp) extra (by simp)
        (Segment.mem_argumentEnds_of_mem_closers hmem)
    have htext : Segment.text (sound ++ ⟨front ++ extra :: more, ending⟩ :: others) ++ behind =
        (Segment.text sound ++ front) ++ extra :: left := by
      simp [Segment.text, Segment.span, left]
    have hread : ∀ {n} {next : Session}, next.rest = behind →
        (argumentList n).Succeeds (next.unread (Segment.text (sound ++ ⟨front ++ extra :: more, ending⟩ :: others)))
          fun found last => found = Segment.arguments sound ++ [tree] ∧
            (next.unread (Segment.text (sound ++ ⟨front ++ extra :: more, ending⟩ :: others))).Sifts sound
              (extra :: left) last := by
      rintro n next rfl
      exact argumentList_sifts_overfull hlisted hsound phrase
    constructor
    · exact listComesTo_of_sifts hincreasing ⟨_, List.flatMap_append.symm⟩ hread
    · rw [htext]
      refine headerFailsAt_of_clears (fun n session hrest => ?_) hextra
      rw [← Session.unread_of_rest (hrest.trans htext.symm)]
      exact (hread rfl).mono fun hlast => hlast.2.rest

/-- Of four arguments, one without a name and one that is missing are left out. Where it is a comma that is missing, the
    header fails. -/
theorem arguments_of_segments_of_missing_parts :
    let lexeme (column : Nat) (terminal : Terminal) : Lexeme := ⟨terminal, ⟨1, column⟩⟩
    let a : Segment := ⟨[lexeme 6 (.keyword .int), lexeme 7 (.identifier "a")], lexeme 8 (.mark .comma)⟩
    let nameless : Segment := ⟨[lexeme 9 (.keyword .float)], lexeme 10 (.mark .comma)⟩
    let missing : Segment := ⟨[], lexeme 11 (.mark .comma)⟩
    let b : Segment :=
      ⟨[lexeme 12 (.keyword .bool), lexeme 13 (.mark .star), lexeme 14 (.identifier "b")], lexeme 15 (.mark .pipe)⟩
    let crowded : Segment :=
      ⟨[lexeme 12 (.keyword .bool), lexeme 13 (.identifier "b"), lexeme 14 (.keyword .int)], lexeme 15 (.mark .pipe)⟩
    let header : List Lexeme := [lexeme 1 (.keyword .join), lexeme 5 (.mark .openParen)]
    let type (base : BaseType) (pointer : Bool) (column : Nat) (name : String) (nameColumn : Nat) : Tree :=
      .argument ⟨1, column⟩ (.dataType ⟨1, column⟩ ⟨base, pointer⟩)
        (.var ⟨1, nameColumn⟩ name (some ⟨base, pointer⟩) none)
    ListComesTo (Segment.text [a, nameless, missing, b]) [] [type .int false 6 "a" 7, type .bool true 12 "b" 14]
      [lexeme 15 (.mark .pipe)] [nameless, missing] ∧
    ListComesTo (Segment.text [a, nameless, crowded]) [] [type .int false 6 "a" 7, type .bool false 12 "b" 13]
      [lexeme 14 (.keyword .int), lexeme 15 (.mark .pipe)] [nameless] ∧
    ∃ failure, ofTokens ((header ++ (Segment.text [a, nameless, crowded] ++ [])).map .lexeme ++ [.endOfInput ⟨2, 1⟩]) =
      .error failure ∧ failure.error.loc = ⟨1, 14⟩ := by
  intro lexeme a nameless missing b crowded header type
  have hrepaired : Segment.Listed (lexeme 15 (.mark .pipe)) [a, nameless, missing, b] :=
    .more (by decide) (.more (by decide) (.more (by decide) (.last (by decide) (by decide))))
  have hbroken : Segment.Listed (lexeme 15 (.mark .pipe)) [a, nameless, crowded] :=
    .more (by decide) (.more (by decide) (.last (by decide) (by decide)))
  have hfront : Argument [lexeme 12 (.keyword .bool), lexeme 13 (.identifier "b")] (type .bool false 12 "b" 13) :=
    argument?_eq_some_iff.1 rfl
  have hsplit : [a, nameless, crowded] = [a, nameless] ++
      ⟨[lexeme 12 (.keyword .bool), lexeme 13 (.identifier "b")] ++ lexeme 14 (.keyword .int) :: [],
        lexeme 15 (.mark .pipe)⟩ :: [] := rfl
  refine ⟨(arguments_of_segments hrepaired (by simp) (by decide) []).1 (by decide), ?_⟩
  obtain ⟨hlist, hheader⟩ := (arguments_of_segments hbroken (by simp) (by decide) []).2 hsplit (by decide) hfront
  exact ⟨hlist, hheader.first .left _⟩

end Reading

end RoutineSpec
