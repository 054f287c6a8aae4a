import Mathlib.Data.List.Forall2
import RoutineSpec.Proofs.Halves
import RoutineSpec.Proofs.Mending
import RoutineSpec.Proofs.Prompt

/-! # Malformed arguments

The commas of an argument list and what closes it divide the list into segments. A malformed segment is reported and
left out, and the next one is read as if nothing had been wrong. A segment that begins with an argument and goes on
behind it is another matter: the argument is read, the list is over where the argument ends, and no header goes on like
that.
-/

namespace RoutineSpec

namespace Phrase

/-- The argument that some lexemes are, unless they are none. -/
def argument? : List Lexeme → Option Tree
  | [⟨base, loc⟩, ⟨.identifier name, nameLoc⟩] =>
    base.baseType?.map fun base =>
      .argument loc (.dataType loc ⟨base, false⟩) (.var nameLoc name (some ⟨base, false⟩) none)
  | [⟨base, loc⟩, ⟨.mark .star, _⟩, ⟨.identifier name, nameLoc⟩] =>
    base.baseType?.map fun base =>
      .argument loc (.dataType loc ⟨base, true⟩) (.var nameLoc name (some ⟨base, true⟩) none)
  | _ => none

theorem argument?_eq_some_iff {span : List Lexeme} {tree : Tree} : argument? span = some tree ↔ Argument span tree := by
  constructor
  · intro h
    fun_cases argument? span with
    | case1 terminal loc name nameLoc =>
      obtain ⟨base, hbase, rfl⟩ := Option.map_eq_some_iff.1 h
      cases Terminal.baseType?_eq_some_iff.1 hbase
      exact .declaration .base
    | case2 terminal loc star name nameLoc =>
      obtain ⟨base, hbase, rfl⟩ := Option.map_eq_some_iff.1 h
      cases Terminal.baseType?_eq_some_iff.1 hbase
      exact .declaration .pointer
    | case3 => simp [argument?] at h
  · intro h
    have hbase : ∀ base : BaseType, (Terminal.keyword base.keyword).baseType? = some base := fun _ =>
      Terminal.baseType?_eq_some_iff.2 rfl
    cases h with
    | declaration typePhrase => cases typePhrase <;> simp [argument?, hbase]

/-- No lexeme of an argument can end one. -/
theorem Argument.not_end {span : List Lexeme} {tree : Tree} (h : Argument span tree) :
    ∀ lexeme ∈ span, lexeme.terminal ∉ Recovery.argumentEnds := by
  cases h with
  | @declaration first star type name loc typePhrase =>
    have hbase : ∀ base : BaseType, Terminal.keyword base.keyword ∉ Recovery.argumentEnds := by
      intro base
      cases base <;> decide
    have hstar : Terminal.mark .star ∉ Recovery.argumentEnds := by decide
    have hname : Terminal.identifier name ∉ Recovery.argumentEnds := by simp [Recovery.argumentEnds]
    cases typePhrase <;> simp [hbase, hstar, hname]

end Phrase

/-- What stands between the separators of an argument list, and the separator behind it. -/
structure Segment where
  lexemes : List Lexeme
  ending : Lexeme

namespace Segment

open Phrase

def span (segment : Segment) : List Lexeme :=
  segment.lexemes ++ [segment.ending]

/-- The lexemes of some segments, one behind the other. -/
def text (segments : List Segment) : List Lexeme :=
  segments.flatMap span

theorem text_cons (segment : Segment) (others : List Segment) : text (segment :: others) = segment.span ++ text others :=
  List.flatMap_cons

def argument? (segment : Segment) : Option Tree :=
  Phrase.argument? segment.lexemes

/-- The arguments among the segments. -/
def arguments (segments : List Segment) : List Tree :=
  segments.filterMap argument?

theorem arguments_cons {segment : Segment} {others : List Segment} :
    arguments (segment :: others) = segment.argument?.toList ++ arguments others := by
  cases hargument : segment.argument? <;> simp [arguments, hargument]

/-- The segments that are no arguments. -/
def malformed (segments : List Segment) : List Segment :=
  segments.filter fun segment => segment.argument?.isNone

/-- The segment begins with an argument and goes on behind it. -/
def Overfull (segment : Segment) : Prop :=
  ∃ front tree extra more, Argument front tree ∧ segment.lexemes = front ++ extra :: more

theorem overfull_iff {segment : Segment} : segment.Overfull ↔
    ∃ length < segment.lexemes.length, (Phrase.argument? (segment.lexemes.take length)).isSome := by
  constructor
  · rintro ⟨front, tree, extra, more, phrase, hlexemes⟩
    refine ⟨front.length, by simp [hlexemes], ?_⟩
    simp [hlexemes, argument?_eq_some_iff.2 phrase]
  · rintro ⟨length, hlength, hargument⟩
    obtain ⟨tree, htree⟩ := Option.isSome_iff_exists.1 hargument
    refine ⟨_, tree, segment.lexemes[length], segment.lexemes.drop (length + 1), argument?_eq_some_iff.1 htree, ?_⟩
    simp

instance (segment : Segment) : Decidable segment.Overfull :=
  decidable_of_iff _ overfull_iff.symm

/-- No lexeme of the segment can end an argument. -/
def Enclosed (segment : Segment) : Prop :=
  ∀ lexeme ∈ segment.lexemes, lexeme.terminal ∉ Recovery.argumentEnds

instance (segment : Segment) : Decidable segment.Enclosed :=
  inferInstanceAs (Decidable (∀ lexeme ∈ segment.lexemes, lexeme.terminal ∉ Recovery.argumentEnds))

/-- The error is at a lexeme of the segment, or at the one that ends it. -/
def Locates (segment : Segment) (error : SyntaxError) : Prop :=
  ∃ lexeme ∈ segment.span, error.loc = lexeme.loc

theorem locates_of_malformed {segment : Segment} {errors : List SyntaxError}
    (h : List.Forall₂ Locates (malformed [segment]) errors) : ∀ error ∈ errors, segment.Locates error := by
  cases hargument : segment.argument? with
  | some tree =>
    have hnil : malformed [segment] = [] := by simp [malformed, hargument]
    rw [hnil, List.forall₂_nil_left_iff] at h
    simp [h]
  | none =>
    have hself : malformed [segment] = [segment] := by simp [malformed, hargument]
    rw [hself, List.forall₂_cons_left_iff] at h
    obtain ⟨error, others, hlocates, hothers, rfl⟩ := h
    rw [List.forall₂_nil_left_iff] at hothers
    simpa [hothers] using hlocates

/-- What closes a list of arguments. -/
def closers : List Terminal :=
  [.mark .closeParen, .mark .pipe]

/-- Segments without what can end an argument, with commas between them and `closing` behind the last one. -/
inductive Listed (closing : Lexeme) : List Segment → Prop where
  | last {lexemes} : closing.terminal ∈ closers → Enclosed ⟨lexemes, closing⟩ → Listed closing [⟨lexemes, closing⟩]
  | more {lexemes comma others} :
      Enclosed ⟨lexemes, ⟨.mark .comma, comma⟩⟩ →
      Listed closing others →
      Listed closing (⟨lexemes, ⟨.mark .comma, comma⟩⟩ :: others)

/-- A segment in front of others ends in a comma. -/
theorem Listed.of_cons {closing : Lexeme} {first : Segment} {others : List Segment} (h : Listed closing (first :: others))
    (hothers : others ≠ []) :
    ∃ lexemes comma, first = ⟨lexemes, ⟨.mark .comma, comma⟩⟩ ∧ first.Enclosed ∧ Listed closing others := by
  cases h with
  | last => exact absurd rfl hothers
  | more henclosed listed => exact ⟨_, _, rfl, henclosed, listed⟩

theorem Listed.enclosed {closing : Lexeme} {segments : List Segment} (h : Listed closing segments) :
    ∀ segment ∈ segments, segment.Enclosed := by
  induction h with
  | last _ henclosed => exact List.forall_mem_singleton.2 henclosed
  | more henclosed _ ih => exact List.forall_mem_cons.2 ⟨henclosed, ih⟩

theorem Listed.text_eq {closing : Lexeme} {segments : List Segment} (h : Listed closing segments) :
    ∃ span, text segments = span ++ [closing] := by
  induction h with
  | @last lexemes => exact ⟨lexemes, by simp [text, span]⟩
  | @more lexemes comma others _ _ ih =>
    obtain ⟨more, hmore⟩ := ih
    exact ⟨lexemes ++ ⟨.mark .comma, comma⟩ :: more, by rw [text_cons, hmore]; simp [span]⟩

theorem Listed.closes {closing : Lexeme} {segments : List Segment} (h : Listed closing segments) :
    closing.terminal ∈ closers := by
  induction h with
  | last hclosing => exact hclosing
  | more _ _ ih => exact ih

theorem mem_argumentEnds_of_mem_closers {terminal : Terminal} (h : terminal ∈ closers) :
    terminal ∈ Recovery.argumentEnds := by
  rcases (by simpa [closers] using h : terminal = .mark .closeParen ∨ terminal = .mark .pipe) with rfl | rfl <;> decide

theorem ne_comma_of_mem_closers {terminal : Terminal} (h : terminal ∈ closers) : terminal ≠ .mark .comma := by
  rintro rfl
  simp [closers] at h

/-- A list of segments that is not empty is not closed where it starts. -/
theorem Listed.not_closed {closing : Lexeme} {segments : List Segment} (h : Listed closing segments)
    (hsome : segments ≠ [⟨[], closing⟩]) (behind : List Lexeme) :
    ∀ lexeme ∈ (text segments ++ behind).head?, lexeme.terminal ∉ closers := by
  have hfirst : ∀ {segment others}, segments = segment :: others → ∀ lexeme ∈ segment.lexemes.head?,
      lexeme.terminal ∉ closers := by
    rintro segment others rfl lexeme hmem hcloser
    exact h.enclosed segment List.mem_cons_self lexeme (List.mem_of_head? hmem) (mem_argumentEnds_of_mem_closers hcloser)
  cases h with
  | @last lexemes =>
    cases lexemes with
    | nil => exact absurd rfl hsome
    | cons first lexemes => simpa [text, span] using hfirst rfl
  | @more lexemes comma others =>
    cases lexemes with
    | nil => simp [text, span, closers]
    | cons first lexemes => simpa [text, span] using hfirst rfl

end Segment

namespace Recovery

theorem skipArgument_append {left behind : List Lexeme} {ending : Lexeme}
    (hleft : ∀ lexeme ∈ left, lexeme.terminal ∉ argumentEnds) (hending : ending.terminal ∈ argumentEnds) :
    skipArgument (left ++ ending :: behind) = ending :: behind := by
  unfold skipArgument
  rw [List.dropWhile_append_of_pos (by simpa using hleft)]
  simp [hending]

end Recovery

namespace Session

variable {start mid last : Session} {segment : Segment} {others : List Segment} {behind rest : List Lexeme}

/-- The last diagnostic is at none of the lexemes. -/
def FreshAt (session : Session) (lexemes : List Lexeme) : Prop :=
  ∀ lexeme ∈ lexemes, session.justReportedAt lexeme.loc = false

/-- Some segments have been read from `start` on, and `rest` is left behind them. If nothing has been reported at their
    places before, each of the malformed ones has been reported once. -/
structure Sifts (start : Session) (segments : List Segment) (rest : List Lexeme) (last : Session) : Prop where
  rest : last.rest = rest
  stop : last.stop = start.stop
  reports : start.FreshAt (Segment.text segments) → ((Segment.text segments).map Lexeme.loc).Nodup →
    ∃ errors, List.Forall₂ Segment.Locates (Segment.malformed segments) errors ∧
      last.diagnostics = start.diagnostics ++ errors.map .syntactic

theorem sifts_nil (next : Session) (span : List Lexeme) : (next.unread span).Sifts [] next.rest next where
  rest := rfl
  stop := rfl
  reports _ _ := ⟨[], .nil, by simp⟩

/-- What has been reported in one place does not keep an error in another one from being reported. -/
theorem FreshAt.of_reports {errors : List SyntaxError} {lexemes : List Lexeme} (h : start.FreshAt lexemes)
    (hdiagnostics : mid.diagnostics = start.diagnostics ++ errors.map .syntactic)
    (hapart : ∀ error ∈ errors, ∀ lexeme ∈ lexemes, error.loc ≠ lexeme.loc) : mid.FreshAt lexemes := by
  intro lexeme hmem
  unfold justReportedAt
  rw [hdiagnostics]
  rcases List.eq_nil_or_concat errors with rfl | ⟨front, error, rfl⟩
  · simpa [justReportedAt] using h lexeme hmem
  · simpa using hapart error (by simp) lexeme hmem

/-- The segments behind one that has been read are read from the separator between them on. -/
theorem Sifts.more (h : start.Sifts [segment] (segment.ending :: behind) mid)
    (hothers : { mid with rest := behind }.Sifts others rest last) : start.Sifts (segment :: others) rest last where
  rest := hothers.rest
  stop := hothers.stop.trans h.stop
  reports hfresh hplaces := by
    rw [Segment.text_cons] at hfresh hplaces
    rw [List.map_append, List.nodup_append] at hplaces
    obtain ⟨hfirst, hbehind, hapart⟩ := hplaces
    have htext : Segment.text [segment] = segment.span := by simp [Segment.text]
    obtain ⟨errors, hlocates, hmid⟩ := h.reports
      (fun lexeme hmem => hfresh lexeme (List.mem_append_left _ (htext ▸ hmem))) (htext ▸ hfirst)
    have hmidFresh : { mid with rest := behind }.FreshAt (Segment.text others) := by
      refine FreshAt.of_reports (fun lexeme hmem => hfresh lexeme (List.mem_append_right _ hmem)) hmid ?_
      intro error herror lexeme hmem
      obtain ⟨reported, hreported, hloc⟩ := Segment.locates_of_malformed hlocates error herror
      exact hloc ▸ hapart _ (List.mem_map_of_mem hreported) _ (List.mem_map_of_mem hmem)
    obtain ⟨more, hlocates', hlast⟩ := hothers.reports hmidFresh hbehind
    refine ⟨errors ++ more, ?_, ?_⟩
    · rw [Segment.malformed, ← List.singleton_append, List.filter_append]
      exact List.rel_append hlocates hlocates'
    · rw [hlast]
      show mid.diagnostics ++ _ = _
      rw [hmid]
      simp

end Session

namespace Grammar

open Rule Phrase

/-! ## One segment -/

variable {segment : Segment} {next : Session}

/-- A malformed segment is skipped, up to what ends it. -/
theorem argumentIfSound_sifts (henclosed : segment.Enclosed) (hending : segment.ending.terminal ∈ Recovery.argumentEnds)
    (hsound : ¬ segment.Overfull) :
    argumentIfSound.Succeeds (next.unread segment.span) fun trees last =>
      trees = segment.argument?.toList ∧
        (next.unread segment.span).Sifts [segment] (segment.ending :: next.rest) last := by
  obtain ⟨lexemes, ending⟩ := segment
  -- What is read in front of the end of the segment is a part of the segment.
  have inside : ∀ {span last}, (∀ lexeme ∈ span, lexeme.terminal ∉ Recovery.argumentEnds) →
      next.unread (Segment.span ⟨lexemes, ending⟩) = last.unread span →
      ∃ left, lexemes = span ++ left ∧ last = next.unread (left ++ [ending]) := by
    intro span last hspan hsession
    have hrest : span ++ last.rest = lexemes ++ ending :: next.rest := by
      simpa [Segment.span] using (congrArg Session.rest hsession).symm
    obtain ⟨left, rfl, hleft⟩ := append_eq_append_cons_of_not_mem hrest fun hmem => hspan ending hmem hending
    refine ⟨left, rfl, ?_⟩
    obtain ⟨rest, stop, diagnostics⟩ := last
    simp_all [Session.unread]
  rw [argumentIfSound_eq, Succeeds, run_recovering]
  cases hrun : argument.run (next.unread (Segment.span ⟨lexemes, ending⟩)) with
  | exhausted => trivial
  | done tree last =>
    obtain ⟨span, hsession, phrase⟩ := argument_sound hrun
    obtain ⟨left, rfl, rfl⟩ := inside phrase.not_end hsession
    cases left with
    | cons extra more => exact absurd ⟨span, tree, extra, more, phrase, rfl⟩ hsound
    | nil =>
      have hargument : argument? span = some tree := argument?_eq_some_iff.2 phrase
      refine ⟨by simp [Segment.argument?, hargument], rfl, rfl, fun _ _ => ⟨[], ?_, by simp⟩⟩
      simp [Segment.malformed, Segment.argument?, hargument]
  | failed error last =>
    obtain ⟨span, hsession, hloc, ⟨more, ⟨phrase⟩⟩⟩ := argument_viable.failed hrun
    obtain ⟨left, rfl, rfl⟩ := inside (fun lexeme hmem => phrase.not_end lexeme (by simp [hmem])) hsession
    have hargument : argument? (span ++ left) = none := by
      refine Option.eq_none_iff_forall_not_mem.2 fun tree htree => ?_
      have hread : argument.Reads (span ++ left) (next.unread [ending]) tree :=
        argument_complete (argument?_eq_some_iff.1 htree)
      rw [Reads, ← Session.unread_append] at hread
      rcases hread with hread | hread <;> cases hread.symm.trans hrun
    have hlocates : Segment.Locates ⟨span ++ left, ending⟩ error := by
      cases left with
      | nil => exact ⟨ending, by simp [Segment.span], hloc⟩
      | cons first left => exact ⟨first, by simp [Segment.span], hloc⟩
    have hskip : Recovery.skipArgument (left ++ ending :: next.rest) = ending :: next.rest :=
      Recovery.skipArgument_append (fun lexeme hmem => henclosed lexeme (List.mem_append_right _ hmem)) hending
    refine ⟨by simp [Segment.argument?, hargument], ?_, ?_, fun hfresh _ => ⟨[error], ?_, ?_⟩⟩
    · rw [rest_report, Session.rest_unread, List.append_assoc]
      exact hskip
    · exact (Session.AdvancesTo.report _ _).stop
    · simpa [Segment.malformed, Segment.argument?, hargument] using hlocates
    · obtain ⟨lexeme, hmem, hplace⟩ := hlocates
      have hjust : (next.unread (left ++ [ending])).justReportedAt error.loc = false := by
        rw [hplace]
        exact hfresh lexeme (by simpa [Segment.text] using hmem)
      simp [Session.report, hjust, Session.record]

/-! ## A list of segments -/

/-- The arguments that follow are over where no comma follows. -/
theorem arguments_last {n : Nat} {Post : List Tree → Session → Prop} {start : Session}
    (h : argumentIfSound.Succeeds start fun found last =>
      Post found last ∧ ∀ lexeme ∈ last.rest.head?, lexeme.terminal ≠ .mark .comma) :
    (arguments n).Succeeds start Post := by
  cases n with
  | zero => rw [arguments]; trivial
  | succ n =>
    rw [arguments]
    exact h.bind fun {found last} hread => succeeds_bind_accept_none hread.2 hread.1

/-- A segment in front of a comma is read, and then the segments behind the comma. -/
theorem arguments_more {n : Nat} {lexemes rest : List Lexeme} {comma : Location} {segments : List Segment}
    {trees : List Tree} {next : Session} (henclosed : Segment.Enclosed ⟨lexemes, ⟨.mark .comma, comma⟩⟩)
    (hsound : ¬ Segment.Overfull ⟨lexemes, ⟨.mark .comma, comma⟩⟩)
    (hothers : ∀ {n start}, start.rest = next.rest → (arguments n).Succeeds start fun found last =>
      found = trees ∧ start.Sifts segments rest last) :
    (arguments n).Succeeds (next.unread (Segment.span ⟨lexemes, ⟨.mark .comma, comma⟩⟩)) fun found last =>
      found = (Segment.argument? ⟨lexemes, ⟨.mark .comma, comma⟩⟩).toList ++ trees ∧
        (next.unread (Segment.span ⟨lexemes, ⟨.mark .comma, comma⟩⟩)).Sifts
          (⟨lexemes, ⟨.mark .comma, comma⟩⟩ :: segments) rest last := by
  cases n with
  | zero => rw [arguments]; trivial
  | succ n =>
    rw [arguments]
    refine (argumentIfSound_sifts henclosed (by simp [Recovery.argumentEnds]) hsound).bind
      fun {first mid} hmid => ?_
    rw [← Session.unread_of_rest (show mid.rest = [⟨.mark .comma, comma⟩] ++ next.rest from hmid.2.rest)]
    apply succeeds_bind_accept_some
    have hread : (arguments n).Succeeds { mid with rest := next.rest } _ := hothers rfl
    exact hread.bind fun {found last} hlast => ⟨congrArg₂ _ hmid.1 hlast.1, hmid.2.more hlast.2⟩

variable {closing : Lexeme} {segments : List Segment}

theorem arguments_sifts (h : Segment.Listed closing segments) :
    (∀ segment ∈ segments, ¬ segment.Overfull) → ∀ {n} {next : Session},
      (arguments n).Succeeds (next.unread (Segment.text segments)) fun found last =>
        found = Segment.arguments segments ∧
          (next.unread (Segment.text segments)).Sifts segments (closing :: next.rest) last := by
  induction h with
  | @last lexemes hclosing henclosed =>
    intro hsound n next
    have htext : Segment.text [⟨lexemes, closing⟩] = Segment.span ⟨lexemes, closing⟩ := by simp [Segment.text]
    refine arguments_last ?_
    rw [htext]
    refine (argumentIfSound_sifts henclosed (Segment.mem_argumentEnds_of_mem_closers hclosing) (hsound _ (by simp))).mono
      fun {found last} ⟨hfound, hlast⟩ => ⟨⟨?_, hlast⟩, ?_⟩
    · rw [hfound, Segment.arguments_cons]
      exact (List.append_nil _).symm
    · rw [hlast.rest]
      rintro lexeme ⟨⟩
      exact Segment.ne_comma_of_mem_closers hclosing
  | @more lexemes comma others henclosed listed ih =>
    intro hsound n next
    obtain ⟨hfirst, hothers⟩ := List.forall_mem_cons.1 hsound
    rw [Segment.text_cons, Session.unread_append]
    rw [Segment.arguments_cons]
    refine arguments_more henclosed hfirst fun {n start} hstart => ?_
    rw [← Session.unread_of_rest hstart]
    exact ih hothers

/-- An argument with more behind it is the last one that is read. -/
theorem arguments_sifts_overfull {front more : List Lexeme} {extra ending : Lexeme} {others : List Segment} {tree : Tree}
    (phrase : Argument front tree) : ∀ {sound},
      Segment.Listed closing (sound ++ ⟨front ++ extra :: more, ending⟩ :: others) →
      (∀ segment ∈ sound, ¬ segment.Overfull) → ∀ {n} {next : Session},
        (arguments n).Succeeds (next.unread (Segment.text (sound ++ ⟨front ++ extra :: more, ending⟩ :: others)))
          fun found last => found = Segment.arguments sound ++ [tree] ∧
            (next.unread (Segment.text (sound ++ ⟨front ++ extra :: more, ending⟩ :: others))).Sifts sound
              (extra :: more ++ ending :: Segment.text others ++ next.rest) last := by
  intro sound h
  induction sound with
  | nil =>
    intro _ n next
    have hextra : extra.terminal ∉ Recovery.argumentEnds := h.enclosed _ List.mem_cons_self extra (by simp)
    have htext : Segment.text (⟨front ++ extra :: more, ending⟩ :: others) =
        front ++ (extra :: more ++ ending :: Segment.text others) := by
      simp [Segment.text, Segment.span]
    refine arguments_last ?_
    rw [List.nil_append, htext, Session.unread_append]
    refine (argumentIfSound_complete phrase).succeeds.mono fun {found last} ⟨hfound, hlast⟩ => ?_
    subst hlast
    refine ⟨⟨hfound, ?_⟩, ?_⟩
    · simpa using (next.unread (extra :: more ++ ending :: Segment.text others)).sifts_nil front
    · rintro lexeme ⟨⟩ hcomma
      exact hextra (by simp [hcomma, Recovery.argumentEnds])
  | cons first sound ih =>
    intro hsound n next
    obtain ⟨hfirst, hothers⟩ := List.forall_mem_cons.1 hsound
    obtain ⟨lexemes, comma, rfl, henclosed, listed⟩ := h.of_cons (by simp)
    rw [List.cons_append, Segment.text_cons, Session.unread_append, Segment.arguments_cons, List.append_assoc]
    refine arguments_more henclosed hfirst fun {n start} hstart => ?_
    rw [← Session.unread_of_rest hstart]
    exact ih listed hothers

/-! ## The whole list -/

theorem argumentList_of_some {n : Nat} {start : Session}
    (h : ∀ lexeme ∈ start.rest.head?, lexeme.terminal ∉ Segment.closers) :
    (argumentList n).run start = (arguments n).run start := by
  have hfollows : start.follows Segment.closers = false := by
    unfold Session.follows
    cases hrest : start.rest with
    | nil => rfl
    | cons lexeme rest => simpa using h lexeme (by simp [hrest])
  show (look (Session.follows Segment.closers) >>= _).run start = _
  rw [run_look, hfollows]
  rfl

/-- A list of segments is read to its end if none of them is overfull. -/
theorem argumentList_sifts (h : Segment.Listed closing segments) (hsome : segments ≠ [⟨[], closing⟩])
    (hsound : ∀ segment ∈ segments, ¬ segment.Overfull) {n : Nat} {next : Session} :
    (argumentList n).Succeeds (next.unread (Segment.text segments)) fun found last =>
      found = Segment.arguments segments ∧
        (next.unread (Segment.text segments)).Sifts segments (closing :: next.rest) last := by
  rw [Succeeds, argumentList_of_some (h.not_closed hsome next.rest)]
  exact arguments_sifts h hsound

/-- A list is read up to what follows the argument in the first overfull segment. -/
theorem argumentList_sifts_overfull {sound others : List Segment} {front more : List Lexeme} {extra ending : Lexeme}
    {tree : Tree} (h : Segment.Listed closing (sound ++ ⟨front ++ extra :: more, ending⟩ :: others))
    (hsound : ∀ segment ∈ sound, ¬ segment.Overfull) (phrase : Argument front tree) {n : Nat} {next : Session} :
    (argumentList n).Succeeds (next.unread (Segment.text (sound ++ ⟨front ++ extra :: more, ending⟩ :: others)))
      fun found last => found = Segment.arguments sound ++ [tree] ∧
        (next.unread (Segment.text (sound ++ ⟨front ++ extra :: more, ending⟩ :: others))).Sifts sound
          (extra :: more ++ ending :: Segment.text others ++ next.rest) last := by
  have hsome : sound ++ ⟨front ++ extra :: more, ending⟩ :: others ≠ [⟨[], closing⟩] := by
    simp [List.append_eq_singleton_iff]
  rw [Succeeds, argumentList_of_some (h.not_closed hsome next.rest)]
  exact arguments_sifts_overfull phrase h hsound

end Grammar

end RoutineSpec
