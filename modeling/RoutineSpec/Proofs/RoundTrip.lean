import RoutineSpec.Proofs.Acceptance
import RoutineSpec.Proofs.Parentheses
import RoutineSpec.Proofs.Spelling
import RoutineSpec.Proofs.WrittenPhrase

/-! # Reading what has been written

An expressible program that is written as source text is read without diagnostics, and what is read is the
program, up to its places. No text for the program has fewer parentheses. Whatever has been read from a source text is
expressible, repaired or not, so it can be written and read once more.
-/

namespace RoutineSpec

namespace Session

/-- In front of what is written of a program, a copy of that program is read, and nothing is reported. -/
theorem finish_ofSource_source {tree : Tree} (h : Expressible.Program .written tree) (policy : DecimalPolicy) :
    ∃ copy, (ofSource policy tree.source).finish = .ok ⟨copy, []⟩ ∧ copy.unplaced = tree.unplaced := by
  obtain ⟨hlexemes, herrors⟩ := Scan.of_spellings policy h.admits
  have hrest : (ofSource policy tree.source).rest.map Lexeme.terminal = tree.terminals := by
    rw [ofSource_eq]
    exact hlexemes
  have hclean : (ofSource policy tree.source).diagnostics = [] := by
    rw [ofSource_eq]
    exact congrArg (List.map Diagnostic.lexical) herrors
  obtain ⟨copy, phrase, hcopy⟩ := h.stands _ hrest
  exact ⟨copy, (finish_eq_ok_nil_iff hclean).2 phrase, hcopy⟩

/-- A session that is read without any diagnostics had none, and was in front of a program. -/
theorem program_of_finish {session : Session} {tree : Tree} (h : session.finish = .ok ⟨tree, []⟩) :
    Phrase.Program Location.Touches session.rest tree := by
  obtain ⟨next, hdone, hdiagnostics⟩ := finish_eq_ok_iff.1 h
  have hkept := ((Grammar.program_advances _).done hdone).diagnostics
  rw [hdiagnostics, List.prefix_nil] at hkept
  exact (finish_eq_ok_nil_iff hkept).1 h

end Session

namespace Reading

theorem expressible_of_ofSource {policy : DecimalPolicy} {source : String} {reading : Reading}
    (h : ofSource policy source = .ok reading) : Expressible.Program .written reading.program := by
  apply Session.expressible_of_finish h
  rw [Session.ofSource_eq]
  exact Scan.admits_lexemes policy source

/-- Every expressible program is read from the source text that is written of it. -/
theorem ofSource_source {tree : Tree} (h : Expressible.Program .written tree) (policy : DecimalPolicy) :
    ∃ copy, ofSource policy tree.source = .ok ⟨copy, []⟩ ∧ copy.unplaced = tree.unplaced :=
  Session.finish_ofSource_source h policy

/-- Parentheses around what is indexed and around what is subtracted, and nowhere else. -/
theorem ofSource_source_of_groups :
    let type : DataType := ⟨.int, true⟩
    let a : Tree := .var .start "a" none none
    let tree : Tree := .program .start (.joinSpec .start [] [] [] [] (.block .start []))
      (.sequentialSpec .start [.argument .start (.dataType .start type) (.var .start "a" (some type) none)] [] []
        (.assignment .start (.index .start (.unary .start .negate a) a)
          (.binary .start .sub (.binary .start .sub a a) (.binary .start .sub a (.constant .start (.int 1))))))
    tree.source = "join ( | ) returns ( ) locals ( ) \x7b \x7d sequential ( int * a ) returns ( ) locals ( ) " ++
        "( - a ) [ a ] = a - a - ( a - 1 ) ;" ∧
      Expressible.Program .written tree ∧
      ∃ copy, ofSource .reject tree.source = .ok ⟨copy, []⟩ ∧ copy.unplaced = tree.unplaced := by
  intro type a tree
  have hname : isName "a" = true := by decide
  have hone : 0 ≤ (1 : Int) ∧ (1 : Int) ≤ maxInteger := by decide
  have ha : Expressible.Expression .written a := .var hname
  have hjoin : Expressible.JoinSpec .written (.joinSpec .start [] [] [] [] (.block .start [])) :=
    .join (by simp) (by simp) (by simp) (by simp) (.block (by simp))
  have htree : Expressible.Program .written tree := by
    apply Expressible.Program.program hjoin
    apply Expressible.SequentialSpec.sequential
    · simpa using Expressible.Argument.declaration hname
    · simp
    · simp
    · exact .assignment (.index (.unary ha) ha) (.binary (.binary ha ha) (.binary ha (.integer hone)))
  exact ⟨by decide +kernel, htree, ofSource_source htree .reject⟩

/-- No text that is read as the program, without diagnostics, has fewer parentheses than the one that is written. -/
theorem parens_source_le {tree copy : Tree} {policy : DecimalPolicy} {text : String}
    (h : Expressible.Program .written tree) (hread : ofSource policy text = .ok ⟨copy, []⟩)
    (hsame : copy.unplaced = tree.unplaced) (policy' : DecimalPolicy) :
    Terminal.parens ((Scan.of policy' tree.source).lexemes.map Lexeme.terminal) ≤
      Terminal.parens ((Scan.of policy text).lexemes.map Lexeme.terminal) := by
  obtain ⟨hlexemes, -⟩ := Scan.of_spellings policy' h.admits
  have hwritten : (Scan.of policy' tree.source).lexemes.map Lexeme.terminal = tree.terminals := hlexemes
  have hterminals : tree.terminals = copy.terminals := by
    rw [← tree.terminals_unplaced, ← hsame, copy.terminals_unplaced]
  have hrest : (Session.ofSource policy text).rest = (Scan.of policy text).lexemes := by rw [Session.ofSource_eq]
  rw [hwritten, hterminals, ← hrest]
  exact (Session.program_of_finish hread).parens_le

/-- What has been read, repaired or not, can be written and is read once more, without any diagnostics. -/
theorem ofSource_reading_source {policy : DecimalPolicy} {source : String} {reading : Reading}
    (h : ofSource policy source = .ok reading) (policy' : DecimalPolicy) :
    ∃ copy, ofSource policy' reading.program.source = .ok ⟨copy, []⟩ ∧
      copy.unplaced = reading.program.unplaced :=
  Session.finish_ofSource_source (expressible_of_ofSource h) policy'

/-- A statement of a block is left out, and the rest of the program is read once more. -/
theorem ofSource_reading_source_of_repaired :
    let source := "join(|) returns() locals() \x7b x = ; y++; \x7d sequential() returns() locals() z = -(1 - 2);"
    ∃ reading, ofSource .reject source = .ok reading ∧ reading.repaired = true ∧
      ∃ copy, ofSource .truncate reading.program.source = .ok ⟨copy, []⟩ ∧
        copy.unplaced = reading.program.unplaced := by
  intro source
  have hrepaired : (ofSource .reject source).toOption.map repaired = some true := by decide +kernel
  cases hread : ofSource .reject source with
  | error => rw [hread] at hrepaired; cases hrepaired
  | ok reading =>
    rw [hread] at hrepaired
    exact ⟨reading, rfl, Option.some.inj hrepaired, ofSource_reading_source hread .truncate⟩

end Reading

end RoutineSpec
