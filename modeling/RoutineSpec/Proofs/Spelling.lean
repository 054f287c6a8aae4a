import RoutineSpec.Proofs.Writing

/-! # What is written is scanned

The text of a terminal that can be written is one piece, which ends where a blank or the end of the text follows.
So terminals with blanks between them are scanned as they are, and conversely all that is scanned can be written.
-/

namespace RoutineSpec

/-- A run of characters ends where another one follows, or nothing. -/
theorem takeWhile_append_of_head {p : Char → Bool} {run rest : List Char} (hrun : ∀ c ∈ run, p c = true)
    (hrest : ∀ c ∈ rest.head?, p c = false) : (run ++ rest).takeWhile p = run := by
  rw [List.takeWhile_append_of_pos hrun]
  cases rest with
  | nil => simp
  | cons c rest => simp [hrest c rfl]

theorem dropWhile_append_of_head {p : Char → Bool} {run rest : List Char} (hrun : ∀ c ∈ run, p c = true)
    (hrest : ∀ c ∈ rest.head?, p c = false) : (run ++ rest).dropWhile p = rest := by
  rw [List.dropWhile_append_of_pos hrun]
  cases rest with
  | nil => rfl
  | cons c rest => simp [hrest c rfl]

/-- A letter or underscore, then letters, digits and underscores. -/
inductive IsWord : List Char → Prop where
  | cons {c cs} : isWordStart c = true → (∀ d ∈ cs, isWordChar d = true) → IsWord (c :: cs)

/-- A run of digits; behind it, maybe, a run of dots and then a run of digits. -/
structure IsNumber (digits dots fraction : List Char) : Prop where
  nonempty : digits ≠ []
  integral : ∀ c ∈ digits, c.isDigit = true
  dotted : ∀ c ∈ dots, isDot c = true
  fractional : ∀ c ∈ fraction, c.isDigit = true
  dotless : dots = [] → fraction = []

theorem IsWord.all {text : List Char} (h : IsWord text) : ∀ c ∈ text, isWordChar c = true := by
  cases h with
  | cons hstart hword => exact List.forall_mem_cons.2 ⟨isWordChar_of_isWordStart hstart, hword⟩

/-- Blanks are in no word and no number. -/
theorem other_of_isBlank {c : Char} (h : isBlank c = true) :
    isWordChar c = false ∧ c.isDigit = false ∧ isDot c = false := by
  simp only [isBlank, Bool.or_eq_true, beq_iff_eq] at h
  rcases h with ((rfl | rfl) | rfl) | rfl <;> decide

theorem isDot_of_isDigit {c : Char} (h : c.isDigit = true) : isDot c = false := by
  refine Bool.eq_false_iff.2 fun hdot => ?_
  rw [isDot, beq_iff_eq] at hdot
  subst hdot
  cases h

theorem isDigit_of_isDot {c : Char} (h : isDot c = true) : c.isDigit = false := by
  refine Bool.eq_false_iff.2 fun hdigit => ?_
  rw [isDot_of_isDigit hdigit] at h
  cases h

theorem isBlank_of_isWordStart {c : Char} (h : isWordStart c = true) : isBlank c = false := by
  refine Bool.eq_false_iff.2 fun hblank => ?_
  simp only [isBlank, Bool.or_eq_true, beq_iff_eq] at hblank
  rcases hblank with ((rfl | rfl) | rfl) | rfl <;> simp [isWordStart] at h

theorem isBlank_of_isDigit {c : Char} (h : c.isDigit = true) : isBlank c = false := by
  refine Bool.eq_false_iff.2 fun hblank => ?_
  simp only [isBlank, Bool.or_eq_true, beq_iff_eq] at hblank
  rcases hblank with ((rfl | rfl) | rfl) | rfl <;> simp at h

theorem isWordStart_of_isDigit {c : Char} (h : c.isDigit = true) : isWordStart c = false := by
  have hbelow : c.val ≤ 57 := of_decide_eq_true (Bool.and_eq_true_iff.1 h).2
  have hupper : c.isUpper = false := decide_eq_false fun hrange => by grind
  have hlower : c.isLower = false := Bool.and_eq_false_iff.2 (.inl (decide_eq_false (by grind)))
  have hletter : c.isAlpha = false := Bool.or_eq_false_iff.2 ⟨hupper, hlower⟩
  have hother : c ≠ '_' := by
    rintro rfl
    simp at h
  simp [isWordStart, hletter, hother]

theorem isDigit_of_isWordStart {c : Char} (h : isWordStart c = true) : c.isDigit = false := by
  refine Bool.eq_false_iff.2 fun hdigit => ?_
  rw [isWordStart_of_isDigit hdigit] at h
  cases h

theorem isDot_of_isWordStart {c : Char} (h : isWordStart c = true) : isDot c = false := by
  refine Bool.eq_false_iff.2 fun hdot => ?_
  rw [isDot, beq_iff_eq] at hdot
  subst hdot
  cases h

theorem isWordChar_of_isDigit {c : Char} (h : c.isDigit = true) : isWordChar c = true := by
  simp [isWordChar, Char.isAlphanum, h]

theorem isDigit_of_not_isWordChar {c : Char} (h : isWordChar c = false) : c.isDigit = false := by
  refine Bool.eq_false_iff.2 fun hdigit => ?_
  rw [isWordChar_of_isDigit hdigit] at h
  cases h

/-- A mark is one or two characters long. -/
theorem Mark.spelling_cases (sign : Mark) :
    (∃ a, sign.spelling.toList = [a]) ∨ ∃ a b, sign.spelling.toList = [a, b] := by
  cases sign <;> first | exact .inl ⟨_, rfl⟩ | exact .inr ⟨_, _, rfl⟩

theorem Mark.ofSpelling?_ofList {sign : Mark} {text : List Char} (h : sign.spelling.toList = text) :
    ofSpelling? (String.ofList text) = some sign := by
  rw [← h, String.ofList_toList, ofSpelling?_spelling]

theorem Mark.spelling_toList_of_ofSpelling? {sign : Mark} {text : List Char}
    (h : ofSpelling? (String.ofList text) = some sign) : sign.spelling.toList = text := by
  rw [← ofSpelling?_eq_some_iff.1 h, String.toList_ofList]

/-- A mark ends where no character follows that makes it a longer one. -/
theorem Mark.leading?_spelling (sign : Mark) {rest : List Char}
    (hrest : ∀ c ∈ rest.head?, ∀ longer : Mark, longer.spelling.toList ≠ sign.spelling.toList ++ [c]) :
    leading? (sign.spelling.toList ++ rest) = some sign := by
  rcases sign.spelling_cases with ⟨a, hsign⟩ | ⟨a, b, hsign⟩
  · have hshort := ofSpelling?_ofList hsign
    rw [hsign]
    cases rest with
    | nil => exact hshort
    | cons c rest =>
      have hlong : ofSpelling? (String.ofList [a, c]) = none := by
        refine Option.eq_none_iff_forall_ne_some.2 fun longer hlonger => hrest c rfl longer ?_
        rw [spelling_toList_of_ofSpelling? hlonger, hsign]
        rfl
      rw [List.cons_append, List.nil_append, leading?, hlong, hshort]
      rfl
  · rw [hsign]
    rw [List.cons_append, List.cons_append, leading?, ofSpelling?_ofList hsign]
    rfl

/-- The characters of marks are in no other piece. -/
theorem Mark.other_of_mem (sign : Mark) {c : Char} (h : c ∈ sign.spelling.toList) :
    isBlank c = false ∧ isWordChar c = false ∧ isDot c = false := by
  have hall : sign.spelling.toList.all (fun c => !isBlank c && !isWordChar c && !isDot c) = true := by
    cases sign <;> rfl
  simpa [and_assoc] using List.all_eq_true.1 hall c h

theorem Mark.spelling_ne_of_isBlank (sign : Mark) {c : Char} (h : isBlank c = true) (text : List Char) :
    sign.spelling.toList ≠ text ++ [c] := by
  intro hsign
  have hother : isBlank c = false := (sign.other_of_mem (by simp [hsign])).1
  rw [h] at hother
  cases hother

/-- No mark starts like another piece. -/
theorem Mark.exists_spelling (sign : Mark) :
    ∃ c cs, sign.spelling.toList = c :: cs ∧ isBlank c = false ∧ isWordStart c = false ∧ c.isDigit = false := by
  cases sign <;> exact ⟨_, _, rfl, rfl, rfl, rfl⟩

namespace Terminal

/-- The piece of a text that a terminal is written as. -/
def piece : Terminal → Piece
  | .identifier name => .word name.toList
  | .integer value => .number (Nat.toDigits 10 value.toNat) [] []
  | .keyword word => .word word.spelling.toList
  | .mark sign => .mark sign

/-- The text of a terminal, which can be written, ends here: what follows does not make it longer. -/
def EndsBefore (rest : List Char) : Terminal → Prop
  | .identifier _ | .keyword _ => ∀ c ∈ rest.head?, isWordChar c = false
  | .integer _ => ∀ c ∈ rest.head?, c.isDigit = false ∧ isDot c = false
  | .mark sign => ∀ c ∈ rest.head?, ∀ longer : Mark, longer.spelling.toList ≠ sign.spelling.toList ++ [c]

/-- Every terminal ends before a blank and at the end of the text. -/
theorem endsBefore_of_blank (terminal : Terminal) {rest : List Char} (h : ∀ c ∈ rest.head?, isBlank c = true) :
    terminal.EndsBefore rest := by
  cases terminal with
  | identifier | keyword => exact fun c hc => (other_of_isBlank (h c hc)).1
  | integer => exact fun c hc => (other_of_isBlank (h c hc)).2
  | mark sign => exact fun c hc longer => longer.spelling_ne_of_isBlank (h c hc) _

end Terminal

namespace Piece

/-- What is taken from the front of a text is its first piece. -/
theorem split_append {c : Char} {cs rest : List Char} {piece : Piece} (htext : piece.text = c :: cs)
    (hleading : leading c (cs ++ rest) = piece) :
    split (piece.text ++ rest) = piece :: split rest := by
  rw [htext, List.cons_append, split, hleading, htext, ← List.cons_append, List.drop_left]

/-- What the first piece of the text `c :: cs` can be. -/
inductive Leads (c : Char) (cs : List Char) : Piece → Prop where
  | blank : isBlank c = true → Leads c cs (.blank c)
  | word : isWordStart c = true → Leads c cs (.word ((c :: cs).takeWhile isWordChar))
  | number : c.isDigit = true → Leads c cs (leadingNumber (c :: cs))
  | mark {sign} : Mark.leading? (c :: cs) = some sign → Leads c cs (.mark sign)
  | illegal : isBlank c = false → isWordStart c = false → c.isDigit = false → Mark.leading? (c :: cs) = none →
      Leads c cs (.illegal c)

theorem leads_leading (c : Char) (cs : List Char) : Leads c cs (leading c cs) := by
  unfold leading
  split
  · next hblank => exact .blank hblank
  split
  · next hstart => exact .word hstart
  split
  · next hdigit => exact .number hdigit
  split
  · next hsign => exact .mark hsign
  · next hblank hstart hdigit _ hsign =>
    exact .illegal (by simpa using hblank) (by simpa using hstart) (by simpa using hdigit) hsign

theorem split_blank {c : Char} (h : isBlank c = true) (rest : List Char) :
    split (c :: rest) = .blank c :: split rest := by
  rw [split]
  simp [leading, h, text]

theorem leading_of_isWordStart {c : Char} (h : isWordStart c = true) (cs : List Char) :
    leading c cs = .word ((c :: cs).takeWhile isWordChar) := by
  simp [leading, isBlank_of_isWordStart h, h]

theorem leading_of_isDigit {c : Char} (h : c.isDigit = true) (cs : List Char) :
    leading c cs = leadingNumber (c :: cs) := by
  simp [leading, isBlank_of_isDigit h, isWordStart_of_isDigit h, h]

theorem leading_of_leading? {c : Char} {cs : List Char} {sign : Mark} (h : Mark.leading? (c :: cs) = some sign) :
    leading c cs = .mark sign := by
  obtain ⟨d, ds, hspelling, hblank, hstart, hdigit⟩ := sign.exists_spelling
  have hbegins := Mark.leading?_isPrefix h
  rw [hspelling, List.cons_prefix_cons] at hbegins
  rw [hbegins.1] at hblank hstart hdigit
  simp [leading, hblank, hstart, hdigit, h]

theorem leading_word {c : Char} {cs rest : List Char} (h : IsWord (c :: cs))
    (hrest : ∀ d ∈ rest.head?, isWordChar d = false) : leading c (cs ++ rest) = .word (c :: cs) := by
  have htake := takeWhile_append_of_head h.all hrest
  rw [List.cons_append] at htake
  cases h with
  | cons hstart => rw [leading_of_isWordStart hstart, htake]

theorem leadingNumber_append {digits dots fraction rest : List Char} (h : IsNumber digits dots fraction)
    (hrest : ∀ c ∈ rest.head?, c.isDigit = false ∧ (fraction = [] → isDot c = false)) :
    leadingNumber (digits ++ dots ++ fraction ++ rest) = .number digits dots fraction := by
  have hfraction : (fraction ++ rest).takeWhile Char.isDigit = fraction :=
    takeWhile_append_of_head h.fractional fun c hc => (hrest c hc).1
  have hbehindDots : ∀ c ∈ (fraction ++ rest).head?, isDot c = false := by
    cases fraction with
    | nil => exact fun c hc => (hrest c hc).2 rfl
    | cons d ds =>
      rintro _ ⟨⟩
      exact isDot_of_isDigit (h.fractional _ List.mem_cons_self)
  have hbehindDigits : ∀ c ∈ (dots ++ (fraction ++ rest)).head?, c.isDigit = false := by
    cases dots with
    | nil =>
      rw [h.dotless rfl]
      exact fun c hc => (hrest c hc).1
    | cons d ds =>
      rintro _ ⟨⟩
      exact isDigit_of_isDot (h.dotted _ List.mem_cons_self)
  rw [List.append_assoc, List.append_assoc, leadingNumber, takeWhile_append_of_head h.integral hbehindDigits,
    dropWhile_append_of_head h.integral hbehindDigits, takeWhile_append_of_head h.dotted hbehindDots,
    dropWhile_append_of_head h.dotted hbehindDots, hfraction]

theorem leading_number {c : Char} {cs dots fraction rest : List Char} (h : IsNumber (c :: cs) dots fraction)
    (hrest : ∀ d ∈ rest.head?, d.isDigit = false ∧ (fraction = [] → isDot d = false)) :
    leading c (cs ++ dots ++ fraction ++ rest) = .number (c :: cs) dots fraction := by
  rw [leading_of_isDigit (h.integral c List.mem_cons_self)]
  exact leadingNumber_append h hrest

theorem leading_mark {c : Char} {cs rest : List Char} {sign : Mark} (hsign : sign.spelling.toList = c :: cs)
    (hrest : ∀ d ∈ rest.head?, ∀ longer : Mark, longer.spelling.toList ≠ sign.spelling.toList ++ [d]) :
    leading c (cs ++ rest) = .mark sign := by
  have hleading := sign.leading?_spelling hrest
  rw [hsign] at hleading
  exact leading_of_leading? hleading

end Piece

namespace Terminal

variable {terminal : Terminal}

theorem isWord_of_isName {name : String} (h : isName name = true) : IsWord name.toList := by
  unfold isName at h
  split at h
  · cases h
  · next c cs htext =>
    simp only [Bool.and_eq_true, List.all_eq_true] at h
    rw [htext]
    exact .cons h.1.1 h.1.2

theorem ofSpelling?_of_isName {name : String} (h : isName name = true) : Keyword.ofSpelling? name = none := by
  unfold isName at h
  split at h
  · cases h
  · simp only [Bool.and_eq_true, Option.isNone_iff_eq_none] at h
    exact h.2

theorem isWord_of_keyword (word : Keyword) : IsWord word.spelling.toList := by
  cases word <;> exact .cons rfl (List.all_eq_true.1 rfl)

theorem isNumber_toDigits (n : Nat) : IsNumber (Nat.toDigits 10 n) [] [] where
  nonempty := Nat.toDigits_ne_nil
  integral := fun _ hmem => Nat.isDigit_of_mem_toDigits (by decide) (by decide) hmem
  dotted := by simp
  fractional := by simp
  dotless := fun _ => rfl

theorem spelling_natCast (n : Nat) : (Terminal.integer n).spelling.toList = Nat.toDigits 10 n :=
  Nat.toList_repr

/-- The text of a terminal that can be written is one piece. -/
theorem exists_spelling (h : Vocabulary.written.Admits terminal) :
    ∃ c cs, terminal.spelling.toList = c :: cs ∧ terminal.piece.text = c :: cs ∧
      ∀ {rest}, terminal.EndsBefore rest → Piece.leading c (cs ++ rest) = terminal.piece := by
  cases terminal with
  | identifier name =>
    have hword := isWord_of_isName h
    cases htext : name.toList with
    | nil => rw [htext] at hword; cases hword
    | cons c cs =>
      rw [htext] at hword
      refine ⟨c, cs, htext, htext, fun hrest => ?_⟩
      rw [Piece.leading_word hword hrest, piece, htext]
  | integer value =>
    obtain ⟨n, rfl⟩ := Int.eq_ofNat_of_zero_le h.1
    have hnumber := isNumber_toDigits n
    obtain ⟨c, cs, hdigits⟩ := List.exists_cons_of_ne_nil hnumber.nonempty
    rw [hdigits] at hnumber
    refine ⟨c, cs, ?_, ?_, fun {rest} hrest => ?_⟩
    · rw [spelling_natCast, hdigits]
    · simp [piece, Piece.text, hdigits]
    · have hleading := Piece.leading_number hnumber fun d hd => ⟨(hrest d hd).1, fun _ => (hrest d hd).2⟩
      simp only [List.append_nil] at hleading
      rw [hleading, piece, Int.toNat_natCast, hdigits]
  | keyword word =>
    have hword := isWord_of_keyword word
    cases htext : word.spelling.toList with
    | nil => rw [htext] at hword; cases hword
    | cons c cs =>
      rw [htext] at hword
      refine ⟨c, cs, htext, htext, fun hrest => ?_⟩
      rw [Piece.leading_word hword hrest, piece, htext]
  | mark sign =>
    obtain ⟨c, cs, htext, -⟩ := sign.exists_spelling
    exact ⟨c, cs, htext, htext, Piece.leading_mark htext⟩

theorem split_spelling (h : Vocabulary.written.Admits terminal) {rest : List Char} (hrest : terminal.EndsBefore rest) :
    Piece.split (terminal.spelling.toList ++ rest) = terminal.piece :: Piece.split rest := by
  obtain ⟨c, cs, hspelling, htext, hleading⟩ := exists_spelling h
  rw [hspelling, ← htext]
  exact Piece.split_append htext (hleading hrest)

/-- The piece of a terminal that can be written stands for that terminal. -/
theorem terminal?_piece (h : Vocabulary.written.Admits terminal) : terminal.piece.terminal? = some terminal := by
  cases terminal with
  | identifier name =>
    simp [piece, Piece.terminal?, ofWord, ofSpelling?_of_isName h]
  | integer value =>
    obtain ⟨n, rfl⟩ := Int.eq_ofNat_of_zero_le h.1
    have hmax : n ≤ maxInteger := Int.ofNat_le.1 h.2
    simp [piece, Piece.terminal?, Piece.decimalValue, Nat.ofDigitChars_ten_toDigits, hmax]
  | keyword word => simp [piece, Piece.terminal?, ofWord, Keyword.ofSpelling?_spelling]
  | mark sign => rfl

theorem problems_piece (h : Vocabulary.written.Admits terminal) (policy : DecimalPolicy) :
    terminal.piece.problems policy = [] := by
  cases terminal with
  | integer value =>
    obtain ⟨n, rfl⟩ := Int.eq_ofNat_of_zero_le h.1
    have hmax : n ≤ maxInteger := Int.ofNat_le.1 h.2
    simp [piece, Piece.problems, Piece.decimalValue, Nat.ofDigitChars_ten_toDigits, hmax]
  | identifier | keyword | mark => rfl

end Terminal

namespace Piece

/-- Terminals with blanks between them fall apart into their pieces. -/
theorem split_spellings {terminals : List Terminal}
    (h : ∀ terminal ∈ terminals, Vocabulary.written.Admits terminal) :
    split (" ".intercalate (terminals.map Terminal.spelling)).toList =
      (terminals.map Terminal.piece).intersperse (.blank ' ') := by
  induction terminals with
  | nil => simp [split]
  | cons terminal terminals ih =>
    simp only [List.forall_mem_cons] at h
    cases terminals with
    | nil =>
      have hends : terminal.EndsBefore [] := terminal.endsBefore_of_blank (by simp)
      have hsplit := Terminal.split_spelling h.1 hends
      simpa [split] using hsplit
    | cons other terminals =>
      have hothers := ih h.2
      have htext : (" ".intercalate ((terminal :: other :: terminals).map Terminal.spelling)).toList =
          terminal.spelling.toList ++
            ' ' :: (" ".intercalate ((other :: terminals).map Terminal.spelling)).toList := by
        rw [List.map_cons, List.map_cons, String.intercalate_cons_cons, String.toList_append, String.toList_append,
          List.append_assoc]
        rfl
      rw [htext, Terminal.split_spelling h.1 (terminal.endsBefore_of_blank (by simp [isBlank])), split_blank rfl, hothers]
      rfl

/-- The lexemes of placed pieces are what the pieces stand for. -/
theorem terminals_place (loc : Location) (pieces : List Piece) :
    ((place loc pieces).filterMap Placed.lexeme?).map Lexeme.terminal = pieces.filterMap terminal? := by
  induction pieces generalizing loc with
  | nil => rfl
  | cons piece pieces ih =>
    cases hterminal : piece.terminal? with
    | none => simp [place, Placed.lexeme?, hterminal, ih]
    | some terminal => simp [place, Placed.lexeme?, hterminal, ih]

theorem errors_place {policy : DecimalPolicy} {pieces : List Piece}
    (h : ∀ piece ∈ pieces, piece.problems policy = []) (loc : Location) :
    (place loc pieces).flatMap (Placed.errors policy) = [] := by
  induction pieces generalizing loc with
  | nil => rfl
  | cons piece pieces ih =>
    simp only [List.forall_mem_cons] at h
    simp [place, Placed.errors, h.1, ih h.2]

theorem terminals_intersperse {terminals : List Terminal}
    (h : ∀ terminal ∈ terminals, Vocabulary.written.Admits terminal) :
    ((terminals.map Terminal.piece).intersperse (.blank ' ')).filterMap terminal? = terminals := by
  induction terminals with
  | nil => rfl
  | cons terminal terminals ih =>
    simp only [List.forall_mem_cons] at h
    have hterminal := Terminal.terminal?_piece h.1
    cases terminals with
    | nil => simp [hterminal]
    | cons other terminals =>
      have hothers := ih h.2
      rw [List.map_cons, List.map_cons, List.intersperse_cons_cons, List.filterMap_cons_some hterminal,
        List.filterMap_cons_none rfl]
      exact congrArg (List.cons terminal) hothers

theorem problems_intersperse {terminals : List Terminal} (policy : DecimalPolicy)
    (h : ∀ terminal ∈ terminals, Vocabulary.written.Admits terminal) :
    ∀ piece ∈ (terminals.map Terminal.piece).intersperse (.blank ' '), piece.problems policy = [] := by
  induction terminals with
  | nil => simp
  | cons terminal terminals ih =>
    simp only [List.forall_mem_cons] at h
    have hterminal := Terminal.problems_piece h.1 policy
    cases terminals with
    | nil => simpa using hterminal
    | cons other terminals =>
      rw [List.map_cons, List.map_cons, List.intersperse_cons_cons, List.forall_mem_cons, List.forall_mem_cons]
      exact ⟨hterminal, rfl, ih h.2⟩

/-! ## What is scanned can be written -/

theorem admits_of_leading {c : Char} {cs : List Char} {terminal : Terminal}
    (h : (leading c cs).terminal? = some terminal) : Vocabulary.written.Admits terminal := by
  have hleads := leads_leading c cs
  generalize leading c cs = piece at h hleads
  cases hleads with
  | blank | illegal => cases h
  | word hstart =>
    cases h
    unfold Terminal.ofWord
    split
    · trivial
    · next hname =>
      have hword : (c :: cs).takeWhile isWordChar = c :: cs.takeWhile isWordChar := by
        simp [isWordChar_of_isWordStart hstart]
      rw [hword] at hname ⊢
      show isName (String.ofList (c :: cs.takeWhile isWordChar)) = true
      simp only [isName, String.toList_ofList, hstart, hname, Option.isNone_none, List.all_takeWhile, Bool.and_true]
  | number =>
    cases h
    exact ⟨Int.natCast_nonneg _, Int.ofNat_le.2 (Nat.min_le_right _ _)⟩
  | mark =>
    cases h
    trivial

end Piece

namespace Scan

/-- What is scanned can be written. -/
theorem admits_lexemes (policy : DecimalPolicy) (source : String) :
    ∀ lexeme ∈ (of policy source).lexemes, Vocabulary.written.Admits lexeme.terminal := by
  intro lexeme hmem
  have hterminal : lexeme.terminal ∈ (Piece.split source.toList).filterMap Piece.terminal? := by
    rw [← Piece.terminals_place .start]
    exact List.mem_map_of_mem hmem
  obtain ⟨piece, hpiece, hterminal⟩ := List.mem_filterMap.1 hterminal
  obtain ⟨c, cs, rfl⟩ := Piece.exists_leading_of_mem_split hpiece
  exact Piece.admits_of_leading hterminal

/-- What can be written is scanned without errors. -/
theorem of_spellings {terminals : List Terminal} (policy : DecimalPolicy)
    (h : ∀ terminal ∈ terminals, Vocabulary.written.Admits terminal) :
    (of policy (" ".intercalate (terminals.map Terminal.spelling))).lexemes.map Lexeme.terminal = terminals ∧
      (of policy (" ".intercalate (terminals.map Terminal.spelling))).errors = [] := by
  unfold of
  rw [Piece.split_spellings h]
  constructor
  · rw [Piece.terminals_place, Piece.terminals_intersperse h]
  · exact Piece.errors_place (Piece.problems_intersperse policy h) _

end Scan

end RoutineSpec
