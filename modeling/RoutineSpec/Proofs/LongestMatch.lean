import Mathlib.Data.List.DropRight
import RoutineSpec.Proofs.Spelling

/-! # The longest match

What the lexemes of a text are can be said without a way to find them: each is the longest one at its start, and
between them there are blanks and characters at which no lexeme starts. There is one way to cut a text like this, and
scanning finds it.
-/

namespace RoutineSpec

/-- The place behind a text: its line counts the line feeds, its column the characters behind the last of them. -/
def Location.behind (text : List Char) : Location :=
  ⟨1 + text.count '\n', 1 + (text.rtakeWhile (· ≠ '\n')).length⟩

theorem Location.past_start (text : List Char) : start.past text = behind text := by
  induction text using List.reverseRecOn with
  | nil => rfl
  | append_singleton text c ih =>
    rw [past_append, ih]
    by_cases hfeed : c = '\n'
    · subst hfeed
      simp [after, behind, Nat.add_assoc]
    · simp [after, behind, hfeed, Nat.add_assoc]

/-- The texts of a terminal. A word is a name unless it is reserved, and a number is read as the integer before its
    dots, or as the largest one. -/
inductive Terminal.Spells : Terminal → List Char → Prop where
  | keyword {word} : Spells (.keyword word) word.spelling.toList
  | identifier {text} : IsWord text → (∀ word : Keyword, text ≠ word.spelling.toList) →
      Spells (.identifier (String.ofList text)) text
  | integer {digits dots fraction} : IsNumber digits dots fraction →
      Spells (.integer (min (Piece.decimalValue digits) maxInteger : Nat)) (digits ++ dots ++ fraction)
  | mark {sign} : Spells (.mark sign) sign.spelling.toList

/-- The text of some terminal. -/
def IsLexeme (text : List Char) : Prop :=
  ∃ terminal : Terminal, terminal.Spells text

/-- The text, which stands behind `before`, is cut into blanks, lexemes and strays. A lexeme is the longest one at its
    start, and no lexeme starts at a stray. -/
inductive Cut : (before text : List Char) → List Lexeme → List LexicalError → Prop where
  | done {before} : Cut before [] [] []
  | blank {before c rest lexemes strays} : isBlank c = true → Cut (before ++ [c]) rest lexemes strays →
      Cut before (c :: rest) lexemes strays
  | lexeme {before terminal text rest lexemes strays} : Terminal.Spells terminal text →
      (∀ longer, IsLexeme longer → longer <+: text ++ rest → longer.length ≤ text.length) →
      Cut (before ++ text) rest lexemes strays →
      Cut before (text ++ rest) (⟨terminal, .behind before⟩ :: lexemes) strays
  | stray {before c rest lexemes strays} : isBlank c = false → (∀ text, text <+: c :: rest → ¬ IsLexeme text) →
      Cut (before ++ [c]) rest lexemes strays →
      Cut before (c :: rest) lexemes (⟨.illegalCharacter c, .behind before⟩ :: strays)

namespace Piece

variable {c : Char} {cs : List Char}

/-! ## The first piece of a text is its longest lexeme -/

theorem isNumber_leadingNumber {text : List Char} (h : text.takeWhile Char.isDigit ≠ []) :
    IsNumber (text.takeWhile Char.isDigit) ((text.dropWhile Char.isDigit).takeWhile isDot)
      (((text.dropWhile Char.isDigit).dropWhile isDot).takeWhile Char.isDigit) where
  nonempty := h
  integral := List.all_eq_true.1 List.all_takeWhile
  dotted := List.all_eq_true.1 List.all_takeWhile
  fractional := List.all_eq_true.1 List.all_takeWhile
  dotless hdots := by
    cases hrest : text.dropWhile Char.isDigit with
    | nil => rfl
    | cons d ds =>
      have hdigit : d.isDigit = false := by
        have := List.head?_dropWhile_not Char.isDigit text
        simpa [hrest] using this
      cases hdot : isDot d with
      | true => simp [hrest, hdot] at hdots
      | false => simp [hdot, hdigit]

variable {piece : Piece}

/-- The first piece is a text of the terminal that it stands for. -/
theorem Leads.spells (h : Leads c cs piece) {terminal : Terminal} (hterminal : piece.terminal? = some terminal) :
    terminal.Spells piece.text := by
  cases h with
  | blank | illegal => cases hterminal
  | word hstart =>
    cases hterminal
    have hword : IsWord ((c :: cs).takeWhile isWordChar) := by
      rw [List.takeWhile_cons_of_pos (isWordChar_of_isWordStart hstart)]
      exact .cons hstart (List.all_eq_true.1 List.all_takeWhile)
    simp only [text]
    generalize (c :: cs).takeWhile isWordChar = run at hword ⊢
    unfold Terminal.ofWord
    split
    · next word hreserved =>
      rw [← String.toList_ofList (l := run), Keyword.ofSpelling?_eq_some_iff.1 hreserved]
      exact .keyword
    · next hname =>
      refine .identifier hword fun word hrun => ?_
      rw [hrun, String.ofList_toList, Keyword.ofSpelling?_spelling] at hname
      cases hname
  | number hdigit =>
    cases hterminal
    exact .integer (isNumber_leadingNumber (by simp [hdigit]))
  | mark =>
    cases hterminal
    exact .mark

theorem length_le_leadingNumber {digits dots fraction : List Char} (h : IsNumber digits dots fraction)
    (more : List Char) :
    (digits ++ dots ++ fraction).length ≤ (leadingNumber (digits ++ dots ++ fraction ++ more)).text.length := by
  obtain ⟨-, hdigits, hdots, hfraction, hdotless⟩ := h
  simp only [List.append_assoc, leadingNumber, text]
  cases dots with
  | nil =>
    rw [hdotless rfl]
    simp only [List.nil_append, List.append_nil, List.takeWhile_append_of_pos hdigits, List.length_append]
    omega
  | cons dot dots =>
    have hbehindDigits : ∀ c ∈ ((dot :: dots) ++ (fraction ++ more)).head?, c.isDigit = false := by
      rintro _ ⟨⟩
      exact isDigit_of_isDot (hdots _ List.mem_cons_self)
    rw [takeWhile_append_of_head hdigits hbehindDigits, dropWhile_append_of_head hdigits hbehindDigits]
    cases fraction with
    | nil =>
      simp only [List.takeWhile_append_of_pos hdots, List.nil_append, List.length_append, List.length_nil]
      omega
    | cons d fraction =>
      have hbehindDots : ∀ c ∈ ((d :: fraction) ++ more).head?, isDot c = false := by
        rintro _ ⟨⟩
        exact isDot_of_isDigit (hfraction _ List.mem_cons_self)
      rw [takeWhile_append_of_head hdots hbehindDots, dropWhile_append_of_head hdots hbehindDots,
        List.takeWhile_append_of_pos hfraction]
      simp only [List.length_append]
      omega

end Piece

/-- The first mark of a text is the longest one at its start. -/
theorem Mark.exists_leading? {sign : Mark} {text : List Char} (h : sign.spelling.toList <+: text) :
    ∃ longer, leading? text = some longer ∧ sign.spelling.toList.length ≤ longer.spelling.toList.length := by
  obtain ⟨rest, rfl⟩ := h
  rcases sign.spelling_cases with ⟨a, hsign⟩ | ⟨a, b, hsign⟩
  · have hshort := ofSpelling?_ofList hsign
    rw [hsign]
    cases rest with
    | nil => exact ⟨sign, hshort, by rw [hsign]⟩
    | cons c rest =>
      cases hlong : ofSpelling? (String.ofList [a, c]) with
      | none => exact ⟨sign, by rw [List.singleton_append, leading?, hlong, hshort]; rfl, by rw [hsign]⟩
      | some longer =>
        exact ⟨longer, by rw [List.singleton_append, leading?, hlong]; rfl,
          by simp [spelling_toList_of_ofSpelling? hlong]⟩
  · have hlong := ofSpelling?_ofList hsign
    exact ⟨sign, by rw [hsign, List.cons_append, List.singleton_append, leading?, hlong]; rfl, le_refl _⟩

namespace Terminal

variable {terminal other : Terminal} {text : List Char} {c : Char} {cs : List Char}

/-- A text of a terminal is the first piece of itself. -/
theorem Spells.terminal?_leading (h : terminal.Spells (c :: cs)) :
    (Piece.leading c cs).terminal? = some terminal := by
  rw [← List.append_nil cs]
  generalize htext : c :: cs = text at h
  cases h with
  | @keyword word =>
    have hword := isWord_of_keyword word
    rw [← htext] at hword
    rw [Piece.leading_word hword (by simp), Piece.terminal?, ofWord, htext, String.ofList_toList,
      Keyword.ofSpelling?_spelling]
  | identifier hword hname =>
    subst htext
    have hnone : Keyword.ofSpelling? (String.ofList (c :: cs)) = none := by
      refine Option.eq_none_iff_forall_ne_some.2 fun word hreserved => hname word ?_
      rw [← Keyword.ofSpelling?_eq_some_iff.1 hreserved, String.toList_ofList]
    rw [Piece.leading_word hword (by simp), Piece.terminal?, ofWord, hnone]
  | integer hnumber =>
    obtain ⟨d, ds, rfl⟩ := List.exists_cons_of_ne_nil hnumber.nonempty
    rw [List.cons_append, List.cons_append] at htext
    cases htext
    rw [Piece.leading_number hnumber (by simp)]
    rfl
  | mark =>
    rw [Piece.leading_mark htext.symm (by simp)]
    rfl

theorem Spells.ne_nil (h : terminal.Spells text) : text ≠ [] := by
  cases h with
  | @keyword word =>
    intro hnil
    have hword := isWord_of_keyword word
    rw [hnil] at hword
    cases hword
  | identifier hword =>
    rintro rfl
    cases hword
  | integer hnumber => simp [hnumber.nonempty]
  | mark => exact Mark.spelling_toList_ne_nil _

/-- A text is one of one terminal. -/
theorem Spells.unique (h : terminal.Spells text) (h' : other.Spells text) : terminal = other := by
  obtain ⟨c, cs, rfl⟩ := List.exists_cons_of_ne_nil h.ne_nil
  exact Option.some.inj (h.terminal?_leading.symm.trans h'.terminal?_leading)

end Terminal

namespace Piece

variable {terminal : Terminal} {piece : Piece} {c : Char} {cs text : List Char}

theorem length_le_leading_of_isWord (h : IsWord text) (hbegins : text <+: c :: cs) :
    (∃ longest, (leading c cs).terminal? = some longest) ∧ text.length ≤ (leading c cs).text.length := by
  obtain ⟨rest, hrest⟩ := hbegins
  have htake : (c :: cs).takeWhile isWordChar = text ++ rest.takeWhile isWordChar := by
    rw [← hrest, List.takeWhile_append_of_pos h.all]
  cases h with
  | cons hstart =>
    cases hrest
    rw [leading_of_isWordStart hstart, Piece.text, htake]
    exact ⟨⟨_, rfl⟩, by simp⟩

/-- Where a lexeme starts, the first piece stands for a terminal and is no shorter. -/
theorem length_le_leading (h : terminal.Spells text) (hbegins : text <+: c :: cs) :
    (∃ longest, (leading c cs).terminal? = some longest) ∧ text.length ≤ (leading c cs).text.length := by
  cases h with
  | @keyword word => exact length_le_leading_of_isWord (Terminal.isWord_of_keyword word) hbegins
  | identifier hword => exact length_le_leading_of_isWord hword hbegins
  | integer hnumber =>
    obtain ⟨rest, hrest⟩ := hbegins
    have hlength := length_le_leadingNumber hnumber rest
    obtain ⟨d, ds, rfl⟩ := List.exists_cons_of_ne_nil hnumber.nonempty
    rw [hrest] at hlength
    cases hrest
    rw [leading_of_isDigit (hnumber.integral _ List.mem_cons_self)]
    exact ⟨⟨_, rfl⟩, hlength⟩
  | mark =>
    obtain ⟨longer, hlonger, hlength⟩ := Mark.exists_leading? hbegins
    rw [leading_of_leading? hlonger]
    exact ⟨⟨_, rfl⟩, hlength⟩

/-- The longest lexeme at the start of a text is its first piece. -/
theorem leading_of_longest {rest : List Char} (h : terminal.Spells (c :: cs))
    (hlongest : ∀ longer, IsLexeme longer → longer <+: c :: cs ++ rest → longer.length ≤ (c :: cs).length) :
    (leading c (cs ++ rest)).terminal? = some terminal ∧ (leading c (cs ++ rest)).text = c :: cs := by
  have hstart : c :: cs <+: c :: (cs ++ rest) := ⟨rest, rfl⟩
  obtain ⟨⟨longest, hterminal⟩, hlength⟩ := length_le_leading h hstart
  have hspells := (leads_leading c (cs ++ rest)).spells hterminal
  have hbegins := text_leading_isPrefix c (cs ++ rest)
  have hshort := List.prefix_of_prefix_length_le hbegins hstart (hlongest _ ⟨longest, hspells⟩ hbegins)
  have htext : (leading c (cs ++ rest)).text = c :: cs := hshort.eq_of_length_le hlength
  rw [htext] at hspells
  exact ⟨by rw [hterminal, h.unique hspells], htext⟩

theorem Leads.blank_or_illegal (h : Leads c cs piece) (hnone : piece.terminal? = none) :
    isBlank c = true ∧ piece = .blank c ∨ isBlank c = false ∧ piece = .illegal c := by
  cases h with
  | blank hblank => exact .inl ⟨hblank, rfl⟩
  | illegal hblank => exact .inr ⟨hblank, rfl⟩
  | word | number | mark => cases hnone

/-- No lexeme starts where the first piece stands for nothing. -/
theorem not_isLexeme_of_leading (hnone : (leading c cs).terminal? = none) (hbegins : text <+: c :: cs) :
    ¬ IsLexeme text := by
  rintro ⟨terminal, h⟩
  obtain ⟨⟨longest, hlongest⟩, -⟩ := length_le_leading h hbegins
  rw [hnone] at hlongest
  cases hlongest

/-- Where no lexeme starts and no blank stands, the first piece is an illegal character. -/
theorem leading_of_not_isLexeme {rest : List Char} (hblank : isBlank c = false)
    (hnone : ∀ text, text <+: c :: rest → ¬ IsLexeme text) : leading c rest = .illegal c := by
  have hterminal : (leading c rest).terminal? = none := by
    refine Option.eq_none_iff_forall_ne_some.2 fun terminal hterminal => ?_
    exact hnone _ (text_leading_isPrefix c rest) ⟨terminal, (leads_leading c rest).spells hterminal⟩
  rcases (leads_leading c rest).blank_or_illegal hterminal with ⟨hblank', -⟩ | ⟨-, hpiece⟩
  · rw [hblank] at hblank'
    cases hblank'
  · exact hpiece

end Piece

/-! ## Scanning cuts a text -/

def LexicalProblem.isIllegalCharacter : LexicalProblem → Bool
  | .illegalCharacter _ => true
  | .decimalLiteral _ | .integerOverflow _ => false

theorem Location.past_behind (before text : List Char) : (behind before).past text = behind (before ++ text) := by
  rw [← past_start, ← past_start, past_append]

namespace Piece

/-- The illegal characters among placed pieces. -/
def strays (policy : DecimalPolicy) (placed : List Placed) : List LexicalError :=
  (placed.flatMap (Placed.errors policy)).filter (·.problem.isIllegalCharacter)

variable {policy : DecimalPolicy} {piece : Piece} {loc : Location} {placed : List Placed}

theorem strays_cons_of_terminal? {terminal : Terminal} (h : piece.terminal? = some terminal) :
    strays policy (⟨piece, loc⟩ :: placed) = strays policy placed := by
  cases piece with
  | blank | illegal => cases h
  | word | mark => rfl
  | number =>
    simp only [strays, List.flatMap_cons, List.filter_append, Placed.errors, problems, List.map_append]
    split <;> split <;> rfl

theorem lexemes_cons_of_terminal? {terminal : Terminal} (h : piece.terminal? = some terminal) :
    (⟨piece, loc⟩ :: placed : List Placed).filterMap Placed.lexeme? =
      ⟨terminal, loc⟩ :: placed.filterMap Placed.lexeme? :=
  List.filterMap_cons_some (by simp [Placed.lexeme?, h])

/-- The pieces of a text are a cut of it. -/
theorem cut_split (policy : DecimalPolicy) (before text : List Char) :
    let placed := place (.behind before) (split text)
    Cut before text (placed.filterMap Placed.lexeme?) (strays policy placed) := by
  fun_induction split text generalizing before with
  | case1 => exact .done
  | case2 c cs ih =>
    have ih := ih (before ++ (leading c cs).text)
    simp only [place, Location.past_behind]
    cases hterminal : (leading c cs).terminal? with
    | some terminal =>
      rw [lexemes_cons_of_terminal? hterminal, strays_cons_of_terminal? hterminal]
      have hrest := text_leading_append_drop c cs
      generalize (c :: cs).drop (leading c cs).text.length = rest at ih hrest ⊢
      have hcut := Cut.lexeme ((leads_leading c cs).spells hterminal) ?_ ih
      · rwa [hrest] at hcut
      · rintro longer ⟨other, hother⟩ hbegins
        rw [hrest] at hbegins
        exact (length_le_leading hother hbegins).2
    | none =>
      rcases (leads_leading c cs).blank_or_illegal hterminal with ⟨hblank, hpiece⟩ | ⟨hblank, hpiece⟩
      · rw [hpiece] at ih ⊢
        exact .blank hblank ih
      · rw [hpiece] at ih ⊢
        exact .stray hblank (fun _ hbegins => not_isLexeme_of_leading hterminal hbegins) ih

end Piece

/-- There is one cut of a text. -/
theorem Cut.eq_split (policy : DecimalPolicy) {before text : List Char} {lexemes : List Lexeme}
    {strays : List LexicalError} (h : Cut before text lexemes strays) :
    let placed := Piece.place (.behind before) (Piece.split text)
    lexemes = placed.filterMap Piece.Placed.lexeme? ∧ strays = Piece.strays policy placed := by
  induction h with
  | done =>
    rw [Piece.split]
    exact ⟨rfl, rfl⟩
  | blank hblank _ ih =>
    simp only [Piece.split_blank hblank, Piece.place, Location.past_behind]
    exact ih
  | @lexeme before terminal text rest lexemes strays hspells hlongest _ ih =>
    obtain ⟨c, cs, rfl⟩ := List.exists_cons_of_ne_nil hspells.ne_nil
    obtain ⟨hterminal, htext⟩ := Piece.leading_of_longest hspells hlongest
    have hsplit := Piece.split_append htext rfl
    rw [htext] at hsplit
    simp only [hsplit, Piece.place, Location.past_behind, htext, Piece.lexemes_cons_of_terminal? hterminal,
      Piece.strays_cons_of_terminal? hterminal]
    exact ⟨congrArg _ ih.1, ih.2⟩
  | @stray before c rest lexemes strays hblank hnone _ ih =>
    simp only [Piece.split, Piece.leading_of_not_isLexeme hblank hnone, Piece.place, Location.past_behind]
    exact ⟨ih.1, congrArg (List.cons _) ih.2⟩

namespace Scan

/-- Scanning cuts a text in the one way there is: its lexemes are those of the cut, its illegal characters the strays,
    and the end of input stands behind the whole text. -/
theorem cut_iff (policy : DecimalPolicy) (source : String) :
    let scan := of policy source
    (∀ lexemes strays, Cut [] source.toList lexemes strays ↔
      lexemes = scan.lexemes ∧ strays = scan.errors.filter (·.problem.isIllegalCharacter)) ∧
    scan.tokens = scan.lexemes.map .lexeme ++ [.endOfInput (.behind source.toList)] := by
  intro scan
  refine ⟨fun lexemes strays => ⟨fun h => h.eq_split policy, ?_⟩, ?_⟩
  · rintro ⟨rfl, rfl⟩
    exact Piece.cut_split policy [] source.toList
  · rw [tokens, ← Location.past_start]
    rfl

end Scan

end RoutineSpec
