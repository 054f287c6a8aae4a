import RoutineSpec.Proofs.LongestMatch

/-! # Separators

Terminals that are written one behind the other are scanned as they are, with any blanks between them. The blanks can
be left out, unless the two terminals at their sides would merge.
-/

namespace RoutineSpec

namespace Terminal

/-- A name or a reserved word. -/
def isWord : Terminal → Bool
  | .identifier _ | .keyword _ => true
  | .integer _ | .mark _ => false

def isInteger : Terminal → Bool
  | .integer _ => true
  | .identifier _ | .keyword _ | .mark _ => false

/-- The two terminals need a blank between them: the first one goes on in the text of the second. -/
def Merges (left right : Terminal) : Prop :=
  left.isWord ∧ (right.isWord ∨ right.isInteger) ∨
    left.isInteger ∧ right.isInteger ∨
    left ∈ [.mark .equal, .mark .bang, .mark .less, .mark .greater] ∧ right ∈ [.mark .equal, .mark .equalEqual] ∨
    left = .mark .pipe ∧ right ∈ [.mark .pipe, .mark .orOr]

instance (left right : Terminal) : Decidable (left.Merges right) :=
  inferInstanceAs (Decidable (_ ∨ _))

end Terminal

/-- The marks that a further character makes longer. -/
theorem Mark.eq_of_longer {longer sign : Mark} {c : Char}
    (h : longer.spelling.toList = sign.spelling.toList ++ [c]) :
    sign ∈ [equal, bang, less, greater] ∧ c = '=' ∨ sign = pipe ∧ c = '|' := by
  have hshort : longer.spelling.toList.dropLast = sign.spelling.toList := by
    rw [h, List.dropLast_concat]
  have hlast : longer.spelling.toList.getLast? = some c := by
    rw [h, List.getLast?_concat]
  have hsign := ofSpelling?_ofList hshort.symm
  cases longer with
  | equalEqual | notEqual | lessEqual | greaterEqual =>
    cases hsign
    have hc : '=' = c := by simpa [spelling] using hlast
    exact .inl ⟨by decide, hc.symm⟩
  | orOr =>
    cases hsign
    have hc : '|' = c := by simpa [spelling] using hlast
    exact .inr ⟨rfl, hc.symm⟩
  | _ => cases hsign

/-- Where the first character of a mark makes the one before it longer, the two merge. -/
theorem Mark.merges_of_longer {longer sign other : Mark} {c : Char} {cs : List Char}
    (hlonger : longer.spelling.toList = sign.spelling.toList ++ [c]) (hother : other.spelling.toList = c :: cs) :
    (Terminal.mark sign).Merges (.mark other) := by
  rcases eq_of_longer hlonger with ⟨hsign, rfl⟩ | ⟨rfl, rfl⟩
  · have hother : other = equal ∨ other = equalEqual := by
      cases other <;> simp [spelling] at hother ⊢
    refine .inr (.inr (.inl ⟨?_, ?_⟩))
    · simpa using hsign
    · simpa using hother
  · have hother : other = pipe ∨ other = orOr := by
      cases other <;> simp [spelling] at hother ⊢
    exact .inr (.inr (.inr ⟨rfl, by simpa using hother⟩))

namespace Terminal

variable {left right : Terminal}

/-- How the text of a terminal starts. -/
theorem exists_start (h : Vocabulary.written.Admits terminal) :
    ∃ c cs, terminal.spelling.toList = c :: cs ∧
      match terminal with
      | .identifier _ | .keyword _ => isWordStart c = true
      | .integer _ => c.isDigit = true
      | .mark _ => isWordChar c = false ∧ isDot c = false := by
  cases terminal with
  | identifier name =>
    have hword := isWord_of_isName h
    generalize htext : name.toList = text at hword
    cases hword with
    | cons hstart => exact ⟨_, _, htext, hstart⟩
  | keyword word =>
    have hword := isWord_of_keyword word
    generalize htext : word.spelling.toList = text at hword
    cases hword with
    | cons hstart => exact ⟨_, _, htext, hstart⟩
  | integer value =>
    obtain ⟨n, rfl⟩ := Int.eq_ofNat_of_zero_le h.1
    have hnumber := isNumber_toDigits n
    obtain ⟨c, cs, hdigits⟩ := List.exists_cons_of_ne_nil hnumber.nonempty
    rw [hdigits] at hnumber
    exact ⟨c, cs, by rw [spelling_natCast, hdigits], hnumber.integral c List.mem_cons_self⟩
  | mark sign =>
    obtain ⟨c, cs, htext⟩ := List.exists_cons_of_ne_nil sign.spelling_toList_ne_nil
    exact ⟨c, cs, htext, (sign.other_of_mem (by simp [htext])).2⟩

/-- A terminal ends where one follows with which it does not merge. -/
theorem endsBefore_of_not_merges (hright : Vocabulary.written.Admits right) (h : ¬ left.Merges right)
    (more : List Char) : left.EndsBefore (right.spelling.toList ++ more) := by
  obtain ⟨c, cs, htext, hstart⟩ := exists_start hright
  have hhead : (right.spelling.toList ++ more).head? = some c := by rw [htext]; rfl
  unfold EndsBefore
  rw [hhead]
  cases left with
  | identifier | keyword =>
    rintro _ ⟨⟩
    cases right with
    | mark => exact hstart.1
    | identifier | keyword => exact absurd (.inl ⟨rfl, .inl rfl⟩) h
    | integer => exact absurd (.inl ⟨rfl, .inr rfl⟩) h
  | integer =>
    rintro _ ⟨⟩
    cases right with
    | identifier | keyword => exact ⟨isDigit_of_isWordStart hstart, isDot_of_isWordStart hstart⟩
    | mark => exact ⟨isDigit_of_not_isWordChar hstart.1, hstart.2⟩
    | integer => exact absurd (.inr (.inl ⟨rfl, rfl⟩)) h
  | mark sign =>
    rintro _ ⟨⟩ longer hlonger
    have hmark : isWordChar c = false := (longer.other_of_mem (by simp [hlonger])).2.1
    cases right with
    | mark => exact h (Mark.merges_of_longer hlonger htext)
    | identifier | keyword =>
      rw [isWordChar_of_isWordStart hstart] at hmark
      cases hmark
    | integer =>
      rw [isWordChar_of_isDigit hstart] at hmark
      cases hmark

end Terminal

/-- A terminal that can be written, and the blanks behind it. -/
structure Spaced where
  terminal : Terminal
  blanks : List Char
  admits : Vocabulary.written.Admits terminal
  isBlank : ∀ c ∈ blanks, isBlank c = true

namespace Spaced

/-- What is written of it. -/
def text (item : Spaced) : List Char :=
  item.terminal.spelling.toList ++ item.blanks

/-- The pieces of its text. -/
def pieces (item : Spaced) : List Piece :=
  item.terminal.piece :: item.blanks.map .blank

/-- There are blanks between the two, or they need none. -/
def Apart (left right : Spaced) : Prop :=
  left.blanks = [] → ¬ left.terminal.Merges right.terminal

instance (left right : Spaced) : Decidable (left.Apart right) :=
  inferInstanceAs (Decidable (_ → _))

theorem text_piece (item : Spaced) : item.terminal.piece.text = item.terminal.spelling.toList := by
  obtain ⟨c, cs, hspelling, htext, -⟩ := Terminal.exists_spelling item.admits
  rw [hspelling, htext]

theorem problems_pieces (item : Spaced) (policy : DecimalPolicy) :
    ∀ piece ∈ item.pieces, piece.problems policy = [] := by
  refine List.forall_mem_cons.2 ⟨Terminal.problems_piece item.admits policy, fun piece hmem => ?_⟩
  obtain ⟨c, -, rfl⟩ := List.mem_map.1 hmem
  rfl

variable {items : List Spaced}

/-- A terminal ends in front of its blanks, or of what stands apart from it. -/
theorem endsBefore {item : Spaced} (h : (item :: items).IsChain Apart) :
    item.terminal.EndsBefore (item.blanks ++ items.flatMap text) := by
  cases hblanks : item.blanks with
  | cons c blanks =>
    refine item.terminal.endsBefore_of_blank ?_
    rintro _ ⟨⟩
    exact item.isBlank c (by simp [hblanks])
  | nil =>
    cases items with
    | nil => exact item.terminal.endsBefore_of_blank (by simp)
    | cons other items =>
      have hmerge := (List.isChain_cons_cons.1 h).1 hblanks
      rw [List.nil_append, List.flatMap_cons, text, List.append_assoc]
      exact Terminal.endsBefore_of_not_merges other.admits hmerge _

end Spaced

namespace Piece

variable {blanks : List Char} {items : List Spaced}

theorem split_blanks (h : ∀ c ∈ blanks, isBlank c = true) (rest : List Char) :
    split (blanks ++ rest) = blanks.map .blank ++ split rest := by
  induction blanks with
  | nil => rfl
  | cons c blanks ih =>
    rw [List.forall_mem_cons] at h
    rw [List.cons_append, split_blank h.1, ih h.2]
    rfl

/-- Where all neighbours stand apart, each terminal is a piece of its own. -/
theorem split_spaced (h : items.IsChain Spaced.Apart) :
    split (items.flatMap Spaced.text) = items.flatMap Spaced.pieces := by
  induction items with
  | nil => simp [split]
  | cons item items ih =>
    rw [List.flatMap_cons, List.flatMap_cons, Spaced.text, List.append_assoc,
      Terminal.split_spelling item.admits (Spaced.endsBefore h), split_blanks item.isBlank, ih h.of_cons]
    rfl

/-- Blanks move the lexemes behind them, and are none. -/
theorem lexemes_blanks (before blanks : List Char) (pieces : List Piece) :
    (place (.behind before) (blanks.map .blank ++ pieces)).filterMap Placed.lexeme? =
      (place (.behind (before ++ blanks)) pieces).filterMap Placed.lexeme? := by
  induction blanks generalizing before with
  | nil => simp
  | cons c blanks ih =>
    have hmoved := ih (before ++ [c])
    rw [List.append_assoc, List.singleton_append] at hmoved
    rw [List.map_cons, List.cons_append, place, List.filterMap_cons_none rfl, Location.past_behind]
    exact hmoved

/-- Each terminal is a lexeme, behind all that is written in front of it. -/
theorem lexemes_spaced (before : List Char) (items : List Spaced) :
    (place (.behind before) (items.flatMap Spaced.pieces)).filterMap Placed.lexeme? =
      items.mapIdx fun i item => ⟨item.terminal, .behind (before ++ (items.take i).flatMap Spaced.text)⟩ := by
  induction items generalizing before with
  | nil => rfl
  | cons item items ih =>
    have hbehind := ih (before ++ item.text)
    rw [List.flatMap_cons, Spaced.pieces, List.cons_append, place,
      lexemes_cons_of_terminal? (Terminal.terminal?_piece item.admits), Location.past_behind, lexemes_blanks,
      item.text_piece, List.append_assoc, List.mapIdx_cons]
    rw [Spaced.text] at hbehind
    rw [hbehind]
    simp [Spaced.text]

end Piece

namespace Scan

/-- Terminals that are written one behind the other, with blanks wherever two would merge, are scanned without an
    error. Each is a token behind all that is written in front of it, and the end of input stands behind the text. -/
theorem of_spaced (policy : DecimalPolicy) {blanks : List Char} {items : List Spaced}
    (hblanks : ∀ c ∈ blanks, isBlank c = true) (hapart : items.IsChain Spaced.Apart) :
    let text := blanks ++ items.flatMap Spaced.text
    let scan := of policy (String.ofList text)
    scan.errors = [] ∧
      scan.tokens =
        items.mapIdx (fun i item => .of item.terminal (.behind (blanks ++ (items.take i).flatMap Spaced.text))) ++
          [.endOfInput (.behind text)] := by
  intro text scan
  have hsplit : Piece.split (String.ofList text).toList = blanks.map .blank ++ items.flatMap Spaced.pieces := by
    rw [String.toList_ofList, Piece.split_blanks hblanks, Piece.split_spaced hapart]
  have hclean : ∀ piece ∈ blanks.map Piece.blank ++ items.flatMap Spaced.pieces, piece.problems policy = [] := by
    intro piece hmem
    rcases List.mem_append.1 hmem with hmem | hmem
    · obtain ⟨c, -, rfl⟩ := List.mem_map.1 hmem
      rfl
    · obtain ⟨item, -, hmem⟩ := List.mem_flatMap.1 hmem
      exact item.problems_pieces policy piece hmem
  have hlexemes : scan.lexemes = items.mapIdx fun i item =>
      ⟨item.terminal, .behind (blanks ++ (items.take i).flatMap Spaced.text)⟩ := by
    have hmoved := Piece.lexemes_blanks [] blanks (items.flatMap Spaced.pieces)
    rw [Piece.lexemes_spaced, ← hsplit] at hmoved
    exact hmoved
  have hstop : scan.stop = .behind text := by
    rw [← Location.past_start, ← String.toList_ofList (l := text)]
    rfl
  constructor
  · have herrors := Piece.errors_place hclean .start
    rw [← hsplit] at herrors
    exact herrors
  · rw [tokens, hlexemes, hstop, List.mapIdx_eq_zipIdx_map, List.mapIdx_eq_zipIdx_map, List.map_map]
    rfl

/-- A text with one blank, between two marks that would merge. -/
theorem of_spaced_signs :
    let name : isName "a" = true := by decide
    let number : 0 ≤ (1 : Int) ∧ (1 : Int) ≤ maxInteger := by decide
    let items : List Spaced :=
      [⟨.identifier "a", [], name, by simp⟩, ⟨.mark .plus, [], trivial, by simp⟩, ⟨.mark .plus, [], trivial, by simp⟩,
        ⟨.integer 1, [], number, by simp⟩, ⟨.identifier "a", [], name, by simp⟩,
        ⟨.mark .equal, ['\n'], trivial, by simp [isBlank]⟩, ⟨.mark .equalEqual, [], trivial, by simp⟩,
        ⟨.mark .equal, [], trivial, by simp⟩]
    (∀ c ∈ [' '], isBlank c = true) ∧ items.IsChain Spaced.Apart ∧
      (of .reject " a++1a=\n===").errors = [] ∧
      (of .reject " a++1a=\n===").tokens =
        [.of (.identifier "a") ⟨1, 2⟩, .of (.mark .plus) ⟨1, 3⟩, .of (.mark .plus) ⟨1, 4⟩, .of (.integer 1) ⟨1, 5⟩,
          .of (.identifier "a") ⟨1, 6⟩, .of (.mark .equal) ⟨1, 7⟩, .of (.mark .equalEqual) ⟨2, 1⟩,
          .of (.mark .equal) ⟨2, 3⟩, .endOfInput ⟨2, 4⟩] := by
  intro name number items
  have hblanks : ∀ c ∈ [' '], isBlank c = true := by simp [isBlank]
  have hapart : items.IsChain Spaced.Apart := by decide
  have htext : String.ofList ([' '] ++ items.flatMap Spaced.text) = " a++1a=\n===" := by decide
  obtain ⟨herrors, htokens⟩ := of_spaced .reject hblanks hapart
  rw [htext] at herrors htokens
  exact ⟨hblanks, hapart, herrors, htokens.trans (by decide)⟩

end Scan

end RoutineSpec
