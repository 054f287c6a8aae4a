import RoutineSpec.Proofs.Boundaries

/-! # Line breaks

A line break ends what stands in front of it just as the end of the text does. What stands behind it is scanned as if it
were a text of its own, some lines further down. So texts can be scanned apart and put together line by line.
-/

namespace RoutineSpec

/-- The place in the same column, so many lines further down. -/
def Location.down (lines : Nat) (loc : Location) : Location :=
  ⟨loc.line + lines, loc.column⟩

def Lexeme.moved (move : Location → Location) (lexeme : Lexeme) : Lexeme :=
  { lexeme with loc := move lexeme.loc }

def Token.moved (move : Location → Location) : Token → Token
  | .lexeme item => .lexeme (item.moved move)
  | .endOfInput loc => .endOfInput (move loc)

def Piece.Placed.moved (move : Location → Location) (placed : Placed) : Placed :=
  { placed with loc := move placed.loc }

def LexicalError.moved (move : Location → Location) (error : LexicalError) : LexicalError :=
  { error with loc := move error.loc }

namespace Location

theorem after_down (lines : Nat) (loc : Location) (c : Char) : (loc.down lines).after c = (loc.after c).down lines := by
  unfold after
  split
  · simp only [down, Nat.add_right_comm]
  · rfl

theorem past_down (lines : Nat) (loc : Location) (text : List Char) :
    (loc.down lines).past text = (loc.past text).down lines := by
  induction text generalizing loc with
  | nil => rfl
  | cons c text ih => rw [past_cons, past_cons, after_down, ih]

/-- Behind a line break, columns count from one again. -/
theorem past_lineBreak (text : List Char) :
    (start.past text).past ['\n'] = start.down (1 + text.count '\n') := by
  rw [past_cons, past_nil, after, if_pos rfl, past_start]
  simp only [behind, down, start, Nat.add_comm]

end Location

namespace Piece

/-- Pieces that start further down are all of them as much further down. -/
theorem place_down (lines : Nat) (loc : Location) (pieces : List Piece) :
    place (loc.down lines) pieces = (place loc pieces).map (Placed.moved (Location.down lines)) := by
  induction pieces generalizing loc with
  | nil => rfl
  | cons piece pieces ih =>
    rw [place, Location.past_down, ih, place, List.map_cons]
    rfl

theorem place_append (loc : Location) (pieces more : List Piece) :
    place loc (pieces ++ more) = place loc pieces ++ place (loc.past (pieces.flatMap text)) more := by
  induction pieces generalizing loc with
  | nil => rfl
  | cons piece pieces ih =>
    rw [List.cons_append, place, ih, place, List.flatMap_cons, Location.past_append, List.cons_append]

/-- Pieces that are moved stand for the same lexemes, moved as well. -/
theorem lexemes_moved (move : Location → Location) (placed : List Placed) :
    (placed.map (Placed.moved move)).filterMap Placed.lexeme? =
      (placed.filterMap Placed.lexeme?).map (Lexeme.moved move) := by
  rw [List.filterMap_map, List.map_filterMap]
  congr 1
  funext placed
  simp only [Function.comp_apply, Placed.lexeme?, Option.map_map]
  rfl

/-- What is wrong with pieces does not depend on where they stand. -/
theorem errors_moved (policy : DecimalPolicy) (move : Location → Location) (placed : List Placed) :
    (placed.map (Placed.moved move)).flatMap (Placed.errors policy) =
      (placed.flatMap (Placed.errors policy)).map (LexicalError.moved move) := by
  rw [List.flatMap_map, List.map_flatMap]
  congr 1
  funext placed
  simp only [Placed.errors, List.map_map]
  rfl

/-- A blank ends the piece in front of it where the end of the text would. -/
theorem split_append_blank {c : Char} (h : isBlank c = true) (text more : List Char) :
    split (text ++ c :: more) = split text ++ .blank c :: split more := by
  fun_induction split text with
  | case1 => exact split_blank h more
  | case2 d ds ih =>
    have htext := text_leading_append_drop d ds
    generalize (d :: ds).drop (leading d ds).text.length = rest at ih htext
    have hends : EndsLike rest (rest ++ c :: more) := by
      intro e he
      cases rest with
      | nil => exact .inl (by cases he; exact h)
      | cons => exact .inr he
    rw [← htext, List.append_assoc, split_of_endsLike htext rfl hends, ih, List.cons_append]

end Piece

namespace Scan

/-- The scan of two texts with a line break between them is the scan of the first one, without its end, and then that of
    the second one, moved down by all lines that end in front of it. -/
theorem of_lineBreak (policy : DecimalPolicy) (first second : String) :
    let down := Location.down (1 + first.toList.count '\n')
    let scan := of policy (first ++ "\n" ++ second)
    scan.tokens = (of policy first).tokens.dropLast ++ (of policy second).tokens.map (Token.moved down) ∧
      scan.errors = (of policy first).errors ++ (of policy second).errors.map (LexicalError.moved down) := by
  intro down scan
  have htext : (first ++ "\n" ++ second).toList = first.toList ++ '\n' :: second.toList := by simp
  have hlines : (Location.start.past first.toList).past ['\n'] = down .start := Location.past_lineBreak first.toList
  have hplaced : Piece.place .start (Piece.split (first ++ "\n" ++ second).toList) =
      Piece.place .start (Piece.split first.toList) ++ ⟨.blank '\n', Location.start.past first.toList⟩ ::
        (Piece.place .start (Piece.split second.toList)).map (Piece.Placed.moved down) := by
    have hsecond : Piece.place (down .start) (Piece.split second.toList) = _ := Piece.place_down _ .start _
    rw [htext, Piece.split_append_blank rfl, Piece.place_append, Piece.flatMap_text_split, Piece.place, ← hsecond,
      ← hlines]
    rfl
  have hstop : Location.start.past (first ++ "\n" ++ second).toList = down (Location.start.past second.toList) := by
    rw [htext, ← List.singleton_append, Location.past_append, Location.past_append, hlines]
    exact Location.past_down _ .start second.toList
  constructor
  · have hlexemes : scan.lexemes =
        (of policy first).lexemes ++ (of policy second).lexemes.map (Lexeme.moved down) := by
      simp only [scan, of, hplaced, List.filterMap_append, ← Piece.lexemes_moved]
      rfl
    have hend : scan.stop = down (of policy second).stop := hstop
    rw [tokens, tokens, tokens, List.dropLast_concat, hlexemes, hend, List.map_append, List.map_append, List.map_map,
      List.map_map, List.append_assoc]
    rfl
  · simp only [scan, of, hplaced, List.flatMap_append, ← Piece.errors_moved]
    rfl

end Scan

end RoutineSpec
