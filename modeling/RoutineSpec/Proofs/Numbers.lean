import Mathlib.Data.Nat.Digits.Defs
import RoutineSpec.Proofs.Seams

/-! # Numbers

A number is read as the integer in front of its dots, however long it is, or as the largest integer if it is beyond that
one. What is wrong with it is reported with its whole text, and scanning goes on behind it.
-/

namespace RoutineSpec

/-- The number that digits denote by their places: the last of them counts ones, the one in front of it tens, and so on. -/
def placeValue (digits : List Char) : Nat :=
  Nat.ofDigits 10 (digits.reverse.map fun c => c.toNat - '0'.toNat)

namespace Piece

variable {before digits dots fraction rest : List Char}

theorem decimalValue_eq_placeValue (digits : List Char) : decimalValue digits = placeValue digits := by
  induction digits using List.reverseRecOn with
  | nil => rfl
  | append_singleton digits c ih =>
    rw [decimalValue, Nat.ofDigitChars_append, ← decimalValue, ih, placeValue, placeValue, List.reverse_append,
      List.reverse_singleton, List.singleton_append, List.map_cons, Nat.ofDigits_cons, Nat.add_comm]
    rfl

/-- A number by itself is one piece. -/
theorem split_number (h : IsNumber digits dots fraction) :
    split (digits ++ dots ++ fraction) = [.number digits dots fraction] := by
  obtain ⟨c, cs, rfl⟩ := List.exists_cons_of_ne_nil h.nonempty
  have hleading : leading c (cs ++ dots ++ fraction ++ []) = .number (c :: cs) dots fraction :=
    leading_number h (by simp)
  have htext : (Piece.number (c :: cs) dots fraction).text = c :: (cs ++ dots ++ fraction) := rfl
  have hsplit := split_append htext hleading
  rwa [htext, List.append_nil, split] at hsplit

/-- A number that starts at a seam is one more piece behind those in front of it. -/
theorem split_append_number (h : IsNumber digits dots fraction)
    (hseam : Seam before (digits ++ dots ++ fraction ++ rest)) :
    split (before ++ (digits ++ dots ++ fraction)) = split before ++ [.number digits dots fraction] := by
  have hlike : EndsLike (digits ++ dots ++ fraction ++ rest) (digits ++ dots ++ fraction) := by
    obtain ⟨c, cs, rfl⟩ := List.exists_cons_of_ne_nil h.nonempty
    exact fun d hd => .inr hd
  rw [parts_of_seam hseam _ hlike, split_number h]

/-- What is wrong with a number, told by its text and by the value of its digits. -/
theorem problems_number (policy : DecimalPolicy) (digits dots fraction : String) :
    problems policy (.number digits.toList dots.toList fraction.toList) =
      (if dots ≠ "" ∧ policy = .reject then [.decimalLiteral (digits ++ dots ++ fraction)] else []) ++
        if 2 ^ 63 - 1 < placeValue digits.toList then [.integerOverflow (digits ++ dots ++ fraction)] else [] := by
  have hliteral : String.ofList (digits.toList ++ dots.toList ++ fraction.toList) = digits ++ dots ++ fraction := by
    rw [← String.toList_append, ← String.toList_append, String.ofList_toList]
  have hdots : dots.toList ≠ [] ↔ dots ≠ "" := not_congr String.toList_eq_nil_iff
  simp only [problems, hliteral, hdots, decimalValue_eq_placeValue]
  rfl

end Piece

namespace Scan

/-- A number at the end of a source is one lexeme behind all others. -/
theorem of_append_number (policy : DecimalPolicy) {before digits dots fraction : String} {rest : List Char}
    (hnumber : IsNumber digits.toList dots.toList fraction.toList)
    (hseam : Seam before.toList (digits.toList ++ dots.toList ++ fraction.toList ++ rest)) :
    let literal := digits ++ dots ++ fraction
    let loc := Location.behind before.toList
    let value := placeValue digits.toList
    (of policy (before ++ literal)).lexemes =
        (of policy before).lexemes ++ [⟨.integer (min value (2 ^ 63 - 1) : Nat), loc⟩] ∧
      (of policy (before ++ literal)).errors = (of policy before).errors ++
        ((if dots ≠ "" ∧ policy = .reject then [⟨.decimalLiteral literal, loc⟩] else []) ++
          if 2 ^ 63 - 1 < value then [⟨.integerOverflow literal, loc⟩] else []) := by
  intro literal loc value
  have hplaced : Piece.place .start (Piece.split (before ++ literal).toList) =
      Piece.place .start (Piece.split before.toList) ++
        [⟨.number digits.toList dots.toList fraction.toList, loc⟩] := by
    rw [String.toList_append, String.toList_append, String.toList_append, Piece.split_append_number hnumber hseam,
      Piece.place_append, Piece.flatMap_text_split, Location.past_start]
    rfl
  have herrors : Piece.Placed.errors policy ⟨.number digits.toList dots.toList fraction.toList, loc⟩ =
      (if dots ≠ "" ∧ policy = .reject then [⟨.decimalLiteral literal, loc⟩] else []) ++
        if 2 ^ 63 - 1 < value then [⟨.integerOverflow literal, loc⟩] else [] := by
    rw [Piece.Placed.errors, Piece.problems_number, List.map_append]
    split <;> split <;> rfl
  simp only [of, hplaced, List.filterMap_append, List.flatMap_append, List.flatMap_singleton, herrors, and_true]
  unfold value
  rw [← Piece.decimalValue_eq_placeValue]
  rfl

/-- A number is one lexeme, wherever in a source it stands. If it starts at a seam, and no longer lexeme starts there, then
    it is an integer at the place of its first digit. The value is that of the digits in front of the dots, or the largest
    63-bit number if theirs is beyond it. Unless dots are accepted, they are reported, and then a value that is too large,
    with the whole text of the number. What stands in front of the number and what stands behind it are scanned as they
    are apart. -/
theorem of_number (policy : DecimalPolicy) {before digits dots fraction rest : String}
    (hnumber : IsNumber digits.toList dots.toList fraction.toList)
    (hseam : Seam before.toList (digits ++ dots ++ fraction ++ rest).toList)
    (hlongest : ∀ longer, IsLexeme longer → longer <+: (digits ++ dots ++ fraction ++ rest).toList →
      longer.length ≤ (digits ++ dots ++ fraction).length) :
    let literal := digits ++ dots ++ fraction
    let loc := Location.behind before.toList
    let resumed := Location.behind (before ++ literal).toList
    let value := placeValue digits.toList
    let scan := of policy (before ++ literal ++ rest)
    scan.tokens = (of policy before).tokens.dropLast ++ .of (.integer (min value (2 ^ 63 - 1) : Nat)) loc ::
        (of policy rest).tokens.map (Token.moved resumed.startingAt) ∧
      scan.errors = (of policy before).errors ++
        ((if dots ≠ "" ∧ policy = .reject then [⟨.decimalLiteral literal, loc⟩] else []) ++
          if 2 ^ 63 - 1 < value then [⟨.integerOverflow literal, loc⟩] else []) ++
        (of policy rest).errors.map (LexicalError.moved resumed.startingAt) := by
  intro literal loc resumed value scan
  have htext : literal.toList = digits.toList ++ dots.toList ++ fraction.toList := by simp [literal]
  rw [String.toList_append, htext] at hseam hlongest
  rw [← String.length_toList, htext] at hlongest
  have hbehind : Seam (before ++ literal).toList rest.toList := by
    rw [String.toList_append, htext]
    exact hseam.lexeme (.integer hnumber) hlongest
  obtain ⟨hlexemes, herrors⟩ : (of policy (before ++ literal)).lexemes =
      (of policy before).lexemes ++ [⟨.integer (min value (2 ^ 63 - 1) : Nat), loc⟩] ∧
        (of policy (before ++ literal)).errors = _ := of_append_number policy hnumber hseam
  have hscan : scan =
      ⟨(of policy (before ++ literal)).lexemes ++ (of policy rest).lexemes.map (Lexeme.moved resumed.startingAt),
        resumed.startingAt (of policy rest).stop,
        (of policy (before ++ literal)).errors ++ (of policy rest).errors.map (LexicalError.moved resumed.startingAt)⟩ :=
    of_seam policy hbehind
  rw [hlexemes, herrors] at hscan
  rw [hscan]
  constructor
  · simp only [tokens, List.dropLast_concat, List.map_append, List.map_map, List.append_assoc]
    rfl
  · rfl

/-- A number with leading zeros, one beyond the largest integer, between a number and a dot in front and a dot behind. -/
theorem of_number_of_leading_zeros :
    let literal := "0009223372036854775808" ++ ".." ++ "25"
    let scan := of .reject ("a\n=1.5." ++ literal ++ ".7;")
    scan.tokens = (of .reject "a\n=1.5.").tokens.dropLast ++ .of (.integer 9223372036854775807) ⟨2, 6⟩ ::
        (of .reject ".7;").tokens.map (Token.moved (Location.startingAt ⟨2, 32⟩)) ∧
      scan.errors = (of .reject "a\n=1.5.").errors ++
        [⟨.decimalLiteral literal, ⟨2, 6⟩⟩, ⟨.integerOverflow literal, ⟨2, 6⟩⟩] ++
        (of .reject ".7;").errors.map (LexicalError.moved (Location.startingAt ⟨2, 32⟩)) := by
  have hnumber : IsNumber "0009223372036854775808".toList "..".toList "25".toList :=
    ⟨by decide, List.all_eq_true.1 rfl, List.all_eq_true.1 rfl, List.all_eq_true.1 rfl, by decide⟩
  have hseam : Seam "a\n=1.5.".toList ("0009223372036854775808" ++ ".." ++ "25" ++ ".7;").toList := by decide +kernel
  have hlongest : ∀ longer, IsLexeme longer →
      longer <+: ("0009223372036854775808" ++ ".." ++ "25" ++ ".7;").toList →
      longer.length ≤ ("0009223372036854775808" ++ ".." ++ "25").length := by
    rintro longer ⟨terminal, hspells⟩ hbegins
    have hlength := (Piece.length_le_leading hspells hbegins).2
    exact hlength.trans (by decide +kernel)
  have hloc : Location.behind "a\n=1.5.".toList = ⟨2, 6⟩ := by decide +kernel
  have hresumed : Location.behind ("a\n=1.5." ++ ("0009223372036854775808" ++ ".." ++ "25")).toList = ⟨2, 32⟩ := by
    decide +kernel
  have hvalue : placeValue "0009223372036854775808".toList = 9223372036854775808 := by decide +kernel
  have hscan := of_number .reject hnumber hseam hlongest
  simp only [hloc, hresumed, hvalue] at hscan
  exact hscan

end Scan

end RoutineSpec
