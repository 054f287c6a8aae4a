import RoutineSpec.Proofs.LongestMatch

/-! # Where pieces end

Where the first piece of a text ends is decided by the one character behind it. Any other text that starts with the
piece and goes on with the same character, with a blank or not at all, has the same first piece.
-/

namespace RoutineSpec

theorem head?_dropWhile_eq_false {p : Char → Bool} {text : List Char} :
    ∀ c ∈ (text.dropWhile p).head?, p c = false := by
  intro c hc
  have hhead := List.head?_dropWhile_not p text
  rw [Option.mem_def.1 hc] at hhead
  exact hhead

namespace Mark

variable {c d : Char} {cs : List Char}

theorem not_isPrefix_of_leading?_eq_none (h : leading? cs = none) (sign : Mark) : ¬ sign.spelling.toList <+: cs := by
  intro hbegins
  obtain ⟨longer, hlonger, -⟩ := exists_leading? hbegins
  rw [h] at hlonger
  cases hlonger

theorem leading?_eq_none (hone : ∀ sign : Mark, sign.spelling.toList ≠ [c])
    (htwo : ∀ d ∈ cs.head?, ∀ sign : Mark, sign.spelling.toList ≠ [c, d]) : leading? (c :: cs) = none := by
  have hshort : ofSpelling? (String.ofList [c]) = none :=
    Option.eq_none_iff_forall_ne_some.2 fun sign hsign => hone sign (spelling_toList_of_ofSpelling? hsign)
  cases cs with
  | nil => exact hshort
  | cons d cs =>
    have hlong : ofSpelling? (String.ofList [c, d]) = none :=
      Option.eq_none_iff_forall_ne_some.2 fun sign hsign => htwo d rfl sign (spelling_toList_of_ofSpelling? hsign)
    rw [leading?, hlong, hshort]
    rfl

end Mark

namespace Piece

variable {c : Char} {cs rest other : List Char} {piece : Piece}

/-- What stands behind the piece does not make it longer. A number that has a second run of digits ends before a dot. -/
def EndsBefore (rest : List Char) : Piece → Prop
  | .blank _ => True
  | .word _ => ∀ c ∈ rest.head?, isWordChar c = false
  | .number _ _ fraction => ∀ c ∈ rest.head?, c.isDigit = false ∧ (fraction = [] → isDot c = false)
  | .mark sign => ∀ c ∈ rest.head?, ∀ longer : Mark, longer.spelling.toList ≠ sign.spelling.toList ++ [c]
  | .illegal c => ∀ d ∈ rest.head?, ∀ longer : Mark, longer.spelling.toList ≠ [c, d]

theorem endsBefore_leadingNumber (text : List Char) :
    (leadingNumber text).EndsBefore (((text.dropWhile Char.isDigit).dropWhile isDot).dropWhile Char.isDigit) := by
  intro c hc
  refine ⟨head?_dropWhile_eq_false c hc, fun hfraction => ?_⟩
  have hnone := List.takeWhile_append_dropWhile (p := Char.isDigit) (l := (text.dropWhile Char.isDigit).dropWhile isDot)
  rw [hfraction, List.nil_append] at hnone
  rw [hnone] at hc
  exact head?_dropWhile_eq_false c hc

/-- The first piece of a text ends before what is left of it. -/
theorem endsBefore_of_leading (h : piece.text ++ rest = c :: cs) (hleading : leading c cs = piece) :
    piece.EndsBefore rest := by
  have hleads := leads_leading c cs
  rw [hleading] at hleads
  cases hleads with
  | blank => trivial
  | word =>
    have hrest : rest = (c :: cs).dropWhile isWordChar :=
      List.append_cancel_left (h.trans (List.takeWhile_append_dropWhile (p := isWordChar)).symm)
    rw [hrest]
    exact head?_dropWhile_eq_false
  | number =>
    have hrest : rest = (((c :: cs).dropWhile Char.isDigit).dropWhile isDot).dropWhile Char.isDigit := by
      refine List.append_cancel_left (h.trans ?_)
      simp only [leadingNumber, text, List.append_assoc, List.takeWhile_append_dropWhile]
    rw [hrest]
    exact endsBefore_leadingNumber (c :: cs)
  | @mark sign hsign =>
    rintro d hd longer hlonger
    have hbegins : longer.spelling.toList <+: c :: cs := by
      obtain ⟨more, rfl⟩ := List.head?_eq_some_iff.1 hd
      exact ⟨more, by rw [← h, hlonger, text, List.append_assoc]; rfl⟩
    obtain ⟨longest, hlongest, hlength⟩ := Mark.exists_leading? hbegins
    rw [hsign] at hlongest
    cases hlongest
    rw [hlonger, List.length_append] at hlength
    exact absurd hlength (Nat.not_succ_le_self _)
  | illegal _ _ _ hnone =>
    rintro d hd longer hlonger
    obtain ⟨more, rfl⟩ := List.head?_eq_some_iff.1 hd
    exact Mark.not_isPrefix_of_leading?_eq_none hnone longer ⟨more, by rw [← h, hlonger]; rfl⟩

/-- A first piece of a text is the first piece of any text that starts with it and does not make it longer. -/
theorem leading_of_endsBefore (htext : piece.text = c :: cs) (hleading : leading c (cs ++ rest) = piece)
    (hends : piece.EndsBefore other) : leading c (cs ++ other) = piece := by
  have hleads := leads_leading c (cs ++ rest)
  rw [hleading] at hleads
  cases hleads with
  | blank hblank => simp [leading, hblank]
  | word hstart =>
    have hword : IsWord (c :: cs) := by
      rw [← htext, text, List.takeWhile_cons_of_pos (isWordChar_of_isWordStart hstart)]
      exact .cons hstart (List.all_eq_true.1 List.all_takeWhile)
    rw [leading_word hword hends, ← htext, text]
  | number hdigit =>
    have hsome : (c :: (cs ++ rest)).takeWhile Char.isDigit ≠ [] := by simp [hdigit]
    have hagain := leadingNumber_append (isNumber_leadingNumber hsome) hends
    simp only [leadingNumber, text] at htext
    rw [htext, List.cons_append] at hagain
    rw [leading_of_isDigit hdigit, hagain, leadingNumber]
  | mark => exact leading_mark htext hends
  | illegal hblank hstart hdigit hnone =>
    cases htext
    have hone : ∀ sign : Mark, sign.spelling.toList ≠ [c] := by
      intro sign hsign
      exact Mark.not_isPrefix_of_leading?_eq_none hnone sign (by rw [hsign]; exact ⟨_, rfl⟩)
    simp [leading, hblank, hstart, hdigit, Mark.leading?_eq_none hone hends]

/-- The other text goes on with the same character, with a blank or not at all. -/
def EndsLike (rest other : List Char) : Prop :=
  ∀ c ∈ other.head?, isBlank c = true ∨ c ∈ rest.head?

theorem EndsBefore.endsLike (h : piece.EndsBefore rest) (hother : EndsLike rest other) : piece.EndsBefore other := by
  cases piece with
  | blank => trivial
  | word => exact fun c hc => (hother c hc).elim (fun hc => (other_of_isBlank hc).1) (h c)
  | number =>
    exact fun c hc =>
      (hother c hc).elim (fun hc => ⟨(other_of_isBlank hc).2.1, fun _ => (other_of_isBlank hc).2.2⟩) (h c)
  | mark sign => exact fun c hc => (hother c hc).elim (fun hc longer => longer.spelling_ne_of_isBlank hc _) (h c)
  | illegal d => exact fun c hc => (hother c hc).elim (fun hc longer => longer.spelling_ne_of_isBlank hc [d]) (h c)

/-- The first piece of a text stays so when what is behind it is replaced. -/
theorem split_of_endsLike (h : piece.text ++ rest = c :: cs) (hleading : leading c cs = piece)
    (hother : EndsLike rest other) : split (piece.text ++ other) = piece :: split other := by
  have hends := (endsBefore_of_leading h hleading).endsLike hother
  have hsome : piece.text ≠ [] := hleading ▸ text_leading_ne_nil c cs
  obtain ⟨d, ds, htext⟩ := List.exists_cons_of_ne_nil hsome
  rw [htext, List.cons_append] at h
  cases h
  exact split_append htext (leading_of_endsBefore htext hleading hends)

end Piece

end RoutineSpec
