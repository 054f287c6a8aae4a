import RoutineSpec.Proofs.LineBreaks

/-! # Seams

A text can be taken apart between any two of its pieces. What stands behind such a seam is scanned as if it were a text
of its own, only that its places are counted on from there.
-/

namespace RoutineSpec

/-- Where a place of a text is if the text starts at `base`: on its first line the columns are counted on from there, and
    its lines are as far further down. -/
def Location.startingAt (base loc : Location) : Location :=
  if loc.line = 1 then ⟨base.line, base.column + (loc.column - 1)⟩ else ⟨base.line + (loc.line - 1), loc.column⟩

/-- Cutting the text `before ++ rest` from its start, as a `Cut` does, comes to the place between its two parts. No lexeme
    reaches over a seam. -/
inductive Seam : (before rest : List Char) → Prop where
  | start {text} : Seam [] text
  | blank {before c rest} : Seam before (c :: rest) → isBlank c = true → Seam (before ++ [c]) rest
  | lexeme {before terminal text rest} : Seam before (text ++ rest) → Terminal.Spells terminal text →
      (∀ longer, IsLexeme longer → longer <+: text ++ rest → longer.length ≤ text.length) →
      Seam (before ++ text) rest
  | stray {before c rest} : Seam before (c :: rest) → isBlank c = false →
      (∀ text, text <+: c :: rest → ¬ IsLexeme text) → Seam (before ++ [c]) rest

namespace Piece

variable {before rest cs : List Char} {c : Char} {piece : Piece}

/-- What stands in front falls apart into the same pieces whatever stands behind it, if that does not make the last of
    them longer. -/
def Parts (before rest : List Char) : Prop :=
  ∀ other, EndsLike rest other → split (before ++ other) = split before ++ split other

/-- Where a text is taken apart, it can be taken apart behind the next piece as well. -/
theorem Parts.behind (h : Parts before (piece.text ++ rest)) (htext : piece.text = c :: cs)
    (hleading : leading c (cs ++ rest) = piece) : Parts (before ++ piece.text) rest := by
  have hsplit : ∀ other, EndsLike rest other →
      split (before ++ (piece.text ++ other)) = split before ++ piece :: split other := by
    intro other hother
    have hlike : EndsLike (piece.text ++ rest) (piece.text ++ other) := by
      rw [htext]
      exact fun d hd => .inr hd
    have hfirst : piece.text ++ rest = c :: (cs ++ rest) := congrArg (· ++ rest) htext
    rw [h _ hlike, split_of_endsLike hfirst hleading hother]
  have hend : split (before ++ piece.text) = split before ++ [piece] := by
    have hnone : EndsLike rest [] := by simp [EndsLike]
    simpa [split] using hsplit [] hnone
  intro other hother
  rw [List.append_assoc, hsplit other hother, hend, List.append_assoc, List.singleton_append]

/-- A text is taken apart at each of its seams. -/
theorem parts_of_seam (h : Seam before rest) : Parts before rest := by
  induction h with
  | start => simp [Parts, split]
  | @blank before c rest _ hblank ih =>
    have hleading : leading c ([] ++ rest) = .blank c := by simp [leading, hblank]
    exact Parts.behind ih rfl hleading
  | @lexeme before terminal text rest _ hspells hlongest ih =>
    obtain ⟨c, cs, rfl⟩ := List.exists_cons_of_ne_nil hspells.ne_nil
    obtain ⟨-, htext⟩ := leading_of_longest hspells hlongest
    rw [← htext] at ih ⊢
    exact ih.behind htext rfl
  | @stray before c rest _ hblank hnone ih =>
    have hleading : leading c ([] ++ rest) = .illegal c := leading_of_not_isLexeme hblank hnone
    exact Parts.behind ih rfl hleading

/-- There is a seam behind the first piece of what stands behind a seam. -/
theorem seam_leading (h : Seam before (c :: cs)) :
    Seam (before ++ (leading c cs).text) ((c :: cs).drop (leading c cs).text.length) := by
  have hleads := leads_leading c cs
  have hrest := text_leading_append_drop c cs
  generalize (c :: cs).drop (leading c cs).text.length = rest at hrest ⊢
  cases hterminal : (leading c cs).terminal? with
  | some terminal =>
    refine .lexeme (by rwa [hrest]) (hleads.spells hterminal) ?_
    rintro longer ⟨other, hother⟩ hbegins
    rw [hrest] at hbegins
    exact (length_le_leading hother hbegins).2
  | none =>
    rcases hleads.blank_or_illegal hterminal with ⟨hblank, hpiece⟩ | ⟨hblank, hpiece⟩
    · rw [hpiece] at hrest ⊢
      cases hrest
      exact .blank h hblank
    · have hnone : ∀ text, text <+: c :: cs → ¬ IsLexeme text := fun _ => not_isLexeme_of_leading hterminal
      rw [hpiece] at hrest ⊢
      cases hrest
      exact .stray h hblank hnone

/-- There is a seam between any two pieces. -/
theorem seam_of_split {text : List Char} {pieces more : List Piece} (h : Seam before text)
    (hsplit : split text = pieces ++ more) : Seam (before ++ pieces.flatMap Piece.text) (more.flatMap Piece.text) := by
  induction pieces generalizing before text with
  | nil =>
    rw [List.nil_append] at hsplit
    rw [List.flatMap_nil, List.append_nil, ← hsplit, flatMap_text_split]
    exact h
  | cons first pieces ih =>
    cases text with
    | nil => simp [split] at hsplit
    | cons c cs =>
      rw [split, List.cons_append] at hsplit
      obtain ⟨rfl, hothers⟩ := List.cons.inj hsplit
      rw [List.flatMap_cons, ← List.append_assoc]
      exact ih (seam_leading h) hothers

/-- The seams of a text are the places between its pieces. -/
theorem seam_iff : Seam before rest ↔ split (before ++ rest) = split before ++ split rest := by
  constructor
  · exact fun h => parts_of_seam h rest fun c hc => .inr hc
  · intro h
    have hseam := seam_of_split .start h
    rwa [List.nil_append, flatMap_text_split, flatMap_text_split] at hseam

instance (before rest : List Char) : Decidable (Seam before rest) :=
  decidable_of_iff _ seam_iff.symm

end Piece

/-! ## What stands behind a seam -/

namespace Location

theorem after_startingAt (base : Location) {loc : Location} (hline : 1 ≤ loc.line) (hcolumn : 1 ≤ loc.column)
    (c : Char) : (base.startingAt loc).after c = base.startingAt (loc.after c) := by
  obtain ⟨line, column⟩ := loc
  by_cases hfirst : line = 1
  · by_cases hfeed : c = '\n'
    · simp [startingAt, after, hfirst, hfeed]
    · have hcount : base.column + (column - 1) + 1 = base.column + column := by
        have : 1 ≤ column := hcolumn
        omega
      simp [startingAt, after, hfirst, hfeed, hcount]
  · by_cases hfeed : c = '\n'
    · have hcount : base.line + (line - 1) + 1 = base.line + line := by
        have : 1 ≤ line := hline
        omega
      have hbelow : line ≠ 0 := Nat.ne_of_gt hline
      simp [startingAt, after, hfirst, hfeed, hcount, hbelow]
    · simp [startingAt, after, hfirst, hfeed]

theorem past_eq_startingAt (base : Location) (text : List Char) : base.past text = base.startingAt (behind text) := by
  induction text using List.reverseRecOn with
  | nil => rfl
  | append_singleton text c ih =>
    have hcounted : 1 ≤ (behind text).line ∧ 1 ≤ (behind text).column := ⟨Nat.le_add_right 1 _, Nat.le_add_right 1 _⟩
    rw [past_append, ih, ← past_behind]
    exact after_startingAt base hcounted.1 hcounted.2 c

end Location

namespace Piece

/-- Pieces that start at a place stand where they would if a text of their own started there. -/
theorem place_startingAt (base : Location) (text : List Char) (pieces : List Piece) :
    place (base.past text) pieces = (place (.behind text) pieces).map (Placed.moved base.startingAt) := by
  induction pieces generalizing text with
  | nil => rfl
  | cons piece pieces ih =>
    rw [place, ← Location.past_append, ih, place, Location.past_behind, Location.past_eq_startingAt, List.map_cons]
    rfl

end Piece

namespace Scan

/-- The scan of a text is that of what stands in front of a seam and that of what stands behind it, with its places
    counted on from there. -/
theorem of_seam (policy : DecimalPolicy) {before rest : String} (h : Seam before.toList rest.toList) :
    let base := Location.behind before.toList
    of policy (before ++ rest) =
      { lexemes := (of policy before).lexemes ++ (of policy rest).lexemes.map (Lexeme.moved base.startingAt)
        stop := base.startingAt (of policy rest).stop
        errors := (of policy before).errors ++ (of policy rest).errors.map (LexicalError.moved base.startingAt) } := by
  intro base
  have hbase : Location.start.past before.toList = base := Location.past_start before.toList
  have hplaced : Piece.place .start (Piece.split (before ++ rest).toList) =
      Piece.place .start (Piece.split before.toList) ++
        (Piece.place .start (Piece.split rest.toList)).map (Piece.Placed.moved base.startingAt) := by
    rw [String.toList_append, Piece.seam_iff.1 h, Piece.place_append, Piece.flatMap_text_split, hbase]
    exact congrArg _ (Piece.place_startingAt base [] _)
  have hstop : Location.start.past (before ++ rest).toList = base.startingAt (of policy rest).stop := by
    rw [String.toList_append, Location.past_append, hbase, Location.past_eq_startingAt, ← Location.past_start]
    rfl
  simp only [of, hplaced, hstop, List.filterMap_append, Piece.lexemes_moved, List.flatMap_append, Piece.errors_moved]

end Scan

end RoutineSpec
