import RoutineSpec.Proofs.Boundaries
import RoutineSpec.Proofs.LocationOrder

/-! # Blanking

An illegal character does no more than keep apart what stands around it, and a space does the same. So nothing but the
reports is changed when all characters that are reported as illegal are blanked out.
-/

namespace RoutineSpec

/-- The text, which starts at `loc`, with a space in place of each character that is reported as illegal. -/
def blankedFrom (errors : List LexicalError) (loc : Location) : List Char → List Char
  | [] => []
  | c :: cs =>
    (if ⟨.illegalCharacter c, loc⟩ ∈ errors then ' ' else c) :: blankedFrom errors (loc.after c) cs

/-- The source with a space in place of each character that the scan reports as illegal. -/
def Scan.blanked (scan : Scan) (source : String) : String :=
  String.ofList (blankedFrom scan.errors .start source.toList)

theorem blankedFrom_append (errors : List LexicalError) (loc : Location) (text more : List Char) :
    blankedFrom errors loc (text ++ more) = blankedFrom errors loc text ++ blankedFrom errors (loc.past text) more := by
  induction text generalizing loc with
  | nil => rfl
  | cons c text ih => rw [List.cons_append, blankedFrom, ih, blankedFrom, Location.past_cons, List.cons_append]

/-- Where nothing is reported as illegal, nothing is blanked. -/
theorem blankedFrom_eq_self {errors : List LexicalError} {loc : Location} {text : List Char}
    (h : ∀ c place, loc ≤ place → place < loc.past text → ⟨.illegalCharacter c, place⟩ ∉ errors) :
    blankedFrom errors loc text = text := by
  induction text generalizing loc with
  | nil => rfl
  | cons c text ih =>
    rw [Location.past_cons] at h
    have hfirst := h c loc le_rfl ((loc.lt_after c).trans_le (Location.le_past _ text))
    have hothers := ih fun d place hplace => h d place ((loc.lt_after c).le.trans hplace)
    rw [blankedFrom, if_neg hfirst, hothers]

namespace Piece

/-- The piece with a space in place of an illegal character. -/
def blanked : Piece → Piece
  | .illegal _ => .blank ' '
  | piece => piece

theorem blanked_cases (piece : Piece) : (∃ c, piece = .illegal c) ∨ piece.blanked = piece := by
  cases piece with
  | illegal c => exact .inl ⟨c, rfl⟩
  | blank | word | number | mark => exact .inr rfl

def Placed.blanked (placed : Placed) : Placed :=
  { placed with piece := placed.piece.blanked }

variable {policy : DecimalPolicy} {piece : Piece} {loc : Location}

theorem lexeme?_blanked (placed : Placed) : placed.blanked.lexeme? = placed.lexeme? := by
  obtain ⟨piece, loc⟩ := placed
  cases piece <;> rfl

theorem errors_blanked (policy : DecimalPolicy) (placed : Placed) :
    placed.blanked.errors policy =
      (placed.errors policy).filter fun error => !error.problem.isIllegalCharacter := by
  obtain ⟨piece, loc⟩ := placed
  cases piece with
  | blank | word | mark | illegal => rfl
  | number digits dots fraction =>
    simp only [Placed.blanked, blanked, Placed.errors, problems]
    split <;> split <;> rfl

/-- An illegal character is no line feed, so what is behind it stays in its place. -/
theorem past_blanked (loc : Location) (c : Char) (cs : List Char) :
    loc.past (leading c cs).blanked.text = loc.past (leading c cs).text := by
  have hleads := leads_leading c cs
  generalize leading c cs = piece at hleads
  cases hleads with
  | illegal hblank =>
    have hfeed : c ≠ '\n' := by
      rintro rfl
      cases hblank
    simp [blanked, text, Location.after, hfeed]
  | blank | word | number | mark => rfl

theorem place_blanked (loc : Location) (text : List Char) :
    place loc ((split text).map blanked) = (place loc (split text)).map Placed.blanked := by
  fun_induction split text generalizing loc with
  | case1 => rfl
  | case2 c cs ih =>
    rw [List.map_cons, place, past_blanked, ih, place, List.map_cons]
    rfl

theorem past_flatMap_blanked (loc : Location) (text : List Char) :
    loc.past ((split text).flatMap fun piece => piece.blanked.text) = loc.past text := by
  fun_induction split text generalizing loc with
  | case1 => rfl
  | case2 c cs ih =>
    rw [List.flatMap_cons, Location.past_append, past_blanked, ih, ← Location.past_append, text_leading_append_drop]

/-- A blanked text starts with the same character or with a space. -/
theorem endsLike_blanked (text : List Char) :
    EndsLike text ((split text).flatMap fun piece => piece.blanked.text) := by
  fun_induction split text with
  | case1 => exact fun c hc => .inr hc
  | case2 c cs =>
    have hbegins := text_leading_isPrefix c cs
    have hsome := text_leading_ne_nil c cs
    rw [List.flatMap_cons]
    intro d hd
    rcases (leading c cs).blanked_cases with ⟨e, hillegal⟩ | hkept
    · rw [hillegal] at hd
      cases hd
      exact .inl rfl
    · obtain ⟨e, es, htext⟩ := List.exists_cons_of_ne_nil hsome
      rw [htext, List.cons_prefix_cons] at hbegins
      rw [hkept, htext, hbegins.1] at hd
      exact .inr hd

/-- Blanking neither joins nor splits any pieces. -/
theorem split_blanked (text : List Char) :
    split ((split text).flatMap fun piece => piece.blanked.text) = (split text).map blanked := by
  fun_induction split text with
  | case1 => simp [split]
  | case2 c cs ih =>
    have htext := text_leading_append_drop c cs
    generalize (c :: cs).drop (leading c cs).text.length = rest at ih htext ⊢
    rw [List.flatMap_cons, List.map_cons]
    -- A piece that is kept ends as before: behind it is the character that was there, or a space in its place.
    rcases (leading c cs).blanked_cases with ⟨d, hillegal⟩ | hkept
    · rw [hillegal, blanked, Piece.text, List.singleton_append, split_blank rfl, ih]
    · rw [hkept, split_of_endsLike htext rfl (endsLike_blanked rest), ih]

/-! ## What is reported is what is blanked -/

theorem loc_of_mem_errors {error : LexicalError} (h : error ∈ Placed.errors policy ⟨piece, loc⟩) : error.loc = loc := by
  obtain ⟨problem, -, rfl⟩ := List.mem_map.1 h
  rfl

theorem le_loc_of_mem_errors {pieces : List Piece} {error : LexicalError}
    (h : error ∈ (place loc pieces).flatMap (Placed.errors policy)) : loc ≤ error.loc := by
  obtain ⟨placed, hmem, herror⟩ := List.mem_flatMap.1 h
  rw [loc_of_mem_errors herror]
  exact le_loc_of_mem_place hmem

theorem eq_illegal_of_mem_problems {c : Char} (h : .illegalCharacter c ∈ piece.problems policy) :
    piece = .illegal c := by
  cases piece with
  | illegal => simpa [problems, eq_comm] using h
  | blank | word | mark => cases h
  | number =>
    simp only [problems, List.mem_append] at h
    split at h <;> split at h <;> simp at h

/-- A piece is blanked if it is reported where it stands. -/
theorem blankedFrom_text {errors : List LexicalError} (hsome : piece.text ≠ [])
    (h : ∀ error, loc ≤ error.loc → error.loc < loc.past piece.text →
      (error ∈ errors ↔ error ∈ Placed.errors policy ⟨piece, loc⟩)) :
    blankedFrom errors loc piece.text = piece.blanked.text := by
  rcases piece.blanked_cases with ⟨c, rfl⟩ | hkept
  · have hreported : ⟨.illegalCharacter c, loc⟩ ∈ errors :=
      (h ⟨_, loc⟩ le_rfl (loc.lt_past hsome)).2 (by simp [Placed.errors, problems])
    simp [text, blanked, blankedFrom, hreported]
  · rw [hkept]
    refine blankedFrom_eq_self fun c place hplace hbefore hmem => ?_
    obtain ⟨problem, hproblem, herror⟩ := List.mem_map.1 ((h _ hplace hbefore).1 hmem)
    cases herror
    have hillegal : piece = .illegal c := eq_illegal_of_mem_problems hproblem
    rw [hillegal] at hkept
    cases hkept

/-- A text is blanked piece by piece if all that is reported from its start on is what is wrong with its pieces. -/
theorem blankedFrom_split {errors : List LexicalError} {text : List Char}
    (h : ∀ error, loc ≤ error.loc →
      (error ∈ errors ↔ error ∈ (place loc (split text)).flatMap (Placed.errors policy))) :
    blankedFrom errors loc text = (split text).flatMap fun piece => piece.blanked.text := by
  fun_induction split text generalizing loc with
  | case1 => rfl
  | case2 c cs ih =>
    have htext := text_leading_append_drop c cs
    have hsome := text_leading_ne_nil c cs
    generalize (c :: cs).drop (leading c cs).text.length = rest at ih htext h ⊢
    generalize leading c cs = piece at htext h hsome ⊢
    simp only [place, List.flatMap_cons, List.mem_append] at h
    have hpast : loc < loc.past piece.text := loc.lt_past hsome
    have hbehind : ∀ error, loc.past piece.text ≤ error.loc →
        (error ∈ errors ↔ error ∈ (place (loc.past piece.text) (split rest)).flatMap (Placed.errors policy)) := by
      intro error herror
      rw [h error (hpast.le.trans herror)]
      refine or_iff_right fun hfirst => ?_
      rw [loc_of_mem_errors hfirst] at herror
      exact absurd hpast herror.not_gt
    have hhere : ∀ error, loc ≤ error.loc → error.loc < loc.past piece.text →
        (error ∈ errors ↔ error ∈ Placed.errors policy ⟨piece, loc⟩) := by
      intro error hloc hbefore
      rw [h error hloc]
      exact or_iff_left fun hothers => absurd hbefore (le_loc_of_mem_errors hothers).not_gt
    rw [← htext, blankedFrom_append, blankedFrom_text hsome hhere, ih hbehind, List.flatMap_cons]

end Piece

namespace Scan

/-- A source and the same source with all illegal characters blanked out have the same tokens in the same places, and
    the same errors except those about illegal characters. -/
theorem of_blanked (policy : DecimalPolicy) (source : String) :
    let scan := of policy source
    let other := of policy (scan.blanked source)
    other.tokens = scan.tokens ∧ other.errors = scan.errors.filter fun error => !error.problem.isIllegalCharacter := by
  intro scan other
  have htext : (scan.blanked source).toList = (Piece.split source.toList).flatMap fun piece => piece.blanked.text := by
    rw [blanked, String.toList_ofList]
    exact Piece.blankedFrom_split fun error _ => Iff.rfl
  have hplaced : Piece.place .start (Piece.split (scan.blanked source).toList) =
      (Piece.place .start (Piece.split source.toList)).map Piece.Placed.blanked := by
    rw [htext, Piece.split_blanked, Piece.place_blanked]
  have hstop : other.stop = scan.stop := by
    show Location.start.past (scan.blanked source).toList = Location.start.past source.toList
    rw [htext, Piece.past_flatMap_blanked]
  have hlexemes : other.lexemes = scan.lexemes := calc
    other.lexemes
    _ = (Piece.place .start (Piece.split (scan.blanked source).toList)).filterMap Piece.Placed.lexeme? := rfl
    _ = (Piece.place .start (Piece.split source.toList)).filterMap fun placed => placed.blanked.lexeme? := by
      rw [hplaced, List.filterMap_map]
      rfl
    _ = scan.lexemes := by
      rw [funext Piece.lexeme?_blanked]
      rfl
  have herrors : other.errors = scan.errors.filter fun error => !error.problem.isIllegalCharacter := calc
    other.errors
    _ = (Piece.place .start (Piece.split (scan.blanked source).toList)).flatMap (Piece.Placed.errors policy) := rfl
    _ = (Piece.place .start (Piece.split source.toList)).flatMap fun placed => placed.blanked.errors policy := by
      rw [hplaced, List.flatMap_map]
    _ = scan.errors.filter fun error => !error.problem.isIllegalCharacter := by
      rw [funext (Piece.errors_blanked policy), ← List.filter_flatMap]
      rfl
  rw [tokens, tokens, hlexemes, hstop]
  exact ⟨rfl, herrors⟩

example : (of .reject "1.2.3&&&é x").blanked "1.2.3&&&é x" = "1.2 3&&   x" := by decide +kernel

end Scan

end RoutineSpec
