import Mathlib.Data.Prod.Lex
import RoutineSpec.Proofs.Unread

/-! # The order of places

Places are ordered as a text is read: by line, and within a line by column. In a stream whose places increase,
what stands in front of a token is what comes before its place.
-/

namespace RoutineSpec

namespace Location

theorem toLex_injective : Function.Injective fun loc : Location => toLex (loc.line, loc.column) := by
  rintro ⟨line, column⟩ ⟨line', column'⟩ h
  cases toLex.injective h
  rfl

instance : LinearOrder Location :=
  LinearOrder.lift' (fun loc => toLex (loc.line, loc.column)) toLex_injective

theorem lt_iff {loc other : Location} :
    loc < other ↔ loc.line < other.line ∨ loc.line = other.line ∧ loc.column < other.column :=
  Prod.Lex.toLex_lt_toLex

theorem le_iff {loc other : Location} :
    loc ≤ other ↔ loc.line < other.line ∨ loc.line = other.line ∧ loc.column ≤ other.column :=
  Prod.Lex.toLex_le_toLex

theorem lt_after (loc : Location) (c : Char) : loc < loc.after c := by
  unfold after
  split
  · exact lt_iff.2 (.inl (Nat.lt_succ_self _))
  · exact lt_iff.2 (.inr ⟨rfl, Nat.lt_succ_self _⟩)

theorem le_past (loc : Location) (text : List Char) : loc ≤ loc.past text := by
  induction text generalizing loc with
  | nil => exact le_refl _
  | cons c text ih => exact (lt_after loc c).le.trans (ih _)

theorem lt_past (loc : Location) {text : List Char} (h : text ≠ []) : loc < loc.past text := by
  obtain ⟨c, text, rfl⟩ := List.exists_cons_of_ne_nil h
  exact (lt_after loc c).trans_le (le_past _ text)

end Location

/-- The places of the lexemes increase, and those of all of them are before `stop`. -/
def Increasing (lexemes : List Lexeme) (stop : Location) : Prop :=
  (lexemes.map Lexeme.loc ++ [stop]).Pairwise (· < ·)

instance (lexemes : List Lexeme) (stop : Location) : Decidable (Increasing lexemes stop) :=
  inferInstanceAs (Decidable (List.Pairwise _ _))

theorem increasing_cons {lexeme : Lexeme} {lexemes : List Lexeme} {stop : Location} :
    Increasing (lexeme :: lexemes) stop ↔
      (∀ loc ∈ lexemes.map Lexeme.loc ++ [stop], lexeme.loc < loc) ∧ Increasing lexemes stop := by
  simp [Increasing]

theorem Increasing.of_append {lexemes more : List Lexeme} {stop : Location} (h : Increasing (lexemes ++ more) stop) :
    Increasing more stop := by
  have : (lexemes.map Lexeme.loc ++ (more.map Lexeme.loc ++ [stop])).Pairwise (· < ·) := by
    simpa [Increasing] using h
  exact (List.pairwise_append.1 this).2.1

/-- Where places increase, what comes before a place stands at the front. -/
theorem Increasing.filter_isPrefix {lexemes : List Lexeme} {stop : Location} (h : Increasing lexemes stop)
    (loc : Location) : lexemes.filter (fun lexeme => lexeme.loc < loc) <+: lexemes := by
  induction lexemes with
  | nil => exact List.prefix_refl _
  | cons lexeme lexemes ih =>
    obtain ⟨hfirst, hrest⟩ := increasing_cons.1 h
    by_cases hbefore : lexeme.loc < loc
    · simpa [hbefore] using ih hrest
    · have behind : lexemes.filter (fun later => later.loc < loc) = [] := by
        refine List.filter_eq_nil_iff.2 fun later hmem => ?_
        have := hfirst later.loc (by simp [List.mem_map_of_mem hmem])
        simpa using (not_lt.1 hbefore).trans this.le
      simp [hbefore, behind]

namespace Session

variable {session next : Session}

/-- The places of what is left to read increase. -/
def Increases (session : Session) : Prop :=
  Increasing session.rest session.stop

theorem Increases.next_le (h : session.Increases) :
    ∀ loc ∈ session.rest.map Lexeme.loc ++ [session.stop], session.next.loc ≤ loc := by
  unfold Increases at h
  unfold next
  cases hrest : session.rest with
  | nil => simp [Token.loc]
  | cons lexeme rest =>
    rw [hrest, increasing_cons] at h
    intro loc hmem
    rcases List.mem_cons.1 hmem with rfl | hmem
    · exact le_refl _
    · exact (h.1 loc hmem).le

theorem Increases.of_unread {span : List Lexeme} (h : (next.unread span).Increases) : next.Increases :=
  Increasing.of_append h

/-- What comes before the place of a token stands in front of the token. -/
theorem filter_isPrefix_of_unread {span : List Lexeme} {loc : Location} (h : (next.unread span).Increases)
    (hloc : loc ≤ next.next.loc) : (next.unread span).rest.filter (fun lexeme => lexeme.loc < loc) <+: span := by
  have behind : next.rest.filter (fun lexeme => lexeme.loc < loc) = [] := by
    refine List.filter_eq_nil_iff.2 fun lexeme hmem => ?_
    have := hloc.trans (h.of_unread.next_le lexeme.loc (by simp [List.mem_map_of_mem hmem]))
    simpa using this
  have hlength : ((span ++ next.rest).filter fun lexeme => lexeme.loc < loc).length ≤ span.length := by
    rw [List.filter_append, behind, List.append_nil]
    exact List.length_filter_le _ _
  exact List.prefix_of_prefix_length_le (Increasing.filter_isPrefix h loc) (List.prefix_append _ _) hlength

end Session

/-! ## The places of a text -/

namespace Piece

variable {placed : Placed} {pieces : List Piece} {loc : Location}

theorem le_loc_of_mem_place (h : placed ∈ place loc pieces) : loc ≤ placed.loc := by
  induction pieces generalizing loc with
  | nil => cases h
  | cons piece pieces ih =>
    rcases List.mem_cons.1 h with rfl | h
    · exact le_refl _
    · exact (loc.le_past _).trans (ih h)

theorem le_loc_of_mem_lexemes {lexeme : Lexeme} (h : lexeme ∈ (place loc pieces).filterMap Placed.lexeme?) :
    loc ≤ lexeme.loc := by
  obtain ⟨placed, hmem, hlexeme⟩ := List.mem_filterMap.1 h
  obtain ⟨terminal, -, rfl⟩ := Option.map_eq_some_iff.1 hlexeme
  exact le_loc_of_mem_place hmem

/-- Each piece starts behind the ones in front of it. -/
theorem increasing_place (h : ∀ piece ∈ pieces, piece.text ≠ []) (loc : Location) :
    Increasing ((place loc pieces).filterMap Placed.lexeme?) (loc.past (pieces.flatMap text)) := by
  induction pieces generalizing loc with
  | nil => simp [place, Increasing]
  | cons piece pieces ih =>
    obtain ⟨hfirst, hothers⟩ := List.forall_mem_cons.1 h
    have hincreasing := ih hothers (loc.past piece.text)
    have hpast : loc < loc.past piece.text := loc.lt_past hfirst
    rw [List.flatMap_cons, Location.past_append, place]
    cases hterminal : piece.terminal? with
    | none =>
      rw [List.filterMap_cons_none (by simp [Placed.lexeme?, hterminal])]
      exact hincreasing
    | some terminal =>
      rw [List.filterMap_cons_some (b := ⟨terminal, loc⟩) (by simp [Placed.lexeme?, hterminal])]
      refine increasing_cons.2 ⟨fun place hmem => ?_, hincreasing⟩
      rcases List.mem_append.1 hmem with hmem | hmem
      · obtain ⟨lexeme, hlexeme, rfl⟩ := List.mem_map.1 hmem
        exact hpast.trans_le (le_loc_of_mem_lexemes hlexeme)
      · rw [List.mem_singleton.1 hmem]
        exact hpast.trans_le (Location.le_past _ _)

end Piece

/-- The lexemes of a text are in the order of their places. -/
theorem Scan.increasing_of (policy : DecimalPolicy) (source : String) :
    Increasing (Scan.of policy source).lexemes (Scan.of policy source).stop := by
  have htext : ∀ piece ∈ Piece.split source.toList, piece.text ≠ [] := by
    intro piece hmem
    obtain ⟨c, cs, rfl⟩ := Piece.exists_leading_of_mem_split hmem
    exact Piece.text_leading_ne_nil c cs
  have := Piece.increasing_place htext .start
  rwa [Piece.flatMap_text_split] at this

end RoutineSpec
