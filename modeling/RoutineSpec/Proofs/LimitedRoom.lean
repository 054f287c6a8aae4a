import RoutineSpec.Tree.Outline

/-! # Sinks with limited room

A write can fail in the middle of a line, at any depth of a tree, and nothing is written behind the place where it
fails. So a sink holds the beginning of all that it was offered, as much of it as there was room for, and a write fits
if there was room for all that was offered up to its end.
-/

namespace RoutineSpec

namespace Sink

/-- The sink with room for `limit` characters, after all of `text` was offered to it. -/
def after (limit : Nat) (text : List Char) : Sink :=
  ⟨limit - text.length, String.ofList (text.take limit)⟩

@[simp] theorem room_after (limit : Nat) (text : List Char) : (after limit text).room = limit - text.length := rfl

@[simp] theorem content_after (limit : Nat) (text : List Char) :
    (after limit text).content = String.ofList (text.take limit) := rfl

/-- The write offers this text to a sink, and fits if all of the text does. -/
def Offers (write : Sink → Sink × Bool) (text : List Char) : Prop :=
  ∀ limit before,
    write (after limit before) = (after limit (before ++ text), decide (text.length ≤ limit - before.length))

theorem after_append_of_full {limit : Nat} {text : List Char} (h : limit ≤ text.length) (more : List Char) :
    after limit (text ++ more) = after limit text := by
  have hroom : limit - (text ++ more).length = limit - text.length := by
    rw [List.length_append]
    omega
  rw [after, hroom, List.take_append_of_le_length h, after]

theorem offers_write (piece : String) : Offers (fun sink => sink.write piece) piece.toList := by
  intro limit before
  have hlength : piece.length = piece.toList.length := String.length_toList.symm
  simp only [write, room_after, content_after, hlength]
  split
  · next hfits =>
    have hcontent : String.ofList (before.take limit) ++ piece =
        String.ofList ((before ++ piece.toList).take limit) := by
      rw [List.take_append, List.take_of_length_le hfits, String.ofList_append, String.ofList_toList]
    rw [hcontent, Nat.sub_sub, ← List.length_append, decide_eq_true hfits]
    rfl
  · next hfails =>
    have hroom : 0 = limit - (before ++ piece.toList).length := by
      rw [List.length_append]
      omega
    rw [← String.ofList_append, ← List.take_append, hroom, decide_eq_false hfails]
    rfl

theorem offers_inTurn_nil : Offers (fun sink => sink.inTurn []) [] := by
  intro limit before
  simp [inTurn]

/-- Writes in turn offer their texts one behind the other. -/
theorem Offers.inTurn {write : Sink → Sink × Bool} {writes : List (Sink → Sink × Bool)} {text texts : List Char}
    (h : Offers write text) (hrest : Offers (fun sink => sink.inTurn writes) texts) :
    Offers (fun sink => sink.inTurn (write :: writes)) (text ++ texts) := by
  intro limit before
  simp only [Sink.inTurn, h limit before]
  -- Where the first text fits, the rest is offered to what room it leaves; where it does not, no room is left.
  by_cases hfits : text.length ≤ limit - before.length
  · have hlength : texts.length ≤ limit - (before ++ text).length ↔ (text ++ texts).length ≤ limit - before.length := by
      simp only [List.length_append]
      omega
    have hnext := hrest limit (before ++ text)
    rw [List.append_assoc, decide_eq_decide.2 hlength] at hnext
    rw [decide_eq_true hfits]
    exact hnext
  · have hfull : limit ≤ (before ++ text).length := by
      rw [List.length_append]
      omega
    have hfails : ¬ (text ++ texts).length ≤ limit - before.length := by
      rw [List.length_append]
      omega
    rw [decide_eq_false hfits, decide_eq_false hfails, ← List.append_assoc, after_append_of_full hfull]

theorem offers_inTurn_map {α : Type} {write : α → Sink → Sink × Bool} {text : α → List Char} {items : List α}
    (h : ∀ item ∈ items, Offers (write item) (text item)) :
    Offers (fun sink => sink.inTurn (items.map write)) (items.flatMap text) := by
  induction items with
  | nil => exact offers_inTurn_nil
  | cons item items ih =>
    rw [List.forall_mem_cons] at h
    exact h.1.inTurn (ih h.2)

/-- The lines of a tree and all below it are offered in the order of the visit. -/
theorem offers_writeFrom (style : OutlineStyle) (path : List Slot) (tree : Tree) :
    Offers (writeFrom style path tree)
      ((tree.visitsFrom path).flatMap fun visit => (visit.line style).flatMap String.toList) := by
  have hbelow : ∀ child ∈ tree.children, Offers (writeFrom style (path ++ [child.slot]) child.node)
      ((child.node.visitsFrom (path ++ [child.slot])).flatMap fun visit => (visit.line style).flatMap String.toList) :=
    fun child hmem => offers_writeFrom style (path ++ [child.slot]) child.node
  have hline : Offers (fun sink => sink.writeAll (Visit.line style ⟨path, tree⟩))
      ((Visit.line style ⟨path, tree⟩).flatMap String.toList) :=
    offers_inTurn_map fun piece _ => offers_write piece
  rw [Tree.visitsFrom_eq, List.flatMap_cons, List.flatMap_assoc, funext (writeFrom_eq style path tree)]
  exact hline.inTurn (offers_inTurn_map hbelow)
termination_by sizeOf tree
decreasing_by exact Tree.sizeOf_lt_of_mem_children hmem

theorem offers_writeOutline (style : OutlineStyle) (tree : Tree) :
    Offers (fun sink => sink.writeOutline style tree) (tree.outline style).toList := by
  have hoffers := offers_writeFrom style [] tree
  rw [← List.flatMap_assoc] at hoffers
  rw [Tree.outline, String.toList_join]
  exact hoffers

end Sink

/-- An outline has at least one line. -/
theorem Tree.outline_ne_nil (style : OutlineStyle) (tree : Tree) : (tree.outline style).toList ≠ [] := by
  have hline : Visit.line style ⟨[], tree⟩ <+: tree.outlinePieces style := by
    rw [outlinePieces, visits, visitsFrom_eq, List.flatMap_cons]
    exact List.prefix_append _ _
  have hend : "\n" ∈ tree.outlinePieces style := hline.subset (by simp [Visit.line])
  have hchar : '\n' ∈ (tree.outline style).toList := by
    rw [outline, String.toList_join]
    exact List.mem_flatMap.2 ⟨"\n", hend, by simp⟩
  exact List.ne_nil_of_mem hchar

namespace Sink

/-- Each outline is offered behind those before it. -/
theorem writeOutlines_after (limit : Nat) (before : List Char) (outlines : List (OutlineStyle × Tree)) :
    (after limit before).writeOutlines outlines = outlines.mapIdx fun i _ =>
      let text := before ++ (outlines.take (i + 1)).flatMap fun (style, tree) => (tree.outline style).toList
      (after limit text, decide (text.length ≤ limit)) := by
  induction outlines generalizing before with
  | nil => rfl
  | cons item outlines ih =>
    obtain ⟨style, tree⟩ := item
    have hsome := List.length_pos_iff.2 (tree.outline_ne_nil style)
    have hlength : (tree.outline style).toList.length ≤ limit - before.length ↔
        (before ++ (tree.outline style).toList).length ≤ limit := by
      rw [List.length_append]
      omega
    simp only [writeOutlines, offers_writeOutline style tree limit before, ih, List.mapIdx_cons, List.take_succ_cons,
      List.take_zero, List.flatMap_cons, List.flatMap_nil, List.append_nil, List.append_assoc,
      decide_eq_decide.2 hlength]

/-- A sink that outline after outline is written to holds the beginning of them all, up to its limit, and each outline
    fits if there was room for all of them so far. -/
theorem writeOutlines_empty (limit : Nat) (outlines : List (OutlineStyle × Tree)) :
    (empty limit).writeOutlines outlines = outlines.mapIdx fun i _ =>
      let text := String.join ((outlines.take (i + 1)).map fun (style, tree) => tree.outline style)
      (⟨limit - text.length, String.ofList (text.toList.take limit)⟩, decide (text.length ≤ limit)) := by
  have hempty : empty limit = after limit [] := by simp [empty, after]
  have htext : ∀ some : List (OutlineStyle × Tree),
      (some.flatMap fun (style, tree) => (tree.outline style).toList) =
        (String.join (some.map fun (style, tree) => tree.outline style)).toList := fun some => by
    rw [String.toList_join, List.flatMap_map]
  rw [hempty, writeOutlines_after]
  simp only [List.nil_append, htext, String.length_toList]
  rfl

end Sink

end RoutineSpec
