import RoutineSpec.Tree.Children

/-! # Outlines

The outline of a tree has a line for each of its subtrees, in preorder, and indents children two spaces
deeper than their parent. It can be had as one string, or written piece by piece to a sink with limited
room.
-/

namespace RoutineSpec

/-- What an outline shows besides kinds and attribute values. -/
structure OutlineStyle where
  /-- How many spaces stand before the first line. -/
  offset : Nat := 0
  /-- Each attribute value has its name before it. -/
  attributeNames : Bool := false
  /-- Each child has the label of its slot behind its kind. -/
  slotLabels : Bool := false
  /-- Each line ends with its tree's place. -/
  places : Bool := false
  deriving Repr, DecidableEq

namespace OutlineStyle

/-- The style that shows everything. -/
def full : OutlineStyle where
  attributeNames := true
  slotLabels := true
  places := true

/-- An attribute's value, with its name before it if the style asks for names. -/
def attributeText (style : OutlineStyle) (item : Attribute) : String :=
  if style.attributeNames then s!"{item.name}={item.value}" else item.value

end OutlineStyle

namespace Visit

/-- The line of a visited subtree, in the pieces in which it is written. -/
def line (style : OutlineStyle) (visit : Visit) : List String :=
  let attributes := visit.node.attributes.map style.attributeText
  [String.ofList (List.replicate (style.offset + 2 * visit.path.length) ' '), visit.node.kind.name] ++
    (if style.slotLabels then (visit.path.getLast?.map fun slot => s!" <{slot.label}>").toList else []) ++
    [":"] ++
    (if attributes.isEmpty then [] else [" " ++ ", ".intercalate attributes]) ++
    (if style.places then [s!" (at {visit.node.loc.spelling})"] else []) ++
    ["\n"]

end Visit

namespace Tree

/-- The outline of a tree, in the pieces in which it is written. -/
def outlinePieces (style : OutlineStyle) (tree : Tree) : List String :=
  tree.visits.flatMap (Visit.line style)

/-- The outline of a tree as one string. -/
def outline (style : OutlineStyle) (tree : Tree) : String :=
  String.join (tree.outlinePieces style)

end Tree

/-- A receiver of text that takes a limited number of characters more. -/
structure Sink where
  room : Nat
  content : String
  deriving Repr, DecidableEq

namespace Sink

/-- A sink without content. -/
def empty (limit : Nat) : Sink := ⟨limit, ""⟩

/-- Write a piece of text. A piece that does not fit fills the room that is left, and the write fails. -/
def write (sink : Sink) (piece : String) : Sink × Bool :=
  if piece.length ≤ sink.room then
    (⟨sink.room - piece.length, sink.content ++ piece⟩, true)
  else
    (⟨0, sink.content ++ String.ofList (piece.toList.take sink.room)⟩, false)

/-- Do one write after another, up to the first one that fails. -/
def inTurn (sink : Sink) : List (Sink → Sink × Bool) → Sink × Bool
  | [] => (sink, true)
  | write :: writes =>
    match write sink with
    | (next, true) => next.inTurn writes
    | (next, false) => (next, false)

/-- Write pieces of text. -/
def writeAll (sink : Sink) (pieces : List String) : Sink × Bool :=
  sink.inTurn (pieces.map fun piece next => next.write piece)

/-- Write the line of a tree and then, child by child, what is below it; `path` leads to the tree. -/
def writeFrom (style : OutlineStyle) (path : List Slot) (tree : Tree) (sink : Sink) : Sink × Bool :=
  sink.inTurn ((fun next => next.writeAll (Visit.line style ⟨path, tree⟩)) ::
    tree.children.attach.map fun ⟨child, _⟩ => writeFrom style (path ++ [child.slot]) child.node)
termination_by sizeOf tree
decreasing_by exact Tree.sizeOf_lt_of_mem_children ‹_›

theorem writeFrom_eq (style : OutlineStyle) (path : List Slot) (tree : Tree) (sink : Sink) :
    writeFrom style path tree sink =
      sink.inTurn ((fun next => next.writeAll (Visit.line style ⟨path, tree⟩)) ::
        tree.children.map fun child => writeFrom style (path ++ [child.slot]) child.node) := by
  rw [writeFrom]
  simp [List.map_subtype]

/-- Write the outline of a tree, and tell whether all of it fitted. -/
def writeOutline (sink : Sink) (style : OutlineStyle) (tree : Tree) : Sink × Bool :=
  writeFrom style [] tree sink

/-- Write outline after outline, whether or not they fit, and tell after each one what has come of it. -/
def writeOutlines (sink : Sink) : List (OutlineStyle × Tree) → List (Sink × Bool)
  | [] => []
  | (style, tree) :: outlines =>
    let result := sink.writeOutline style tree
    result :: result.1.writeOutlines outlines

end Sink

end RoutineSpec
