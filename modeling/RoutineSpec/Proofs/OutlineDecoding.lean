import RoutineSpec.Grammar.Statement
import RoutineSpec.Proofs.Decoding
import RoutineSpec.Tree.Outline

/-! # Trees from their outlines

An outline that shows the labels of slots and the places tells the whole tree. Each line tells what a subtree holds
itself and the slot that it fills, and how far the lines behind it are indented tells where its children end.
-/

namespace RoutineSpec

/-! ## What a line is made of -/

theorem Kind.isWord_name (kind : Kind) : IsWord kind.name.toList := by
  cases kind <;> exact .cons rfl (List.all_eq_true.1 rfl)

theorem Kind.ofName?_name (kind : Kind) : ofName? kind.name = some kind := by
  cases kind <;> decide

theorem Kind.name_injective : Function.Injective Kind.name := by
  intro kind other h
  have hkind := kind.ofName?_name
  rw [h, other.ofName?_name] at hkind
  exact (Option.some.inj hkind).symm

/-- No space stands where the name of a kind does. -/
theorem Kind.head_name (kind : Kind) (behind : List Char) :
    ∀ c ∈ (kind.name.toList ++ behind).head?, (c == ' ') = false := by
  intro c hc
  obtain ⟨d, ds, htext, hstart⟩ := kind.isWord_name.exists_cons
  rw [htext] at hc
  cases hc
  refine beq_eq_false_iff_ne.2 ?_
  rintro rfl
  cases hstart

namespace Slot

/-- The brackets of a label. -/
def bracketed : Option Nat → List Char
  | none => []
  | some i => '[' :: (i.repr.toList ++ [']'])

theorem toList_label (slot : Slot) : slot.label.toList = slot.name.toList ++ bracketed slot.index := by
  obtain ⟨name, index⟩ := slot
  cases index with
  | none => simp [label, bracketed]
  | some i => simp [label, bracketed, toString]

theorem bracketed_injective : Function.Injective bracketed := by
  intro index other h
  cases index <;> cases other <;> simp only [bracketed, reduceCtorEq, List.cons.injEq, true_and] at h
  · rfl
  · rw [repr_injective (String.toList_inj.1 (List.append_cancel_right h))]

theorem label_injective {slot other : Slot} (hword : IsWord slot.name.toList) (hword' : IsWord other.name.toList)
    (h : slot.label = other.label) : slot = other := by
  have hends : ∀ index, ∀ c ∈ (bracketed index).head?, isWordChar c = false := by
    rintro (_ | i) c hc <;> cases hc
    rfl
  have htext := congrArg String.toList h
  rw [toList_label, toList_label] at htext
  obtain ⟨hname, hindex⟩ := run_append_inj htext hword.all hword'.all (hends _) (hends _)
  cases slot
  cases other
  cases String.toList_inj.1 hname
  cases bracketed_injective hindex
  rfl

theorem not_mem_label {slot : Slot} (hword : IsWord slot.name.toList) : ∀ c ∈ slot.label.toList, c ≠ '>' := by
  rintro c hc rfl
  rw [toList_label] at hc
  rcases List.mem_append.1 hc with hname | hindex
  · cases hword.all _ hname
  · cases hslot : slot.index with
    | none => simp [hslot, bracketed] at hindex
    | some i =>
      simp only [hslot, bracketed, List.mem_cons, List.mem_append, List.not_mem_nil, or_false] at hindex
      rcases hindex with hopen | hdigit | hclose
      · cases hopen
      · cases isDigit_of_mem_repr hdigit
      · cases hclose

end Slot

/-! ## Attributes -/

theorem Attribute.isWord_name {tree : Tree} {item : Attribute} (h : item ∈ tree.attributes) :
    IsWord item.name.toList := by
  have hwords : ∀ name ∈ ["name", "type", "id", "value", "op", "base", "pointer"], isName name = true := by decide
  refine Terminal.isWord_of_isName (hwords item.name ?_)
  cases tree <;> simp only [Tree.attributes, List.mem_append, List.mem_cons, List.not_mem_nil, or_false,
    Option.mem_toList, Option.map_eq_some_iff] at h
  case var => rcases h with rfl | ⟨_, -, rfl⟩ | ⟨_, -, rfl⟩ <;> simp
  case dataType => rcases h with rfl | rfl <;> simp
  all_goals subst h; simp

theorem Attribute.plain_value {tree : Tree} (hnames : ∀ name, tree.name? = some name → IsWord name.toList)
    {item : Attribute} (h : item ∈ tree.attributes) : ∀ c ∈ item.value.toList, isPlain c = true := by
  cases tree <;> simp only [Tree.attributes, List.mem_append, List.mem_cons, List.not_mem_nil, or_false,
    Option.mem_toList, Option.map_eq_some_iff] at h
  case var =>
    rcases h with rfl | ⟨type, -, rfl⟩ | ⟨id, -, rfl⟩
    · exact (hnames _ rfl).plain
    · exact type.plain_spelling
    · obtain ⟨_, _, -, -, -, hplain⟩ := exists_repr id
      exact hplain
  case constant value => subst h; exact value.plain_spelling
  case binary op _ _ => subst h; exact op.plain_spelling
  case unary op _ => subst h; exact op.plain_spelling
  case call => subst h; exact (hnames _ rfl).plain
  case dataType type =>
    rcases h with rfl | rfl
    · exact (Terminal.isWord_of_keyword type.base.keyword).plain
    · exact (isWord_truthWord type.pointer).plain

namespace OutlineStyle

variable {style : OutlineStyle}

theorem toList_attributeText (style : OutlineStyle) (item : Attribute) :
    (style.attributeText item).toList =
      (if style.attributeNames then item.name.toList ++ ['='] else []) ++ item.value.toList := by
  unfold attributeText
  split <;> simp [toString]

theorem attributeText_mem {tree : Tree} (hnames : ∀ name, tree.name? = some name → IsWord name.toList)
    {item : Attribute} (h : item ∈ tree.attributes) :
    ∀ c ∈ (style.attributeText item).toList, c ≠ ',' ∧ c ≠ '(' := by
  have hplain : ∀ c ∈ (style.attributeText item).toList, isPlain c = true := by
    intro c hc
    rw [toList_attributeText, List.mem_append] at hc
    rcases hc with hname | hvalue
    · split at hname
      · rcases List.mem_append.1 hname with hword | hequal
        · exact (Attribute.isWord_name h).plain c hword
        · cases List.mem_singleton.1 hequal
          rfl
      · cases hname
    · exact Attribute.plain_value hnames h c hvalue
  intro c hc
  constructor <;> rintro rfl <;> cases hplain _ hc

/-- Values can be told from attributes with names before them, and without. -/
theorem value_eq_of_attributeText {tree other : Tree} {item item' : Attribute} (hitem : item ∈ tree.attributes)
    (hitem' : item' ∈ other.attributes)
    (h : (style.attributeText item).toList = (style.attributeText item').toList) : item.value = item'.value := by
  rw [toList_attributeText, toList_attributeText] at h
  split at h
  · rw [List.append_assoc, List.append_assoc] at h
    obtain ⟨-, hbehind⟩ := run_append_inj h (Attribute.isWord_name hitem).all (Attribute.isWord_name hitem').all
      (by simp [isWordChar]) (by simp [isWordChar])
    exact String.toList_inj.1 (List.append_cancel_left hbehind)
  · exact String.toList_inj.1 h

/-- What a line shows of the attributes of a tree, with the space in front of them. -/
def attributeList (style : OutlineStyle) (tree : Tree) : List Char :=
  if tree.attributes = [] then []
  else ' ' :: [',', ' '].intercalate (tree.attributes.map fun item => (style.attributeText item).toList)

theorem attributeList_mem {tree : Tree} (hnames : ∀ name, tree.name? = some name → IsWord name.toList) :
    ∀ c ∈ style.attributeList tree, c ≠ '(' := by
  intro c hc
  unfold attributeList at hc
  cases hitems : tree.attributes with
  | nil => simp [hitems] at hc
  | cons item items =>
    have htexts : ∀ next ∈ item :: items, ∀ c ∈ (style.attributeText next).toList, c ≠ '(' := fun next hnext c hc =>
      (attributeText_mem hnames (hitems ▸ hnext) c hc).2
    rw [List.forall_mem_cons] at htexts
    simp only [hitems, reduceCtorEq, if_false, List.map_cons, intercalate_cons, List.mem_cons, List.mem_append,
      List.mem_flatMap, List.mem_map, List.not_mem_nil, or_false] at hc
    rcases hc with rfl | hfirst | ⟨_, ⟨next, hnext, rfl⟩, (rfl | rfl) | hmore⟩
    · decide
    · exact htexts.1 c hfirst
    · decide
    · decide
    · exact htexts.2 next hnext c hmore

theorem values_eq_of_attributeList {tree other : Tree}
    (hnames : ∀ name, tree.name? = some name → IsWord name.toList)
    (hnames' : ∀ name, other.name? = some name → IsWord name.toList)
    (h : style.attributeList tree = style.attributeList other) :
    tree.attributes.map Attribute.value = other.attributes.map Attribute.value := by
  unfold attributeList at h
  split at h <;> split at h
  · simp [*]
  · cases h
  · cases h
  · next hsome hsome' =>
    have htexts := intercalate_inj (by simpa using hsome) (by simpa using hsome')
      (by simpa using fun item hitem c hc => (@attributeText_mem style _ hnames _ hitem c hc).1)
      (by simpa using fun item hitem c hc => (@attributeText_mem style _ hnames' _ hitem c hc).1)
      (List.cons.inj h).2
    have hvalues : ∀ items ⊆ tree.attributes, ∀ items' ⊆ other.attributes,
        items.map (fun item => (style.attributeText item).toList) =
          items'.map (fun item => (style.attributeText item).toList) →
        items.map Attribute.value = items'.map Attribute.value := by
      intro items hitems items' hitems' h
      induction items generalizing items' with
      | nil => simp_all
      | cons item items ih =>
        obtain _ | ⟨item', items'⟩ := items'
        · cases h
        · obtain ⟨hitem, hrest⟩ := List.cons.inj h
          rw [List.cons_subset] at hitems hitems'
          rw [List.map_cons, List.map_cons, value_eq_of_attributeText hitems.1 hitems'.1 hitem,
            ih hitems.2 _ hitems'.2 hrest]
    exact hvalues _ (List.Subset.refl _) _ (List.Subset.refl _) htexts

end OutlineStyle

/-! ## Lines -/

namespace Visit

variable {style : OutlineStyle} {visit other : Visit} {rest rest' : List Char}

/-- The names that a line shows are words. -/
structure InWords (visit : Visit) : Prop where
  name : ∀ name, visit.node.name? = some name → IsWord name.toList
  slot : ∀ slot, visit.path.getLast? = some slot → IsWord slot.name.toList

/-- The line of a visit, as one text. -/
def text (style : OutlineStyle) (visit : Visit) : List Char :=
  (visit.line style).flatMap String.toList

/-- What a line shows of the slot that is filled. -/
def slotText : Option Slot → List Char
  | none => []
  | some slot => ' ' :: '<' :: (slot.label.toList ++ ['>'])

/-- What a line shows of the place, up to its end. -/
def placeText (loc : Location) : List Char :=
  'a' :: 't' :: ' ' :: (loc.line.repr.toList ++ ':' :: (loc.column.repr.toList ++ [')', '\n']))

theorem text_eq (hslots : style.slotLabels = true) (hplaces : style.places = true) (visit : Visit) :
    visit.text style =
      List.replicate (style.offset + 2 * visit.path.length) ' ' ++ (visit.node.kind.name.toList ++
        (slotText visit.path.getLast? ++ ':' :: (style.attributeList visit.node ++ ' ' :: '(' ::
          placeText visit.node.loc))) := by
  have hslot : ((visit.path.getLast?.map fun slot => s!" <{slot.label}>").toList).flatMap String.toList =
      slotText visit.path.getLast? := by
    cases visit.path.getLast? <;> simp [slotText, toString]
  have hattributes : (if (visit.node.attributes.map style.attributeText).isEmpty then []
      else [" " ++ ", ".intercalate (visit.node.attributes.map style.attributeText)]).flatMap String.toList =
      style.attributeList visit.node := by
    unfold OutlineStyle.attributeList
    by_cases hnone : visit.node.attributes = []
    · simp [hnone]
    · simp [hnone, String.toList_intercalate, Function.comp_def]
  unfold text line
  simp only [hslots, hplaces, if_true, List.flatMap_append, hslot, hattributes]
  simp [placeText, Location.spelling, toString]

theorem slotText_append_inj {slot slot' : Option Slot} (hword : ∀ found, slot = some found → IsWord found.name.toList)
    (hword' : ∀ found, slot' = some found → IsWord found.name.toList)
    (h : slotText slot ++ ':' :: rest = slotText slot' ++ ':' :: rest') : slot = slot' ∧ rest = rest' := by
  cases slot with
  | none =>
    cases slot' with
    | none => exact ⟨rfl, (List.cons.inj h).2⟩
    | some => cases (List.cons.inj h).1
  | some slot =>
    cases slot' with
    | none => cases (List.cons.inj h).1
    | some slot' =>
      simp only [slotText, List.cons_append, List.append_assoc, List.nil_append, List.cons.injEq, true_and] at h
      obtain ⟨hlabel, hbehind⟩ := run_append_inj (p := fun c => c != '>') h
        (by simpa using Slot.not_mem_label (hword slot rfl)) (by simpa using Slot.not_mem_label (hword' slot' rfl))
        (by simp) (by simp)
      rw [Slot.label_injective (hword slot rfl) (hword' slot' rfl) (String.toList_inj.1 hlabel)]
      exact ⟨rfl, by simpa using hbehind⟩

theorem placeText_append_inj {loc loc' : Location} (h : placeText loc ++ rest = placeText loc' ++ rest') :
    loc = loc' ∧ rest = rest' := by
  simp only [placeText, List.cons_append, List.append_assoc, List.nil_append, List.cons.injEq, true_and] at h
  obtain ⟨hline, hbehind⟩ := run_append_inj h (fun _ => isDigit_of_mem_repr) (fun _ => isDigit_of_mem_repr)
    (by simp) (by simp)
  obtain ⟨hcolumn, hrest⟩ := run_append_inj (List.cons.inj hbehind).2 (fun _ => isDigit_of_mem_repr)
    (fun _ => isDigit_of_mem_repr) (by simp) (by simp)
  cases loc
  cases loc'
  cases repr_injective (String.toList_inj.1 hline)
  cases repr_injective (String.toList_inj.1 hcolumn)
  exact ⟨rfl, by simpa using hrest⟩

/-- The same is told by the lines of two visits. -/
structure Agrees (visit other : Visit) : Prop where
  depth : visit.path.length = other.path.length
  slot : visit.path.getLast? = other.path.getLast?
  kind : visit.node.kind = other.node.kind
  values : visit.node.attributes.map Attribute.value = other.node.attributes.map Attribute.value
  loc : visit.node.loc = other.node.loc

/-- A line ends where another text follows, and tells what it shows. -/
theorem text_append_inj (hslots : style.slotLabels = true) (hplaces : style.places = true) (hvisit : visit.InWords)
    (hother : other.InWords) (h : visit.text style ++ rest = other.text style ++ rest') :
    visit.Agrees other ∧ rest = rest' := by
  rw [text_eq hslots hplaces, text_eq hslots hplaces] at h
  simp only [List.append_assoc, List.cons_append] at h
  have hslot : ∀ (slot : Option Slot) (behind : List Char),
      ∀ c ∈ (slotText slot ++ ':' :: behind).head?, isWordChar c = false := by
    rintro (_ | slot) behind c hc <;> cases hc <;> rfl
  obtain ⟨hindent, h⟩ := run_append_inj (p := fun c => c == ' ') h (by simp) (by simp)
    (Kind.head_name _ _) (Kind.head_name _ _)
  obtain ⟨hkind, h⟩ := run_append_inj h (Kind.isWord_name _).all (Kind.isWord_name _).all (hslot _ _) (hslot _ _)
  obtain ⟨hslot, h⟩ := slotText_append_inj hvisit.slot hother.slot h
  -- The space in front of the place belongs to the run that the bracket ends.
  have hopen : ∀ (list behind : List Char), list ++ ' ' :: '(' :: behind = (list ++ [' ']) ++ '(' :: behind := by simp
  have hlist : ∀ {tree : Tree}, (∀ name, tree.name? = some name → IsWord name.toList) →
      ∀ c ∈ style.attributeList tree ++ [' '], (c != '(') = true := by
    intro tree hnames c hc
    rw [bne_iff_ne]
    rcases List.mem_append.1 hc with hmem | hspace
    · exact OutlineStyle.attributeList_mem hnames c hmem
    · cases List.mem_singleton.1 hspace
      decide
  rw [hopen, hopen] at h
  obtain ⟨hattributes, h⟩ := run_append_inj h (hlist hvisit.name) (hlist hother.name) (by simp) (by simp)
  obtain ⟨hloc, hrest⟩ := placeText_append_inj (List.cons.inj h).2
  refine ⟨⟨?_, hslot, Kind.name_injective (String.toList_inj.1 hkind), ?_, hloc⟩, hrest⟩
  · have hlength := congrArg List.length hindent
    simp only [List.length_replicate] at hlength
    omega
  · exact OutlineStyle.values_eq_of_attributeList hvisit.name hother.name (List.append_cancel_right hattributes)

end Visit

/-! ## What a subtree holds -/

/-- The children that fill the slot of the given name. -/
def Child.inSlot (name : String) (children : List Child) : List Tree :=
  (children.filter fun child => child.slot.name == name).map Child.node

section inSlot

variable {name other : String}

theorem Child.inSlot_append (children more : List Child) :
    inSlot name (children ++ more) = inSlot name children ++ inSlot name more := by
  simp [inSlot]

theorem Child.inSlot_each (nodes : List Tree) :
    inSlot name (each other nodes) = if other = name then nodes else [] := by
  unfold inSlot each
  split <;> simp [List.filter_map, Function.comp_def, List.filter_eq_self.2, *]

theorem Child.inSlot_only (node : Tree) : inSlot name [only other node] = if other = name then [node] else [] := by
  unfold inSlot only
  split <;> simp [*]

end inSlot

theorem Child.each_injective (name : String) : Function.Injective (each name) := by
  intro nodes others h
  have hnodes := congrArg (inSlot name) h
  simpa [inSlot_each] using hnodes

/-- A declared type does not look like an identity. -/
theorem DataType.spelling_ne_repr (type : DataType) (id : Nat) : type.spelling ≠ id.repr :=
  (toString_int_ne type.exists_spelling id).symm

theorem declared_injective {type type' : Option DataType} {id id' : Option Nat}
    (h : type.toList.map DataType.spelling ++ id.toList.map Nat.repr =
      type'.toList.map DataType.spelling ++ id'.toList.map Nat.repr) : type = type' ∧ id = id' := by
  have hdiffer : ∀ (type : DataType) (id : Nat), id.repr ≠ type.spelling := fun type id h =>
    type.spelling_ne_repr id h.symm
  cases type <;> cases type' <;> cases id <;> cases id' <;>
    simp [DataType.spelling_ne_repr, hdiffer, DataType.spelling_injective.eq_iff, repr_injective.eq_iff] at h ⊢ <;>
    exact h

namespace Tree

/-- A subtree is told by its kind, its place, the values of its attributes and its children. -/
theorem eq_of_children {tree other : Tree} (hkind : tree.kind = other.kind) (hloc : tree.loc = other.loc)
    (hvalues : tree.attributes.map Attribute.value = other.attributes.map Attribute.value)
    (hchildren : tree.children = other.children) : tree = other := by
  cases tree <;> cases other <;> cases hkind <;> cases hloc
  case var.var =>
    obtain ⟨hname, hbehind⟩ := List.cons.inj hvalues
    simp only [List.map_append, Option.toList_map, List.map_map] at hbehind
    obtain ⟨htype, hid⟩ := declared_injective hbehind
    rw [htype, hid]
    cases hname
    rfl
  case constant.constant => rw [Literal.spelling_injective (List.cons.inj hvalues).1]
  case binary.binary =>
    cases BinaryOp.spelling_injective (List.cons.inj hvalues).1
    cases hchildren
    rfl
  case unary.unary =>
    cases UnaryOp.spelling_injective (List.cons.inj hvalues).1
    cases hchildren
    rfl
  case call.call =>
    cases (List.cons.inj hvalues).1
    rw [Child.each_injective _ hchildren]
  case block.block => rw [Child.each_injective _ hchildren]
  case dataType.dataType type type' =>
    cases type
    cases type'
    simp only [attributes, List.map_cons, List.map_nil, List.cons.injEq, and_true] at hvalues
    rw [BaseType.spelling_injective hvalues.1, truthWord_injective hvalues.2]
  case joinSpec.joinSpec =>
    have hleft := congrArg (Child.inSlot "argsl") hchildren
    have hright := congrArg (Child.inSlot "argsr") hchildren
    have hreturns := congrArg (Child.inSlot "returns") hchildren
    have hlocals := congrArg (Child.inSlot "locals") hchildren
    have hbody := congrArg (Child.inSlot "body") hchildren
    simp [children, Child.inSlot_append, Child.inSlot_each, Child.inSlot_only] at hleft hright hreturns hlocals hbody
    rw [hleft, hright, hreturns, hlocals, hbody]
  case sequentialSpec.sequentialSpec =>
    have hargs := congrArg (Child.inSlot "args") hchildren
    have hreturns := congrArg (Child.inSlot "returns") hchildren
    have hlocals := congrArg (Child.inSlot "locals") hchildren
    have hbody := congrArg (Child.inSlot "body") hchildren
    simp [children, Child.inSlot_append, Child.inSlot_each, Child.inSlot_only] at hargs hreturns hlocals hbody
    rw [hargs, hreturns, hlocals, hbody]
  case ifThen.ifThenElse | ifThenElse.ifThen => cases hchildren
  all_goals
    cases hchildren
    rfl

end Tree

/-! ## Outlines -/

theorem Child.isWord_slot {tree : Tree} {child : Child} (h : child ∈ tree.children) :
    IsWord child.slot.name.toList := by
  have hwords : ∀ name ∈ ["args", "argsl", "argsr", "base", "body", "cond", "condition", "elseb", "expr", "guard",
      "init", "join", "lexpr", "locals", "lvalue", "name", "returns", "rexpr", "rvalue", "sequential", "statements",
      "subscript", "thenb", "type", "update"], IsWord name.toList := by decide
  have heach : ∀ {name : String} {nodes : List Tree}, child ∈ Child.each name nodes → child.slot.name = name := by
    intro name nodes h
    obtain ⟨_, -, rfl⟩ := List.mem_map.1 h
    rfl
  refine hwords _ ?_
  cases tree <;> simp only [Tree.children, List.mem_append, List.mem_cons, List.not_mem_nil, or_false] at h
  case call | block => simp [heach h]
  case joinSpec => rcases h with (((h | h) | h) | h) | rfl <;> first | simp [heach h] | simp [Child.only]
  case sequentialSpec => rcases h with ((h | h) | h) | rfl <;> first | simp [heach h] | simp [Child.only]
  case iteration => rcases h with rfl | rfl | rfl | rfl <;> simp [Child.only]
  case conditional | ifThenElse => rcases h with rfl | rfl | rfl <;> simp [Child.only]
  case unary => simp [h, Child.only]
  all_goals rcases h with rfl | rfl <;> simp [Child.only]

/-- The text does not start with the line of a subtree that is further inside than `depth`. -/
def OutlineStyle.Shallow (style : OutlineStyle) (depth : Nat) (text : List Char) : Prop :=
  (text.takeWhile fun c => c == ' ').length ≤ style.offset + 2 * depth

namespace Tree

variable {style : OutlineStyle} {path path' : List Slot} {rest rest' : List Char}

/-- The lines of a tree and all below it, `path` leading to the tree. -/
def linesFrom (style : OutlineStyle) (path : List Slot) (tree : Tree) : List Char :=
  (tree.visitsFrom path).flatMap (Visit.text style)

theorem linesFrom_eq (style : OutlineStyle) (path : List Slot) (tree : Tree) :
    tree.linesFrom style path =
      Visit.text style ⟨path, tree⟩ ++
        tree.children.flatMap fun child => child.node.linesFrom style (path ++ [child.slot]) := by
  rw [linesFrom, visitsFrom_eq, List.flatMap_cons, List.flatMap_assoc]
  rfl

theorem indentation (hslots : style.slotLabels = true) (hplaces : style.places = true) (path : List Slot) (tree : Tree)
    (rest : List Char) :
    ((tree.linesFrom style path ++ rest).takeWhile fun c => c == ' ').length = style.offset + 2 * path.length := by
  rw [linesFrom_eq, Visit.text_eq hslots hplaces]
  simp only [List.append_assoc]
  rw [takeWhile_append_of_head (by simp) (Kind.head_name _ _), List.length_replicate]

theorem shallow_mono {style : OutlineStyle} {depth : Nat} {text : List Char} (h : style.Shallow depth text) :
    style.Shallow (depth + 1) text := by
  unfold OutlineStyle.Shallow at *
  omega

/-- Whatever follows the lines of the tree, if it is not further inside, the tree can be told from them. -/
def Decodes (style : OutlineStyle) (tree : Tree) : Prop :=
  ∀ {other : Tree} {path path' : List Slot} {rest rest' : List Char}, other.Names (fun name => IsWord name.toList) →
    (∀ slot, path.getLast? = some slot → IsWord slot.name.toList) →
    (∀ slot, path'.getLast? = some slot → IsWord slot.name.toList) →
    style.Shallow path.length rest → style.Shallow path'.length rest' →
    tree.linesFrom style path ++ rest = other.linesFrom style path' ++ rest' →
    path.getLast? = path'.getLast? ∧ tree = other ∧ rest = rest'

/-- Children can be told from their lines if each of them can, because the lines of all of them are indented alike. -/
theorem children_append_inj (hslots : style.slotLabels = true) (hplaces : style.places = true)
    {children others : List Child} (hdecodes : ∀ child ∈ children, child.node.Decodes style)
    (hlabels : ∀ child ∈ children, IsWord child.slot.name.toList)
    (hnames : ∀ child ∈ others, child.node.Names fun name => IsWord name.toList)
    (hlabels' : ∀ child ∈ others, IsWord child.slot.name.toList) (hdepth : path.length = path'.length)
    (hrest : style.Shallow path.length rest) (hrest' : style.Shallow path'.length rest')
    (h : (children.flatMap fun child => child.node.linesFrom style (path ++ [child.slot])) ++ rest =
      (others.flatMap fun child => child.node.linesFrom style (path' ++ [child.slot])) ++ rest') :
    children = others ∧ rest = rest' := by
  -- Where one list ends and the other goes on, the line of a child is too far inside.
  have hinside : ∀ (node : Tree) (path : List Slot) (slot : Slot) (behind : List Char),
      ¬style.Shallow path.length (node.linesFrom style (path ++ [slot]) ++ behind) := by
    intro node path slot behind hshallow
    unfold OutlineStyle.Shallow at hshallow
    rw [indentation hslots hplaces, List.length_append, List.length_singleton] at hshallow
    omega
  have hbehind : ∀ (children : List Child) {path : List Slot} {rest : List Char}, style.Shallow path.length rest →
      ∀ slot : Slot, style.Shallow (path ++ [slot]).length
        ((children.flatMap fun child => child.node.linesFrom style (path ++ [child.slot])) ++ rest) := by
    intro children path rest hrest slot
    rw [List.length_append, List.length_singleton]
    cases children with
    | nil => exact shallow_mono hrest
    | cons child children =>
      rw [List.flatMap_cons, List.append_assoc, OutlineStyle.Shallow, indentation hslots hplaces, List.length_append]
      exact Nat.le_refl _
  induction children generalizing others with
  | nil =>
    cases others with
    | nil => exact ⟨rfl, h⟩
    | cons child others =>
      rw [List.flatMap_cons, List.append_assoc] at h
      rw [hdepth, show rest = _ from h] at hrest
      exact absurd hrest (hinside _ _ _ _)
  | cons child children ih =>
    cases others with
    | nil =>
      rw [List.flatMap_cons, List.append_assoc] at h
      rw [← hdepth, show rest' = _ from h.symm] at hrest'
      exact absurd hrest' (hinside _ _ _ _)
    | cons other others =>
      rw [List.forall_mem_cons] at hdecodes hlabels hnames hlabels'
      rw [List.flatMap_cons, List.flatMap_cons, List.append_assoc, List.append_assoc] at h
      obtain ⟨hslot, hnode, h⟩ := hdecodes.1 hnames.1 (by simpa using hlabels.1) (by simpa using hlabels'.1)
        (hbehind children hrest child.slot) (hbehind others hrest' other.slot) h
      obtain ⟨rfl, hrests⟩ := ih hdecodes.2 hlabels.2 hnames.2 hlabels'.2 h
      cases child
      cases other
      simp only [List.getLast?_append, List.getLast?_singleton, Option.some_or, Option.some.injEq] at hslot hnode
      rw [hslot, hnode]
      exact ⟨rfl, hrests⟩

theorem Names.decodes (hslots : style.slotLabels = true) (hplaces : style.places = true) {tree : Tree}
    (h : tree.Names fun name => IsWord name.toList) : tree.Decodes style := by
  induction h with
  | @node tree hname _ ih =>
    intro other path path' rest rest' hother hslot hslot' hrest hrest' htext
    rw [linesFrom_eq, linesFrom_eq, List.append_assoc, List.append_assoc] at htext
    obtain ⟨hagrees, hbelow⟩ := Visit.text_append_inj hslots hplaces ⟨hname, hslot⟩ ⟨hother.name, hslot'⟩ htext
    obtain ⟨hchildren, hrests⟩ := children_append_inj hslots hplaces (List.forall_mem_map.1 ih)
      (fun _ => Child.isWord_slot) (List.forall_mem_map.1 hother.child) (fun _ => Child.isWord_slot) hagrees.depth
      hrest hrest' hbelow
    exact ⟨hagrees.slot, eq_of_children hagrees.kind hagrees.loc hagrees.values hchildren, hrests⟩

theorem toList_outline (style : OutlineStyle) (tree : Tree) :
    (tree.outline style).toList = tree.linesFrom style [] := by
  simp [outline, outlinePieces, linesFrom, visits, String.toList_join, List.flatMap_assoc]
  rfl

/-- An outline that shows the labels of slots and the places determines the tree, whatever it holds and wherever, if the
    names in it are words. -/
theorem eq_of_outline_eq (hslots : style.slotLabels = true) (hplaces : style.places = true) {tree other : Tree}
    (hnames : tree.Names fun name => IsWord name.toList) (hnames' : other.Names fun name => IsWord name.toList)
    (h : tree.outline style = other.outline style) : tree = other := by
  have htext : tree.linesFrom style [] ++ [] = other.linesFrom style [] ++ [] := by
    rw [← toList_outline, ← toList_outline, h]
  have hend : style.Shallow ([] : List Slot).length [] := Nat.zero_le _
  exact (hnames.decodes hslots hplaces hnames' (by simp) (by simp) hend hend htext).2.1

/-- An increment has the outline of the assignment that it stands for, and is that assignment. -/
theorem eq_of_outline_eq_of_increment :
    let i : Tree := .var ⟨3, 5⟩ "i" none none
    let sum : Tree := .binary ⟨3, 6⟩ .add i (.constant ⟨3, 6⟩ (.int 0))
    let style : OutlineStyle := { offset := 4, slotLabels := true, places := true }
    (increment ⟨3, 5⟩ "i" .add ⟨3, 6⟩).Names (fun name => IsWord name.toList) ∧
      (increment ⟨3, 5⟩ "i" .add ⟨3, 6⟩).outline style = (assignment ⟨3, 5⟩ i sum).outline style ∧
      increment ⟨3, 5⟩ "i" .add ⟨3, 6⟩ = assignment ⟨3, 5⟩ i sum := by
  intro i sum style
  have hi : i.Names fun name => IsWord name.toList := .node (by rintro _ ⟨⟩; decide) (by simp [i, children])
  have hzero : (Tree.constant ⟨3, 6⟩ (.int 0)).Names fun name => IsWord name.toList := .node nofun (by simp [children])
  have hsum : sum.Names fun name => IsWord name.toList := .node nofun (by simpa [sum, children] using ⟨hi, hzero⟩)
  have htree : (assignment ⟨3, 5⟩ i sum).Names fun name => IsWord name.toList :=
    .node nofun (by simpa [children] using ⟨hi, hsum⟩)
  exact ⟨htree, rfl, @eq_of_outline_eq style rfl rfl _ _ htree htree rfl⟩

end Tree

end RoutineSpec
