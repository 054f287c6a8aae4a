import RoutineSpec.Proofs.Decoding
import RoutineSpec.Proofs.RoundTrip
import RoutineSpec.Tree.Compact

/-! # Trees from their compact texts

The compact text of a tree spells a nested form without ambiguity, and the form tells the tree: its first word and the
number of its items tell the kind. What is not written at all are the places, and the types and identities of names.
-/

namespace RoutineSpec

/-! ## Forms from their texts -/

namespace Form

/-- The words of the form are runs of characters other than punctuation. -/
inductive Plain : Form → Prop where
  | atom {text} : text.toList ≠ [] → (∀ c ∈ text.toList, isPlain c = true) → Plain (.atom text)
  | list {items} : (∀ item ∈ items, Plain item) → Plain (.list items)

theorem plain_list_iff {items : List Form} : (list items).Plain ↔ ∀ item ∈ items, item.Plain := by
  constructor
  · intro h
    cases h with
    | list hitems => exact hitems
  · exact .list

/-- The text goes on with punctuation, if it goes on. -/
def Ends (rest : List Char) : Prop :=
  ∀ c ∈ rest.head?, isPlain c = false

/-- The form can be told from its text, whatever goes on behind it. -/
def Decodes (form : Form) : Prop :=
  ∀ {other : Form} {rest rest' : List Char}, other.Plain → Ends rest → Ends rest' →
    form.text.toList ++ rest = other.text.toList ++ rest' → form = other ∧ rest = rest'

/-- The text of items of a list that are not the first. -/
def moreText (items : List Form) : List Char :=
  items.flatMap fun item => ' ' :: item.text.toList

/-- The text of the items of a list. -/
def itemsText : List Form → List Char
  | [] => []
  | item :: items => item.text.toList ++ moreText items

theorem toList_text_list (items : List Form) : (text (.list items)).toList = '(' :: (itemsText items ++ [')']) := by
  rw [text, texts_eq_map]
  cases items with
  | nil => rfl
  | cons item items =>
    simp [String.toList_intercalate, intercalate_cons, itemsText, moreText, List.flatMap_map]

/-- A form does not start like the end of a list. -/
theorem Plain.exists_head {form : Form} (h : Plain form) : ∃ c cs, form.text.toList = c :: cs ∧ c ≠ ')' := by
  cases h with
  | @atom text hsome hplain =>
    obtain ⟨c, cs, htext⟩ := List.exists_cons_of_ne_nil hsome
    have hc : isPlain c = true := hplain c (htext ▸ List.mem_cons_self)
    refine ⟨c, cs, htext, ?_⟩
    rintro rfl
    cases hc
  | @list items => exact ⟨'(', _, toList_text_list items, by decide⟩

theorem ends_more (items : List Form) (rest : List Char) : Ends (moreText items ++ ')' :: rest) := by
  cases items with
  | nil => rintro c ⟨⟩; rfl
  | cons => rintro c ⟨⟩; rfl

theorem moreText_append_inj {items others : List Form} {rest rest' : List Char}
    (hdecodes : ∀ item ∈ items, item.Decodes) (hplain : ∀ item ∈ others, Plain item)
    (h : moreText items ++ ')' :: rest = moreText others ++ ')' :: rest') : items = others ∧ rest = rest' := by
  induction items generalizing others with
  | nil =>
    cases others with
    | nil => exact ⟨rfl, (List.cons.inj h).2⟩
    | cons => cases (List.cons.inj h).1
  | cons item items ih =>
    cases others with
    | nil => cases (List.cons.inj h).1
    | cons other others =>
      rw [List.forall_mem_cons] at hdecodes hplain
      simp only [moreText, List.flatMap_cons, List.cons_append, List.append_assoc, List.cons.injEq, true_and] at h
      obtain ⟨rfl, hmore⟩ := hdecodes.1 hplain.1 (ends_more items rest) (ends_more others rest') h
      obtain ⟨rfl, hrest⟩ := ih hdecodes.2 hplain.2 hmore
      exact ⟨rfl, hrest⟩

theorem itemsText_append_inj {items others : List Form} {rest rest' : List Char}
    (hdecodes : ∀ item ∈ items, item.Decodes) (hplain : ∀ item ∈ items, Plain item)
    (hplain' : ∀ item ∈ others, Plain item)
    (h : itemsText items ++ ')' :: rest = itemsText others ++ ')' :: rest') : items = others ∧ rest = rest' := by
  have hclosed : ∀ {item : Form} {behind behind' : List Char}, item.Plain →
      item.text.toList ++ behind ≠ ')' :: behind' := by
    intro item behind behind' hitem h
    obtain ⟨c, cs, htext, hclose⟩ := hitem.exists_head
    rw [htext] at h
    exact hclose (List.cons.inj h).1
  cases items with
  | nil =>
    cases others with
    | nil => exact ⟨rfl, (List.cons.inj h).2⟩
    | cons other others =>
      rw [itemsText, itemsText, List.append_assoc] at h
      exact absurd h.symm (hclosed (hplain' other List.mem_cons_self))
  | cons item items =>
    rw [itemsText, List.append_assoc] at h
    cases others with
    | nil => exact absurd h (hclosed (hplain item List.mem_cons_self))
    | cons other others =>
      rw [List.forall_mem_cons] at hdecodes hplain'
      rw [itemsText, List.append_assoc] at h
      obtain ⟨rfl, hmore⟩ := hdecodes.1 hplain'.1 (ends_more items rest) (ends_more others rest') h
      obtain ⟨rfl, hrest⟩ := moreText_append_inj hdecodes.2 hplain'.2 hmore
      exact ⟨rfl, hrest⟩

theorem Plain.decodes {form : Form} (h : Plain form) : form.Decodes := by
  have hlist : ∀ {text : String} {items : List Form} {rest rest' : List Char}, text.toList ≠ [] →
      (∀ c ∈ text.toList, isPlain c = true) → text.toList ++ rest ≠ (Form.list items).text.toList ++ rest' := by
    intro text items rest rest' hsome hplain h
    obtain ⟨c, cs, htext⟩ := List.exists_cons_of_ne_nil hsome
    rw [toList_text_list, htext] at h
    have hc := hplain c (htext ▸ List.mem_cons_self)
    rw [(List.cons.inj h).1] at hc
    cases hc
  induction h with
  | @atom text hsome hplain =>
    intro other rest rest' hother hrest hrest' h
    cases hother with
    | atom _ hplain' =>
      obtain ⟨htext, hrests⟩ := run_append_inj h hplain hplain' hrest hrest'
      exact ⟨congrArg _ (String.toList_inj.1 htext), hrests⟩
    | list => exact absurd h (hlist hsome hplain)
  | @list items hitems ih =>
    intro other rest rest' hother hrest hrest' h
    cases hother with
    | atom hsome hplain => exact absurd h.symm (hlist hsome hplain)
    | @list others hothers =>
      rw [toList_text_list, toList_text_list] at h
      simp only [List.cons_append, List.append_assoc, List.nil_append, List.cons.injEq, true_and] at h
      obtain ⟨hsame, hrests⟩ := itemsText_append_inj ih hitems hothers h
      exact ⟨congrArg _ hsame, hrests⟩

/-- The text of a form determines the form. -/
theorem Plain.eq_of_text_eq {form other : Form} (h : Plain form) (h' : Plain other) (htext : form.text = other.text) :
    form = other := by
  have hend : Ends [] := by simp [Ends]
  exact (h.decodes h' hend hend (by rw [htext])).1

end Form

/-! ## Trees from their forms -/

namespace Tree

mutual

/-- The tree with everything forgotten that compact text does not show: the places, and the types and identities of
    names. -/
def bare : Tree → Tree
  | .var _ name _ _ => .var .start name none none
  | .constant _ value => .constant .start value
  | .binary _ op left right => .binary .start op left.bare right.bare
  | .unary _ op operand => .unary .start op operand.bare
  | .call _ name args => .call .start name (bareList args)
  | .index _ base subscript => .index .start base.bare subscript.bare
  | .conditional _ condition onTrue onFalse => .conditional .start condition.bare onTrue.bare onFalse.bare
  | .block _ statements => .block .start (bareList statements)
  | .assignment _ target value => .assignment .start target.bare value.bare
  | .ifThen _ condition onTrue => .ifThen .start condition.bare onTrue.bare
  | .ifThenElse _ condition onTrue onFalse => .ifThenElse .start condition.bare onTrue.bare onFalse.bare
  | .iteration _ init guard update body => .iteration .start init.bare guard.bare update.bare body.bare
  | .dataType _ type => .dataType .start type
  | .argument _ type name => .argument .start type.bare name.bare
  | .joinSpec _ left right returns locals body =>
    .joinSpec .start (bareList left) (bareList right) (bareList returns) (bareList locals) body.bare
  | .sequentialSpec _ args returns locals body =>
    .sequentialSpec .start (bareList args) (bareList returns) (bareList locals) body.bare
  | .program _ join sequential => .program .start join.bare sequential.bare

def bareList : List Tree → List Tree
  | [] => []
  | tree :: trees => tree.bare :: bareList trees

end

section

attribute [local simp] bare bareList

theorem bareList_eq_map (trees : List Tree) : bareList trees = trees.map bare := by
  induction trees with
  | nil => rfl
  | cons tree trees ih => simp [ih]

end

/-- The words that head lists. -/
def headWords : List String :=
  ["call", "index", "?", "block", "=", "if", "for", "arg", "join", "sequential", "program"]

theorem plain_headWord {word : String} (h : word ∈ headWords) : (Form.atom word).Plain := by
  have hwords : (headWords.all fun word => !word.toList.isEmpty && word.toList.all isPlain) = true := rfl
  have hword := List.all_eq_true.1 hwords word h
  simp only [Bool.and_eq_true, Bool.not_eq_true', List.isEmpty_eq_false_iff, List.all_eq_true] at hword
  exact .atom hword.1 hword.2

theorem plain_word {text : String} (h : IsWord text.toList) : (Form.atom text).Plain := by
  obtain ⟨c, cs, htext, -⟩ := h.exists_cons
  exact .atom (by simp [htext]) h.plain

theorem plain_literal (literal : Literal) : (Form.atom literal.spelling).Plain := by
  cases literal with
  | int value =>
    obtain ⟨c, cs, htext, -, hplain⟩ := exists_toString_int value
    exact .atom (by rw [Literal.spelling, htext]; exact List.cons_ne_nil _ _) hplain
  | bool truth => exact plain_word (isWord_truthWord truth)

theorem plain_form {tree : Tree} (h : tree.Names fun name => isName name = true) : tree.form.Plain := by
  have hbinary : ∀ op : BinaryOp, (Form.atom op.spelling).Plain := fun op =>
    .atom op.mark.spelling_toList_ne_nil op.plain_spelling
  have hunary : ∀ op : UnaryOp, (Form.atom op.spelling).Plain := fun op =>
    .atom op.mark.spelling_toList_ne_nil op.plain_spelling
  have htype : ∀ type : DataType, (Form.atom type.spelling).Plain := by
    intro type
    obtain ⟨c, cs, htext, -⟩ := type.exists_spelling
    exact .atom (htext ▸ List.cons_ne_nil _ _) type.plain_spelling
  have hhead : ∀ word ∈ headWords, (Form.atom word).Plain := fun word => plain_headWord
  simp only [headWords, List.forall_mem_cons] at hhead
  induction h with
  | @node tree hname _ ih =>
    have hword : ∀ name, tree.name? = some name → (Form.atom name).Plain := fun name h =>
      plain_word (Terminal.isWord_of_isName (hname name h))
    cases tree <;> simp only [children, List.map_append, List.map_cons, List.map_nil, Child.map_node_each,
      Child.node_only, List.forall_mem_append, List.forall_mem_cons] at ih
    case var => exact hword _ rfl
    case constant => exact plain_literal _
    case dataType => exact htype _
    case call => simpa [form, forms_eq_map, Form.plain_list_iff, hhead, hword _ rfl] using ih
    all_goals simpa [form, forms_eq_map, Form.plain_list_iff, hhead, hbinary, hunary, and_assoc] using ih

/-- No literal and no type looks like a name. -/
theorem isName_literal (literal : Literal) : isName literal.spelling = false := by
  cases literal with
  | int value =>
    exact Bool.eq_false_iff.2 fun hname =>
      toString_int_ne (Terminal.isWord_of_isName hname).exists_cons value rfl
  | bool truth => cases truth <;> decide

theorem isName_dataType (type : DataType) : isName type.spelling = false := by
  obtain ⟨base, pointer⟩ := type
  cases base <;> cases pointer <;> decide

theorem literal_ne_dataType (literal : Literal) (type : DataType) : literal.spelling ≠ type.spelling := by
  cases literal with
  | int value => exact toString_int_ne type.exists_spelling value
  | bool truth =>
    obtain ⟨base, pointer⟩ := type
    cases truth <;> cases base <;> cases pointer <;> decide

end Tree

/-- The kind of the trees that a form stands for. -/
def Form.kind : Form → Kind
  | .atom text =>
    if isName text then .var else if text ∈ DataType.all.map DataType.spelling then .dataType else .constant
  | .list (.atom "call" :: _) => .call
  | .list (.atom "index" :: _) => .index
  | .list (.atom "?" :: _) => .conditional
  | .list (.atom "block" :: _) => .block
  | .list (.atom "=" :: _) => .assignment
  | .list (.atom "if" :: _) => .selection
  | .list (.atom "for" :: _) => .iteration
  | .list (.atom "arg" :: _) => .argument
  | .list (.atom "join" :: _) => .joinSpec
  | .list (.atom "sequential" :: _) => .sequentialSpec
  | .list (.atom "program" :: _) => .program
  | .list [_, _] => .unary
  | .list _ => .binary

namespace Tree

theorem kind_form {tree : Tree} (hname : ∀ name, tree.name? = some name → isName name = true) :
    tree.form.kind = tree.kind := by
  cases tree with
  | var loc name => simp [form, Form.kind, hname name rfl, kind]
  | constant loc value =>
    have hother : value.spelling ∉ DataType.all.map DataType.spelling := by
      simp only [List.mem_map, not_exists, not_and]
      exact fun type _ h => literal_ne_dataType value type h.symm
    simp [form, Form.kind, isName_literal, hother, kind]
  | dataType loc type =>
    have hmem : type.spelling ∈ DataType.all.map DataType.spelling := by
      obtain ⟨base, pointer⟩ := type
      cases base <;> cases pointer <;> decide
    simp [form, Form.kind, isName_dataType, hmem, kind]
  | binary loc op => cases op <;> rfl
  | unary loc op => cases op <;> rfl
  | call | index | conditional | block | assignment | ifThen | ifThenElse | iteration | argument | joinSpec
  | sequentialSpec | program => rfl

/-- The tree can be told from its form, up to what the form does not show. -/
def Told (tree : Tree) : Prop :=
  ∀ {other : Tree}, other.Names (fun name => isName name = true) → tree.form = other.form → tree.bare = other.bare

theorem bareList_eq {trees others : List Tree} (htold : ∀ tree ∈ trees, tree.Told)
    (hnames : ∀ other ∈ others, other.Names fun name => isName name = true) (h : forms trees = forms others) :
    bareList trees = bareList others := by
  induction trees generalizing others with
  | nil =>
    cases others with
    | nil => rfl
    | cons => cases h
  | cons tree trees ih =>
    cases others with
    | nil => cases h
    | cons other others =>
      rw [List.forall_mem_cons] at htold hnames
      obtain ⟨hfirst, hrest⟩ := List.cons.inj h
      rw [bareList, bareList, htold.1 hnames.1 hfirst, ih htold.2 hnames.2 hrest]

theorem Names.told {tree : Tree} (h : tree.Names fun name => isName name = true) : tree.Told := by
  induction h with
  | @node tree hname _ ih =>
    intro other hother hform
    have hkind : tree.kind = other.kind := by rw [← kind_form hname, hform, kind_form hother.name]
    have hchild := hother.child
    -- What is left besides the same constructor twice is a selection with and one without an else branch.
    cases tree <;> cases other <;> cases hkind <;>
      simp only [form, Form.list.injEq, List.cons.injEq, Form.atom.injEq, and_true, true_and, reduceCtorEq,
        and_false] at hform <;>
      simp only [children, List.map_append, List.map_cons, List.map_nil, Child.map_node_each, Child.node_only,
        List.forall_mem_append, List.forall_mem_cons] at ih hchild <;>
      simp only [bare]
    case node.var.var.refl => rw [hform]
    case node.constant.constant.refl => rw [Literal.spelling_injective hform]
    case node.dataType.dataType.refl => rw [DataType.spelling_injective hform]
    case node.binary.binary.refl =>
      rw [BinaryOp.spelling_injective hform.1, ih.1 hchild.1 hform.2.1, ih.2.1 hchild.2.1 hform.2.2]
    case node.unary.unary.refl => rw [UnaryOp.spelling_injective hform.1, ih.1 hchild.1 hform.2]
    case node.call.call.refl => rw [hform.1, bareList_eq ih hchild hform.2]
    case node.block.block.refl => rw [bareList_eq ih hchild hform]
    case node.conditional.conditional.refl | node.ifThenElse.ifThenElse.refl =>
      rw [ih.1 hchild.1 hform.1, ih.2.1 hchild.2.1 hform.2.1, ih.2.2.1 hchild.2.2.1 hform.2.2]
    case node.iteration.iteration.refl =>
      rw [ih.1 hchild.1 hform.1, ih.2.1 hchild.2.1 hform.2.1, ih.2.2.1 hchild.2.2.1 hform.2.2.1,
        ih.2.2.2.1 hchild.2.2.2.1 hform.2.2.2]
    case node.joinSpec.joinSpec.refl =>
      obtain ⟨⟨⟨⟨ihLeft, ihRight⟩, ihReturns⟩, ihLocals⟩, ihBody, -⟩ := ih
      obtain ⟨⟨⟨⟨hleft, hright⟩, hreturns⟩, hlocals⟩, hbody, -⟩ := hchild
      rw [bareList_eq ihLeft hleft hform.1, bareList_eq ihRight hright hform.2.1,
        bareList_eq ihReturns hreturns hform.2.2.1, bareList_eq ihLocals hlocals hform.2.2.2.1,
        ihBody hbody hform.2.2.2.2]
    case node.sequentialSpec.sequentialSpec.refl =>
      obtain ⟨⟨⟨ihArgs, ihReturns⟩, ihLocals⟩, ihBody, -⟩ := ih
      obtain ⟨⟨⟨hargs, hreturns⟩, hlocals⟩, hbody, -⟩ := hchild
      rw [bareList_eq ihArgs hargs hform.1, bareList_eq ihReturns hreturns hform.2.1,
        bareList_eq ihLocals hlocals hform.2.2.1, ihBody hbody hform.2.2.2]
    all_goals rw [ih.1 hchild.1 hform.1, ih.2.1 hchild.2.1 hform.2]

theorem bare_eq_of_compact_eq {tree other : Tree} (hnames : tree.Names fun name => isName name = true)
    (hnames' : other.Names fun name => isName name = true) (h : tree.compact = other.compact) :
    tree.bare = other.bare :=
  hnames.told hnames' ((plain_form hnames).eq_of_text_eq (plain_form hnames') h)

end Tree

/-! ## Programs that have been read -/

namespace Expressible

variable {vocabulary : Vocabulary} {tree other : Tree}

theorem Expression.names (h : Expression vocabulary tree) : tree.Names vocabulary.name := by
  induction h with
  | var hname => exact .node (by rintro _ ⟨⟩; exact hname) (by simp [Tree.children])
  | integer | truth => exact .node nofun (by simp [Tree.children])
  | unary _ ih => exact .node nofun (by simpa [Tree.children] using ih)
  | binary _ _ ih ih' | index _ _ ih ih' => exact .node nofun (by simpa [Tree.children] using ⟨ih, ih'⟩)
  | conditional _ _ _ ih ih' ih'' => exact .node nofun (by simpa [Tree.children] using ⟨ih, ih', ih''⟩)
  | call hname _ ih => exact .node (by rintro _ ⟨⟩; exact hname) (by simpa [Tree.children] using ih)

theorem Statement.names (h : Statement vocabulary tree) : tree.Names vocabulary.name := by
  induction h with
  | assignment htarget hvalue => exact .node nofun (by simpa [Tree.children] using ⟨htarget.names, hvalue.names⟩)
  | ifThen htest _ ih => exact .node nofun (by simpa [Tree.children] using ⟨htest.names, ih⟩)
  | ifThenElse htest _ _ _ ih ih' => exact .node nofun (by simpa [Tree.children] using ⟨htest.names, ih, ih'⟩)
  | iteration _ _ _ hguard _ _ _ _ ihInit ihUpdate ihBody =>
    exact .node nofun (by simpa [Tree.children] using ⟨ihInit, hguard.names, ihUpdate, ihBody⟩)
  | block _ ih => exact .node nofun (by simpa [Tree.children] using ih)

theorem Argument.names (h : Argument vocabulary tree) : tree.Names vocabulary.name := by
  cases h with
  | declaration hname =>
    have htype : ∀ {loc type}, (Tree.dataType loc type).Names vocabulary.name := .node nofun (by simp [Tree.children])
    have hvar : ∀ {loc name type}, vocabulary.name name →
        (Tree.var loc name (some type) none).Names vocabulary.name := fun hname =>
      .node (by rintro _ ⟨⟩; exact hname) (by simp [Tree.children])
    exact .node nofun (by simpa [Tree.children] using ⟨htype, hvar hname⟩)

theorem Returned.names (h : Returned vocabulary tree) : tree.Names vocabulary.name := by
  cases h with
  | name hname => exact .node (by rintro _ ⟨⟩; exact hname) (by simp [Tree.children])

theorem JoinSpec.names (h : JoinSpec vocabulary tree) : tree.Names vocabulary.name := by
  obtain ⟨hleft, hright, hreturned, hlocals, hbody⟩ := h
  refine .node nofun ?_
  simp only [Tree.children, List.map_append, List.map_cons, List.map_nil, Child.map_node_each, Child.node_only,
    List.forall_mem_append, List.forall_mem_singleton]
  exact ⟨⟨⟨⟨fun arg hmem => (hleft arg hmem).names, fun arg hmem => (hright arg hmem).names⟩,
    fun name hmem => (hreturned name hmem).names⟩, fun arg hmem => (hlocals arg hmem).names⟩, hbody.names⟩

theorem SequentialSpec.names (h : SequentialSpec vocabulary tree) : tree.Names vocabulary.name := by
  obtain ⟨hargs, hreturned, hlocals, hbody⟩ := h
  refine .node nofun ?_
  simp only [Tree.children, List.map_append, List.map_cons, List.map_nil, Child.map_node_each, Child.node_only,
    List.forall_mem_append, List.forall_mem_singleton]
  exact ⟨⟨⟨fun arg hmem => (hargs arg hmem).names, fun name hmem => (hreturned name hmem).names⟩,
    fun arg hmem => (hlocals arg hmem).names⟩, hbody.names⟩

theorem Program.names (h : Program vocabulary tree) : tree.Names vocabulary.name := by
  obtain ⟨hjoin, hsequential⟩ := h
  exact .node nofun (by simpa [Tree.children] using ⟨hjoin.names, hsequential.names⟩)

/-- Nothing but places is forgotten of an expression. -/
theorem Expression.bare_eq (h : Expression vocabulary tree) : tree.bare = tree.unplaced := by
  induction h with
  | var | integer | truth => rfl
  | unary _ ih => rw [Tree.bare, Tree.unplaced, ih]
  | binary _ _ ih ih' | index _ _ ih ih' => rw [Tree.bare, Tree.unplaced, ih, ih']
  | conditional _ _ _ ih ih' ih'' => rw [Tree.bare, Tree.unplaced, ih, ih', ih'']
  | call _ _ ih => rw [Tree.bare, Tree.unplaced, Tree.bareList_eq_map, Tree.unplacedList_eq_map, List.map_congr_left ih]

theorem Statement.bare_eq (h : Statement vocabulary tree) : tree.bare = tree.unplaced := by
  induction h with
  | assignment htarget hvalue => rw [Tree.bare, Tree.unplaced, htarget.bare_eq, hvalue.bare_eq]
  | ifThen htest _ ih => rw [Tree.bare, Tree.unplaced, htest.bare_eq, ih]
  | ifThenElse htest _ _ _ ih ih' => rw [Tree.bare, Tree.unplaced, htest.bare_eq, ih, ih']
  | iteration _ _ _ hguard _ _ _ _ ihInit ihUpdate ihBody =>
    rw [Tree.bare, Tree.unplaced, ihInit, hguard.bare_eq, ihUpdate, ihBody]
  | block _ ih => rw [Tree.bare, Tree.unplaced, Tree.bareList_eq_map, Tree.unplacedList_eq_map, List.map_congr_left ih]

theorem returned_bareList_eq {names : List Tree} (h : ∀ name ∈ names, Returned vocabulary name) :
    Tree.bareList names = Tree.unplacedList names := by
  rw [Tree.bareList_eq_map, Tree.unplacedList_eq_map]
  refine List.map_congr_left fun name hmem => ?_
  cases h name hmem
  rfl

/-- The type that is forgotten of a declared name stands in front of it. -/
theorem Argument.unplaced_eq (h : Argument vocabulary tree) (h' : Argument vocabulary other)
    (hbare : tree.bare = other.bare) : tree.unplaced = other.unplaced := by
  cases h
  cases h'
  simp only [Tree.bare, Tree.argument.injEq, Tree.dataType.injEq, Tree.var.injEq, true_and, and_true] at hbare
  simp only [Tree.unplaced, hbare]

theorem arguments_unplaced_eq {args others : List Tree} (h : ∀ arg ∈ args, Argument vocabulary arg)
    (h' : ∀ arg ∈ others, Argument vocabulary arg) (hbare : Tree.bareList args = Tree.bareList others) :
    Tree.unplacedList args = Tree.unplacedList others := by
  induction args generalizing others with
  | nil =>
    cases others with
    | nil => rfl
    | cons => cases hbare
  | cons arg args ih =>
    cases others with
    | nil => cases hbare
    | cons other others =>
      rw [List.forall_mem_cons] at h h'
      obtain ⟨hfirst, hrest⟩ := List.cons.inj hbare
      rw [Tree.unplacedList, Tree.unplacedList, h.1.unplaced_eq h'.1 hfirst, ih h.2 h'.2 hrest]

theorem JoinSpec.unplaced_eq (h : JoinSpec vocabulary tree) (h' : JoinSpec vocabulary other)
    (hbare : tree.bare = other.bare) : tree.unplaced = other.unplaced := by
  obtain ⟨hleft, hright, hreturned, hlocals, hbody⟩ := h
  obtain ⟨hleft', hright', hreturned', hlocals', hbody'⟩ := h'
  simp only [Tree.bare, Tree.joinSpec.injEq, true_and, returned_bareList_eq hreturned, returned_bareList_eq hreturned',
    hbody.bare_eq, hbody'.bare_eq] at hbare
  obtain ⟨hsameLeft, hsameRight, hsameReturned, hsameLocals, hsameBody⟩ := hbare
  rw [Tree.unplaced, Tree.unplaced, arguments_unplaced_eq hleft hleft' hsameLeft,
    arguments_unplaced_eq hright hright' hsameRight, hsameReturned, arguments_unplaced_eq hlocals hlocals' hsameLocals,
    hsameBody]

theorem SequentialSpec.unplaced_eq (h : SequentialSpec vocabulary tree) (h' : SequentialSpec vocabulary other)
    (hbare : tree.bare = other.bare) : tree.unplaced = other.unplaced := by
  obtain ⟨hargs, hreturned, hlocals, hbody⟩ := h
  obtain ⟨hargs', hreturned', hlocals', hbody'⟩ := h'
  simp only [Tree.bare, Tree.sequentialSpec.injEq, true_and, returned_bareList_eq hreturned,
    returned_bareList_eq hreturned', hbody.bare_eq, hbody'.bare_eq] at hbare
  obtain ⟨hsameArgs, hsameReturned, hsameLocals, hsameBody⟩ := hbare
  rw [Tree.unplaced, Tree.unplaced, arguments_unplaced_eq hargs hargs' hsameArgs, hsameReturned,
    arguments_unplaced_eq hlocals hlocals' hsameLocals, hsameBody]

theorem Program.unplaced_eq (h : Program vocabulary tree) (h' : Program vocabulary other)
    (hbare : tree.bare = other.bare) : tree.unplaced = other.unplaced := by
  obtain ⟨hjoin, hsequential⟩ := h
  obtain ⟨hjoin', hsequential'⟩ := h'
  simp only [Tree.bare, Tree.program.injEq, true_and] at hbare
  rw [Tree.unplaced, Tree.unplaced, hjoin.unplaced_eq hjoin' hbare.1, hsequential.unplaced_eq hsequential' hbare.2]

end Expressible

namespace Reading

/-- Compact text is unambiguous. It determines a tree whose names are no reserved words, but for what it does not show
    at all. And of programs that have been read, it shows everything but the places. -/
theorem compact_determines :
    (∀ tree other : Tree, tree.Names (fun name => isName name = true) → other.Names (fun name => isName name = true) →
      tree.compact = other.compact → tree.bare = other.bare) ∧
    ∀ (policy policy' : DecimalPolicy) (source source' : String) (reading reading' : Reading),
      ofSource policy source = .ok reading → ofSource policy' source' = .ok reading' →
      reading.program.compact = reading'.program.compact → reading.program.unplaced = reading'.program.unplaced := by
  refine ⟨fun tree other => Tree.bare_eq_of_compact_eq, ?_⟩
  intro policy policy' source source' reading reading' hread hread' hcompact
  have hprogram := expressible_of_ofSource hread
  have hprogram' := expressible_of_ofSource hread'
  exact hprogram.unplaced_eq hprogram' (Tree.bare_eq_of_compact_eq hprogram.names hprogram'.names hcompact)

theorem exists_of_map_eq_some {α : Type} {f : Reading → α} {outcome : Except ReadFailure Reading} {value : α}
    (h : outcome.toOption.map f = some value) : ∃ reading, outcome = .ok reading ∧ f reading = value := by
  cases outcome with
  | error => cases h
  | ok reading => exact ⟨reading, rfl, Option.some.inj h⟩

/-- A name with and without a type and an identity, and two sources that differ in their layout, in parentheses and in
    how a number is written. -/
theorem compact_determines_of_groups :
    let declared : Tree := .unary ⟨1, 1⟩ .negate (.var ⟨1, 2⟩ "x" (some ⟨.int, true⟩) (some 7))
    let used : Tree := .unary ⟨4, 1⟩ .negate (.var ⟨4, 5⟩ "x" none none)
    let source := "join(|) returns() locals() \x7b\x7d sequential(int x) returns(x) locals() x = x - 1.5;"
    let source' := "join(|)returns()locals()\x7b\x7d\nsequential(int x)returns(x)locals()\n  x = ((x) - (1));"
    let text := "(program (join () () () () (block)) (sequential ((arg int x)) (x) () (= x (- x 1))))"
    declared.compact = "(- x)" ∧ declared.bare = used.bare ∧
      ∃ reading reading' : Reading, ofSource .truncate source = .ok reading ∧ ofSource .reject source' = .ok reading' ∧
        reading.program.compact = text ∧ reading.program.unplaced = reading'.program.unplaced := by
  intro declared used source source' text
  have hx : ∀ loc type id, (Tree.var loc "x" type id).Names fun name => isName name = true := fun loc type id =>
    .node (by rintro _ ⟨⟩; decide) (by simp [Tree.children])
  have hdeclared : declared.Names fun name => isName name = true :=
    .node nofun (by simpa [declared, Tree.children] using hx _ _ _)
  have hused : used.Names fun name => isName name = true := .node nofun (by simpa [used, Tree.children] using hx _ _ _)
  obtain ⟨reading, hread, htext⟩ := exists_of_map_eq_some
    (by decide +kernel : (ofSource .truncate source).toOption.map (fun reading => reading.program.compact) = some text)
  obtain ⟨reading', hread', htext'⟩ := exists_of_map_eq_some
    (by decide +kernel : (ofSource .reject source').toOption.map (fun reading => reading.program.compact) = some text)
  exact ⟨by decide +kernel, compact_determines.1 declared used hdeclared hused (by decide +kernel), reading, reading',
    hread, hread', htext, compact_determines.2 _ _ _ _ _ _ hread hread' (htext.trans htext'.symm)⟩

end Reading

end RoutineSpec
