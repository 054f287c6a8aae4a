import RoutineSpec.Proofs.Spelling
import RoutineSpec.Tree.Children

/-! # What a text is made of

The texts that are written for trees consist of words, numbers and signs, with punctuation between them. A run of
characters of one sort ends where another sort follows, so a text falls apart in one way only. And what a run spells
can be told from it.
-/

namespace RoutineSpec

/-! ## Where runs end -/

theorem run_append_inj {p : Char → Bool} {run run' rest rest' : List Char} (h : run ++ rest = run' ++ rest')
    (hrun : ∀ c ∈ run, p c = true) (hrun' : ∀ c ∈ run', p c = true) (hrest : ∀ c ∈ rest.head?, p c = false)
    (hrest' : ∀ c ∈ rest'.head?, p c = false) : run = run' ∧ rest = rest' := by
  constructor
  · rw [← takeWhile_append_of_head hrun hrest, h, takeWhile_append_of_head hrun' hrest']
  · rw [← dropWhile_append_of_head hrun hrest, h, dropWhile_append_of_head hrun' hrest']

theorem intercalate_cons (sep item : List Char) (items : List (List Char)) :
    sep.intercalate (item :: items) = item ++ items.flatMap fun next => sep ++ next := by
  induction items generalizing item with
  | nil => simp
  | cons next items ih => rw [List.intercalate_cons_cons, ih, List.flatMap_cons, List.append_assoc, List.append_assoc]

/-- Items are told apart by the separator between them if none of them has its first character. -/
theorem intercalate_inj {c : Char} {more : List Char} {items items' : List (List Char)} (hsome : items ≠ [])
    (hsome' : items' ≠ []) (hitems : ∀ item ∈ items, ∀ d ∈ item, d ≠ c) (hitems' : ∀ item ∈ items', ∀ d ∈ item, d ≠ c)
    (h : (c :: more).intercalate items = (c :: more).intercalate items') : items = items' := by
  induction items generalizing items' with
  | nil => exact absurd rfl hsome
  | cons item rest ih =>
    obtain ⟨item', rest', rfl⟩ := List.exists_cons_of_ne_nil hsome'
    obtain ⟨hitem, hrest⟩ := List.forall_mem_cons.1 hitems
    obtain ⟨hitem', hrest'⟩ := List.forall_mem_cons.1 hitems'
    cases rest with
    | nil =>
      cases rest' with
      | nil => simpa using h
      | cons =>
        rw [List.intercalate_singleton, List.intercalate_cons_cons] at h
        exact absurd rfl (hitem c (by simp [h]))
    | cons next rest =>
      cases rest' with
      | nil =>
        rw [List.intercalate_singleton, List.intercalate_cons_cons] at h
        exact absurd rfl (hitem' c (by simp [← h]))
      | cons next' rest' =>
        rw [List.intercalate_cons_cons, List.intercalate_cons_cons, List.append_assoc, List.append_assoc] at h
        obtain ⟨rfl, hbehind⟩ := run_append_inj (p := fun d => d != c) h (by simpa using hitem)
          (by simpa using hitem') (by simp) (by simp)
        rw [ih (by simp) (by simp) hrest hrest' (List.append_cancel_left hbehind)]

/-! ## What runs spell -/

/-- The character is no punctuation between words, numbers and signs. -/
def isPlain (c : Char) : Bool :=
  !(c == ' ' || c == ',' || c == '(' || c == ')')

theorem isPlain_of_isWordChar {c : Char} (h : isWordChar c = true) : isPlain c = true := by
  simp only [isPlain, Bool.not_eq_true', Bool.or_eq_false_iff, beq_eq_false_iff_ne]
  refine ⟨⟨⟨?_, ?_⟩, ?_⟩, ?_⟩ <;> rintro rfl <;> cases h

theorem IsWord.plain {text : List Char} (h : IsWord text) : ∀ c ∈ text, isPlain c = true :=
  fun c hc => isPlain_of_isWordChar (h.all c hc)

theorem IsWord.exists_cons {text : List Char} (h : IsWord text) :
    ∃ c cs, text = c :: cs ∧ isWordStart c = true := by
  cases h with
  | cons hstart => exact ⟨_, _, rfl, hstart⟩

theorem isWord_iff {text : List Char} :
    IsWord text ↔ (text.head?.any isWordStart && text.all isWordChar) = true := by
  rw [Bool.and_eq_true, List.all_eq_true]
  constructor
  · intro h
    refine ⟨?_, h.all⟩
    cases h with
    | cons hstart => exact hstart
  · rintro ⟨hstart, hall⟩
    cases text with
    | nil => cases hstart
    | cons c cs => exact .cons hstart fun d hd => hall d (List.mem_cons_of_mem _ hd)

instance : DecidablePred IsWord := fun _ => decidable_of_iff' _ isWord_iff

theorem isDigit_of_mem_repr {n : Nat} {c : Char} (h : c ∈ n.repr.toList) : c.isDigit = true := by
  rw [Nat.toList_repr] at h
  exact Nat.isDigit_of_mem_toDigits (by decide) (by decide) h

theorem repr_injective : Function.Injective Nat.repr := by
  intro n m h
  have htext := congrArg String.toList h
  rw [Nat.toList_repr, Nat.toList_repr] at htext
  rw [← @Nat.ofDigitChars_ten_toDigits n, htext, Nat.ofDigitChars_ten_toDigits]

theorem isWord_truthWord (value : Bool) : IsWord (truthWord value).toList := by
  cases value
  · exact Terminal.isWord_of_keyword .false_
  · exact Terminal.isWord_of_keyword .true_

theorem truthWord_injective : Function.Injective truthWord := by
  intro value other h
  cases value <;> cases other <;> first | rfl | simp [truthWord] at h

theorem Mark.spelling_injective : Function.Injective Mark.spelling := by
  intro sign other h
  have hsign := Mark.ofSpelling?_spelling sign
  rw [h, Mark.ofSpelling?_spelling] at hsign
  exact (Option.some.inj hsign).symm

theorem BinaryOp.spelling_injective : Function.Injective BinaryOp.spelling := by
  intro op other h
  have hop := BinaryOp.ofMark?_mark op
  rw [Mark.spelling_injective h, BinaryOp.ofMark?_mark] at hop
  exact (Option.some.inj hop).symm

theorem UnaryOp.spelling_injective : Function.Injective UnaryOp.spelling := by
  intro op other h
  have hop := UnaryOp.ofMark?_mark op
  rw [Mark.spelling_injective h, UnaryOp.ofMark?_mark] at hop
  exact (Option.some.inj hop).symm

theorem BaseType.spelling_injective : Function.Injective BaseType.spelling := by
  intro base other h
  cases base <;> cases other <;> first | rfl | simp [spelling, keyword, Keyword.spelling] at h

theorem DataType.spelling_injective : Function.Injective DataType.spelling := by
  rintro ⟨base, pointer⟩ ⟨other, points⟩ h
  cases base <;> cases pointer <;> cases other <;> cases points <;> first | rfl | exact absurd h (by decide)

/-- The digits of a number are no word. -/
theorem exists_repr (n : Nat) :
    ∃ c cs, n.repr.toList = c :: cs ∧ isWordStart c = false ∧ c ≠ '-' ∧ ∀ d ∈ n.repr.toList, isPlain d = true := by
  obtain ⟨c, cs, htext⟩ := List.exists_cons_of_ne_nil (Terminal.isNumber_toDigits n).nonempty
  rw [← Nat.toList_repr] at htext
  have hdigit : c.isDigit = true := isDigit_of_mem_repr (htext ▸ List.mem_cons_self)
  refine ⟨c, cs, htext, isWordStart_of_isDigit hdigit, ?_, fun d hd =>
    isPlain_of_isWordChar (isWordChar_of_isDigit (isDigit_of_mem_repr hd))⟩
  rintro rfl
  cases hdigit

/-- A number has digits only, or a sign and then digits. -/
theorem toString_int_cases (value : Int) :
    (∃ n : Nat, value = n ∧ (toString value).toList = n.repr.toList) ∨
      ∃ n : Nat, value = -(n : Int) ∧ (toString value).toList = '-' :: n.repr.toList := by
  cases value with
  | ofNat n => exact .inl ⟨n, rfl, rfl⟩
  | negSucc n => exact .inr ⟨n + 1, rfl, by simp [Int.toString_eq_repr, Int.repr]⟩

theorem toString_int_injective : Function.Injective (toString : Int → String) := by
  intro value other h
  obtain ⟨n, rfl, htext⟩ | ⟨n, rfl, htext⟩ := toString_int_cases value <;>
    obtain ⟨m, rfl, htext'⟩ | ⟨m, rfl, htext'⟩ := toString_int_cases other <;> rw [h, htext'] at htext
  · rw [repr_injective (String.toList_inj.1 htext)]
  · obtain ⟨c, cs, hdigits, -, hsign, -⟩ := exists_repr n
    rw [hdigits] at htext
    exact absurd (List.cons.inj htext).1.symm hsign
  · obtain ⟨c, cs, hdigits, -, hsign, -⟩ := exists_repr m
    rw [hdigits] at htext
    exact absurd (List.cons.inj htext).1 hsign
  · rw [repr_injective (String.toList_inj.1 (List.cons.inj htext).2)]

theorem exists_toString_int (value : Int) :
    ∃ c cs, (toString value).toList = c :: cs ∧ isWordStart c = false ∧
      ∀ d ∈ (toString value).toList, isPlain d = true := by
  obtain ⟨n, -, htext⟩ | ⟨n, -, htext⟩ := toString_int_cases value
  · obtain ⟨c, cs, hdigits, hstart, -, hplain⟩ := exists_repr n
    exact ⟨c, cs, htext.trans hdigits, hstart, htext ▸ hplain⟩
  · obtain ⟨c, cs, hdigits, -, -, hplain⟩ := exists_repr n
    exact ⟨'-', n.repr.toList, htext, rfl, htext ▸ List.forall_mem_cons.2 ⟨rfl, hplain⟩⟩

/-- An integer does not start like a word. -/
theorem toString_int_ne {text : String} (h : ∃ c cs, text.toList = c :: cs ∧ isWordStart c = true) (value : Int) :
    toString value ≠ text := by
  rintro rfl
  obtain ⟨c, cs, htext, hstart⟩ := h
  obtain ⟨d, ds, htext', hstart', -⟩ := exists_toString_int value
  rw [htext] at htext'
  cases htext'
  rw [hstart] at hstart'
  cases hstart'

theorem Literal.spelling_injective : Function.Injective Literal.spelling := by
  have hdiffer : ∀ (value : Int) (truth : Bool), toString value ≠ truthWord truth := fun value truth =>
    toString_int_ne (isWord_truthWord truth).exists_cons value
  intro literal other h
  cases literal with
  | int value =>
    cases other with
    | int other => exact congrArg _ (toString_int_injective h)
    | bool truth => exact absurd h (hdiffer value truth)
  | bool truth =>
    cases other with
    | int value => exact absurd h.symm (hdiffer value truth)
    | bool other => exact congrArg _ (truthWord_injective h)

theorem Literal.plain_spelling (literal : Literal) : ∀ c ∈ literal.spelling.toList, isPlain c = true := by
  cases literal with
  | int value =>
    obtain ⟨c, cs, -, -, hplain⟩ := exists_toString_int value
    exact hplain
  | bool truth => exact (isWord_truthWord truth).plain

theorem BinaryOp.plain_spelling (op : BinaryOp) : ∀ c ∈ op.spelling.toList, isPlain c = true := by
  cases op <;> exact List.all_eq_true.1 rfl

theorem UnaryOp.plain_spelling (op : UnaryOp) : ∀ c ∈ op.spelling.toList, isPlain c = true := by
  cases op <;> exact List.all_eq_true.1 rfl

theorem DataType.plain_spelling (type : DataType) : ∀ c ∈ type.spelling.toList, isPlain c = true := by
  obtain ⟨base, pointer⟩ := type
  cases base <;> cases pointer <;> exact List.all_eq_true.1 rfl

theorem DataType.exists_spelling (type : DataType) :
    ∃ c cs, type.spelling.toList = c :: cs ∧ isWordStart c = true := by
  obtain ⟨base, pointer⟩ := type
  cases base <;> cases pointer <;> exact ⟨_, _, rfl, rfl⟩

/-! ## Names in trees -/

/-- The name that a tree holds itself. -/
def Tree.name? : Tree → Option String
  | .var _ name _ _ | .call _ name _ => some name
  | _ => none

/-- All names in the tree are legal. -/
inductive Tree.Names (legal : String → Prop) : Tree → Prop where
  | node {tree} :
      (∀ name, tree.name? = some name → legal name) →
      (∀ node ∈ tree.children.map Child.node, Names legal node) →
      Names legal tree

namespace Tree.Names

variable {legal : String → Prop} {tree : Tree}

theorem name (h : tree.Names legal) : ∀ name, tree.name? = some name → legal name := by
  cases h with
  | node hname => exact hname

theorem child (h : tree.Names legal) : ∀ node ∈ tree.children.map Child.node, node.Names legal := by
  cases h with
  | node _ hchild => exact hchild

end Tree.Names

end RoutineSpec
