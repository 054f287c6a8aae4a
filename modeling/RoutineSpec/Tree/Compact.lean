import RoutineSpec.Tree

/-! # Compact text

The one-line text of a tree: a name or literal stands alone, anything else is a parenthesised list that
its operator or a keyword heads. The text goes through the nested form that it spells, so that what the
lists are and how they are written stay apart. Places, declared types and identities of names are not
shown.
-/

namespace RoutineSpec

/-- Nested lists of words. -/
inductive Form where
  | atom (text : String)
  | list (items : List Form)

namespace Form

mutual

/-- The text of a form: the items of a list stand in parentheses with a space between two of them. -/
def text : Form → String
  | .atom text => text
  | .list items => "(" ++ " ".intercalate (texts items) ++ ")"

/-- The texts of several forms. -/
def texts : List Form → List String
  | [] => []
  | form :: forms => form.text :: texts forms

end

theorem texts_eq_map (forms : List Form) : texts forms = forms.map text := by
  induction forms with
  | nil => rfl
  | cons form forms ih => simp [texts, ih]

end Form

namespace Tree

mutual

/-- The nested form that stands for a tree. -/
def form : Tree → Form
  | .var _ name _ _ => .atom name
  | .constant _ value => .atom value.spelling
  | .binary _ op left right => .list [.atom op.spelling, left.form, right.form]
  | .unary _ op operand => .list [.atom op.spelling, operand.form]
  | .call _ name args => .list (.atom "call" :: .atom name :: forms args)
  | .index _ base subscript => .list [.atom "index", base.form, subscript.form]
  | .conditional _ condition onTrue onFalse =>
    .list [.atom "?", condition.form, onTrue.form, onFalse.form]
  | .block _ statements => .list (.atom "block" :: forms statements)
  | .assignment _ target value => .list [.atom "=", target.form, value.form]
  | .ifThen _ condition onTrue => .list [.atom "if", condition.form, onTrue.form]
  | .ifThenElse _ condition onTrue onFalse =>
    .list [.atom "if", condition.form, onTrue.form, onFalse.form]
  | .iteration _ init guard update body =>
    .list [.atom "for", init.form, guard.form, update.form, body.form]
  | .dataType _ type => .atom type.spelling
  | .argument _ type name => .list [.atom "arg", type.form, name.form]
  | .joinSpec _ left right returns locals body =>
    .list [.atom "join", .list (forms left), .list (forms right), .list (forms returns),
      .list (forms locals), body.form]
  | .sequentialSpec _ args returns locals body =>
    .list [.atom "sequential", .list (forms args), .list (forms returns), .list (forms locals),
      body.form]
  | .program _ join sequential => .list [.atom "program", join.form, sequential.form]

/-- The forms of several trees. -/
def forms : List Tree → List Form
  | [] => []
  | tree :: trees => tree.form :: forms trees

end

theorem forms_eq_map (trees : List Tree) : forms trees = trees.map form := by
  induction trees with
  | nil => rfl
  | cons tree trees ih => simp [forms, ih]

/-- The compact text of a tree. -/
def compact (tree : Tree) : String :=
  tree.form.text

end Tree

end RoutineSpec
