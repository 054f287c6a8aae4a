import RoutineSpec.Proofs.Acceptance
import RoutineSpec.Proofs.Expressible
import RoutineSpec.Proofs.LocationOrder
import RoutineSpec.Proofs.Retracing

/-! # A program is in the order of its source

The places of the words of a program, read from left to right, increase, but for the two places where an increment has its
name. Each word is written in the source, but for the zero of an increment. A name has a type where it is declared, and
nowhere else.
-/

namespace RoutineSpec

theorem Lexeme.Denotes.loc_eq {lexeme : Lexeme} {tree : Tree} (h : lexeme.Denotes tree) : tree.loc = lexeme.loc := by
  cases h <;> rfl

theorem Lexeme.Denotes.isWord {lexeme : Lexeme} {tree : Tree} (h : lexeme.Denotes tree) : tree.isWord = true := by
  cases h <;> rfl

/-- An increment is visited, and its name and its two signs are written one behind the other. -/
structure Increments (lexemes : List Lexeme) (visits : List Visit) (path : List Slot) (loc : Location) (name : String)
    (op : BinaryOp) (first : Location) : Prop where
  visited : ⟨path, .increment loc name op first⟩ ∈ visits
  sign : op = .add ∨ op = .sub
  written : ∃ second, first.Touches second ∧ incrementSpan loc name op first second <:+: lexemes

namespace Visit

/-- The two visits are to the name of an increment: to what is assigned to, and to its copy on the right. -/
def Doubles (lexemes : List Lexeme) (visits : List Visit) (target copy : Visit) : Prop :=
  ∃ path loc name op first, Increments lexemes visits path loc name op first ∧
    target = ⟨path ++ [⟨"lvalue", none⟩], .var loc name none none⟩ ∧
    copy = ⟨path ++ [⟨"rvalue", none⟩, ⟨"lexpr", none⟩], .var loc name none none⟩

/-- The visit is to the zero of an increment, which is at the first sign. -/
def Supplies (lexemes : List Lexeme) (visits : List Visit) (zero : Visit) : Prop :=
  ∃ path loc name op first, Increments lexemes visits path loc name op first ∧
    zero = ⟨path ++ [⟨"rvalue", none⟩, ⟨"rexpr", none⟩], .constant first (.int 0)⟩

/-- The one word is in front of the other one, or an increment doubles its name. -/
def Before (lexemes : List Lexeme) (visits : List Visit) (visit later : Visit) : Prop :=
  visit.node.loc < later.node.loc ∨ visit.node.loc = later.node.loc ∧ visit.Doubles lexemes visits later

/-- The visit is to a word that is among the lexemes, or to the zero of an increment. -/
def Written (lexemes : List Lexeme) (visits : List Visit) (visit : Visit) : Prop :=
  (∃ lexeme ∈ lexemes, lexeme.Denotes visit.node) ∨ visit.Supplies lexemes visits

/-- The visit is to the name of a declaration, `type` being what the declaration has for its type. -/
def DeclaredBy (visits : List Visit) (visit : Visit) (type : Tree) : Prop :=
  ∃ path loc, visit.path = path ++ [⟨"name", none⟩] ∧ ⟨path, .argument loc type visit.node⟩ ∈ visits

end Visit

section Mono

variable {lexemes more : List Lexeme} {visits others : List Visit} {path : List Slot} {loc first : Location}
  {name : String} {op : BinaryOp} {visit copy : Visit}

theorem Increments.mono (h : Increments lexemes visits path loc name op first) (hlexemes : lexemes <:+: more)
    (hvisits : visits ⊆ others) : Increments more others path loc name op first where
  visited := hvisits h.visited
  sign := h.sign
  written := by
    obtain ⟨second, htouch, hspan⟩ := h.written
    exact ⟨second, htouch, hspan.trans hlexemes⟩

theorem Visit.Doubles.mono (h : visit.Doubles lexemes visits copy) (hlexemes : lexemes <:+: more)
    (hvisits : visits ⊆ others) : visit.Doubles more others copy := by
  obtain ⟨path, loc, name, op, first, hincrement, hpair⟩ := h
  exact ⟨path, loc, name, op, first, hincrement.mono hlexemes hvisits, hpair⟩

theorem Visit.Before.mono (h : visit.Before lexemes visits copy) (hlexemes : lexemes <:+: more)
    (hvisits : visits ⊆ others) : visit.Before more others copy :=
  h.imp_right fun ⟨hloc, hdoubles⟩ => ⟨hloc, hdoubles.mono hlexemes hvisits⟩

theorem Visit.Supplies.mono (h : visit.Supplies lexemes visits) (hlexemes : lexemes <:+: more)
    (hvisits : visits ⊆ others) : visit.Supplies more others := by
  obtain ⟨path, loc, name, op, first, hincrement, hzero⟩ := h
  exact ⟨path, loc, name, op, first, hincrement.mono hlexemes hvisits, hzero⟩

theorem Visit.Written.mono (h : visit.Written lexemes visits) (hlexemes : lexemes <:+: more)
    (hvisits : visits ⊆ others) : visit.Written more others := by
  rcases h with ⟨lexeme, hmem, hdenotes⟩ | hzero
  · exact .inl ⟨lexeme, hlexemes.subset hmem, hdenotes⟩
  · exact .inr (hzero.mono hlexemes hvisits)

end Mono

theorem Tree.visitsFrom_increment (path : List Slot) (loc : Location) (name : String) (op : BinaryOp)
    (first : Location) :
    visitsFrom path (.increment loc name op first) =
      [⟨path, .increment loc name op first⟩,
        ⟨path ++ [⟨"lvalue", none⟩], .var loc name none none⟩,
        ⟨path ++ [⟨"rvalue", none⟩], .binary first op (.var loc name none none) (.constant first (.int 0))⟩,
        ⟨path ++ [⟨"rvalue", none⟩, ⟨"lexpr", none⟩], .var loc name none none⟩,
        ⟨path ++ [⟨"rvalue", none⟩, ⟨"rexpr", none⟩], .constant first (.int 0)⟩] := by
  simp [visitsFrom_eq_visits, increment, children, Child.visits, Child.only]

/-- The visits to words. -/
def words (visits : List Visit) : List Visit :=
  visits.filter fun visit => visit.node.isWord

theorem mem_words_iff {visits : List Visit} {visit : Visit} :
    visit ∈ words visits ↔ visit ∈ visits ∧ visit.node.isWord = true :=
  List.mem_filter

theorem words_cons {visits : List Visit} {visit : Visit} (h : visit.node.isWord = true) :
    words (visit :: visits) = visit :: words visits := by
  simp [words, h]

theorem words_cons_inner {visits : List Visit} {visit : Visit} (h : visit.node.isWord = false) :
    words (visit :: visits) = words visits := by
  simp [words, h]

theorem words_increment (path : List Slot) (loc : Location) (name : String) (op : BinaryOp) (first : Location)
    (visits : List Visit) :
    words (Tree.visitsFrom path (.increment loc name op first) ++ visits) =
      [⟨path ++ [⟨"lvalue", none⟩], .var loc name none none⟩,
        ⟨path ++ [⟨"rvalue", none⟩, ⟨"lexpr", none⟩], .var loc name none none⟩,
        ⟨path ++ [⟨"rvalue", none⟩, ⟨"rexpr", none⟩], .constant first (.int 0)⟩] ++ words visits := by
  rw [Tree.visitsFrom_increment]
  simp [words, Tree.isWord, Tree.increment]

namespace Retraces

variable {lexemes : List Lexeme} {visits : List Visit}

/-- The increment that a step retraces. -/
theorem increments {path : List Slot} {loc first second : Location} {name : String} {op : BinaryOp}
    (hsign : op = .add ∨ op = .sub) (htouch : first.Touches second) :
    Increments (incrementSpan loc name op first second ++ lexemes)
      (Tree.visitsFrom path (.increment loc name op first) ++ visits) path loc name op first where
  visited := by simp [Tree.visitsFrom_increment]
  sign := hsign
  written := ⟨second, htouch, (List.prefix_append _ _).isInfix⟩

/-- Every word that is visited is written, but for the zeros of increments. -/
theorem written (h : Retraces lexemes visits) :
    ∀ visit ∈ visits, visit.node.isWord = true → visit.Written lexemes visits := by
  induction h with
  | nil =>
    intro visit hmem
    cases hmem
  | pass _ ih =>
    intro visit hmem hword
    exact (ih visit hmem hword).mono (List.suffix_cons _ _).isInfix (List.Subset.refl _)
  | inner hinner _ ih =>
    intro visit hmem hword
    rcases List.mem_cons.1 hmem with rfl | hmem
    · rw [hinner] at hword
      cases hword
    · exact (ih visit hmem hword).mono (List.infix_refl _) (List.subset_cons_self _ _)
  | word hdenotes _ ih =>
    intro visit hmem hword
    rcases List.mem_cons.1 hmem with rfl | hmem
    · exact .inl ⟨_, List.mem_cons_self, hdenotes⟩
    · exact (ih visit hmem hword).mono (List.suffix_cons _ _).isInfix (List.subset_cons_self _ _)
  | @increment path loc name op first second lexemes visits hsign htouch _ ih =>
    intro visit hmem hword
    rcases List.mem_append.1 hmem with hown | hmem
    · rw [Tree.visitsFrom_increment] at hown
      simp only [List.mem_cons, List.not_mem_nil, or_false] at hown
      rcases hown with rfl | rfl | rfl | rfl | rfl
      · cases hword
      · exact .inl ⟨⟨.identifier name, loc⟩, List.mem_cons_self, .var⟩
      · cases hword
      · exact .inl ⟨⟨.identifier name, loc⟩, List.mem_cons_self, .var⟩
      · exact .inr ⟨path, loc, name, op, first, increments hsign htouch, rfl⟩
    · exact (ih visit hmem hword).mono (List.suffix_append _ _).isInfix (List.subset_append_right _ _)

/-- Every word that is visited is at the place of a lexeme. -/
theorem loc_mem (h : Retraces lexemes visits) {visit : Visit} (hmem : visit ∈ visits)
    (hword : visit.node.isWord = true) : visit.node.loc ∈ lexemes.map Lexeme.loc := by
  rcases h.written visit hmem hword with ⟨lexeme, hlexeme, hdenotes⟩ | ⟨path, loc, name, op, first, hincrement, rfl⟩
  · exact hdenotes.loc_eq ▸ List.mem_map_of_mem hlexeme
  · obtain ⟨second, -, hspan⟩ := hincrement.written
    exact List.mem_map_of_mem (hspan.subset (a := ⟨.mark op.mark, first⟩) (by simp [incrementSpan]))

/-- The words that are visited are in the order of their places, and two of them are at one place only where an increment
    doubles its name. -/
theorem ordered (h : Retraces lexemes visits) (hincreasing : (lexemes.map Lexeme.loc).Pairwise (· < ·)) :
    (words visits).Pairwise (Visit.Before lexemes visits) := by
  induction h with
  | nil => exact .nil
  | pass _ ih =>
    refine (ih hincreasing.of_cons).imp fun hbefore => ?_
    exact hbefore.mono (List.suffix_cons _ _).isInfix (List.Subset.refl _)
  | inner hinner _ ih =>
    rw [words_cons_inner hinner]
    refine (ih hincreasing).imp fun hbefore => ?_
    exact hbefore.mono (List.infix_refl _) (List.subset_cons_self _ _)
  | word hdenotes hvisits ih =>
    obtain ⟨hfirst, hothers⟩ := List.pairwise_cons.1 hincreasing
    rw [words_cons hdenotes.isWord]
    constructor
    · intro later hmem
      obtain ⟨hmem, hword⟩ := mem_words_iff.1 hmem
      exact .inl (hdenotes.loc_eq ▸ hfirst _ (hvisits.loc_mem hmem hword))
    · refine (ih hothers).imp fun hbefore => ?_
      exact hbefore.mono (List.suffix_cons _ _).isInfix (List.subset_cons_self _ _)
  | @increment path loc name op first second lexemes visits hsign htouch hvisits ih =>
    rw [List.map_append] at hincreasing
    obtain ⟨hspan, hothers, hacross⟩ := List.pairwise_append.1 hincreasing
    have hincrement : Increments (incrementSpan loc name op first second ++ lexemes)
        (Tree.visitsFrom path (.increment loc name op first) ++ visits) path loc name op first :=
      increments hsign htouch
    -- The zero is at the first sign, behind both places of the name and in front of whatever follows.
    have hfirst : loc < first := (List.pairwise_cons.1 hspan).1 first (by simp)
    rw [words_increment]
    refine List.pairwise_append.2 ⟨?own, ?others, ?across⟩
    case own =>
      refine .cons (fun later hmem => ?_) (.cons (fun later hmem => ?_) (List.pairwise_singleton _ _))
      · simp only [List.mem_cons, List.not_mem_nil, or_false] at hmem
        rcases hmem with rfl | rfl
        · exact .inr ⟨rfl, path, loc, name, op, first, hincrement, rfl, rfl⟩
        · exact .inl hfirst
      · rw [List.mem_singleton.1 hmem]
        exact .inl hfirst
    case others =>
      refine (ih hothers).imp fun hbefore => ?_
      exact hbefore.mono (List.suffix_append _ _).isInfix (List.subset_append_right _ _)
    case across =>
      intro visit hown later hmem
      obtain ⟨hmem, hword⟩ := mem_words_iff.1 hmem
      have hbehind := fun place hplace => hacross place hplace _ (hvisits.loc_mem hmem hword)
      simp only [List.mem_cons, List.not_mem_nil, or_false] at hown
      rcases hown with rfl | rfl | rfl
      · exact .inl (hbehind loc (by simp [incrementSpan]))
      · exact .inl (hbehind loc (by simp [incrementSpan]))
      · exact .inl (hbehind first (by simp [incrementSpan]))

end Retraces

/-! ## Declared names -/

/-- A name has no identity, and a type only where it is declared; and a declaration gives its name its type. -/
def Visit.Settled (visits : List Visit) (visit : Visit) : Prop :=
  match visit.node with
  | .var _ _ type id => id = none ∧ (type.isSome = true → ∃ typeTree, visit.DeclaredBy visits typeTree)
  | .argument .. => Expressible.Argument .any visit.node
  | _ => True

theorem Visit.Settled.mono {visits others : List Visit} {visit : Visit} (h : visit.Settled visits)
    (hvisits : visits ⊆ others) : visit.Settled others := by
  unfold Settled at *
  split at h
  · obtain ⟨hid, htype⟩ := h
    refine ⟨hid, fun hsome => ?_⟩
    obtain ⟨typeTree, path, loc, hpath, hmem⟩ := htype hsome
    exact ⟨typeTree, path, loc, hpath, hvisits hmem⟩
  · exact h
  · trivial

/-- Wherever the tree stands, the names in it are settled. -/
def Tree.Settled (tree : Tree) : Prop :=
  ∀ path, ∀ visit ∈ tree.visitsFrom path, visit.Settled (tree.visitsFrom path)

theorem Tree.settled_of_children {tree : Tree} (hroot : ∀ path visits, Visit.Settled visits ⟨path, tree⟩)
    (h : ∀ child ∈ tree.children, child.node.Settled) : tree.Settled := by
  intro path visit hmem
  rw [visitsFrom_eq] at hmem ⊢
  rcases List.mem_cons.1 hmem with rfl | hmem
  · exact hroot path _
  · obtain ⟨child, hchild, hbelow⟩ := List.mem_flatMap.1 hmem
    refine (h child hchild _ visit hbelow).mono fun other hother => ?_
    exact List.mem_cons_of_mem _ (List.mem_flatMap.2 ⟨child, hchild, hother⟩)

theorem Child.settled_each {name : String} {nodes : List Tree} (h : ∀ node ∈ nodes, node.Settled) :
    ∀ child ∈ each name nodes, child.node.Settled :=
  fun _ hmem => h _ (node_mem_of_mem_each hmem)

namespace Expressible

variable {tree : Tree}

theorem Expression.settled (h : Expression .any tree) : tree.Settled := by
  induction h with
  | var => exact Tree.settled_of_children (fun _ _ => ⟨rfl, by simp⟩) (by simp [Tree.children])
  | integer | truth => exact Tree.settled_of_children (fun _ _ => trivial) (by simp [Tree.children])
  | unary _ ih => exact Tree.settled_of_children (fun _ _ => trivial) (by simpa [Tree.children, Child.only] using ih)
  | binary _ _ ihl ihr | index _ _ ihl ihr =>
    exact Tree.settled_of_children (fun _ _ => trivial) (by simp [Tree.children, Child.only, ihl, ihr])
  | conditional _ _ _ ihc iht ihf =>
    exact Tree.settled_of_children (fun _ _ => trivial) (by simp [Tree.children, Child.only, ihc, iht, ihf])
  | call _ _ ih => exact Tree.settled_of_children (fun _ _ => trivial) (Child.settled_each ih)

theorem Statement.settled (h : Statement .any tree) : tree.Settled := by
  induction h with
  | assignment target value =>
    exact Tree.settled_of_children (fun _ _ => trivial)
      (by simp [Tree.children, Child.only, target.settled, value.settled])
  | ifThen condition _ iht =>
    exact Tree.settled_of_children (fun _ _ => trivial) (by simp [Tree.children, Child.only, condition.settled, iht])
  | ifThenElse condition _ _ _ iht ihf =>
    exact Tree.settled_of_children (fun _ _ => trivial)
      (by simp [Tree.children, Child.only, condition.settled, iht, ihf])
  | iteration _ _ _ guard _ _ _ _ ihi ihu ihb =>
    exact Tree.settled_of_children (fun _ _ => trivial)
      (by simp [Tree.children, Child.only, guard.settled, ihi, ihu, ihb])
  | block _ ih => exact Tree.settled_of_children (fun _ _ => trivial) (Child.settled_each ih)

theorem Argument.settled (h : Argument .any tree) : tree.Settled := by
  intro path visit hmem
  cases h with
  | @declaration loc typeLoc nameLoc type name hname =>
    have hvisits : Tree.visitsFrom path (.argument loc (.dataType typeLoc type) (.var nameLoc name (some type) none)) =
        [⟨path, .argument loc (.dataType typeLoc type) (.var nameLoc name (some type) none)⟩,
          ⟨path ++ [⟨"type", none⟩], .dataType typeLoc type⟩,
          ⟨path ++ [⟨"name", none⟩], .var nameLoc name (some type) none⟩] := by
      simp [Tree.visitsFrom_eq_visits, Tree.children, Child.visits, Child.only]
    rw [hvisits] at hmem ⊢
    simp only [List.mem_cons, List.not_mem_nil, or_false] at hmem
    rcases hmem with rfl | rfl | rfl
    · exact .declaration hname
    · trivial
    · exact ⟨rfl, fun _ => ⟨_, path, loc, rfl, List.mem_cons_self⟩⟩

theorem Returned.settled (h : Returned .any tree) : tree.Settled := by
  cases h with
  | name => exact Tree.settled_of_children (fun _ _ => ⟨rfl, by simp⟩) (by simp [Tree.children])

theorem JoinSpec.settled (h : JoinSpec .any tree) : tree.Settled := by
  cases h with
  | join hleft hright hreturned hlocals hbody =>
    refine Tree.settled_of_children (fun _ _ => trivial) ?_
    simp only [Tree.children, List.forall_mem_append, List.forall_mem_singleton]
    refine ⟨⟨⟨⟨?left, ?right⟩, ?returned⟩, ?locals⟩, hbody.settled⟩
    case left => exact Child.settled_each fun arg hmem => (hleft arg hmem).settled
    case right => exact Child.settled_each fun arg hmem => (hright arg hmem).settled
    case returned => exact Child.settled_each fun name hmem => (hreturned name hmem).settled
    case locals => exact Child.settled_each fun arg hmem => (hlocals arg hmem).settled

theorem SequentialSpec.settled (h : SequentialSpec .any tree) : tree.Settled := by
  cases h with
  | sequential hargs hreturned hlocals hbody =>
    refine Tree.settled_of_children (fun _ _ => trivial) ?_
    simp only [Tree.children, List.forall_mem_append, List.forall_mem_singleton]
    refine ⟨⟨⟨?args, ?returned⟩, ?locals⟩, hbody.settled⟩
    case args => exact Child.settled_each fun arg hmem => (hargs arg hmem).settled
    case returned => exact Child.settled_each fun name hmem => (hreturned name hmem).settled
    case locals => exact Child.settled_each fun arg hmem => (hlocals arg hmem).settled

theorem Program.settled (h : Program .any tree) : tree.Settled := by
  cases h with
  | program join sequential =>
    exact Tree.settled_of_children (fun _ _ => trivial)
      (by simp [Tree.children, Child.only, join.settled, sequential.settled])

end Expressible

/-- A name has a type if and only if it is declared, and then the type is that of its declaration. -/
theorem Tree.Settled.type_iff {tree : Tree} (h : tree.Settled) {visit : Visit} (hmem : visit ∈ tree.visits)
    {loc : Location} {name : String} {type : Option DataType} {id : Option Nat}
    (hvar : visit.node = .var loc name type id) :
    id = none ∧ (type.isSome = true ↔ ∃ typeTree, visit.DeclaredBy tree.visits typeTree) ∧
      ∀ typeTree, visit.DeclaredBy tree.visits typeTree → ∃ declared place,
        type = some declared ∧ typeTree = .dataType place declared := by
  have hsettled := h [] visit hmem
  unfold Visit.Settled at hsettled
  rw [hvar] at hsettled
  have hdeclared : ∀ typeTree, visit.DeclaredBy tree.visits typeTree → ∃ declared place,
      type = some declared ∧ typeTree = .dataType place declared := by
    rintro typeTree ⟨path, place, -, hargument⟩
    have harg : Expressible.Argument .any (.argument place typeTree visit.node) := h [] _ hargument
    rw [hvar] at harg
    cases harg with
    | declaration => exact ⟨_, _, rfl, rfl⟩
  refine ⟨hsettled.1, ⟨hsettled.2, fun ⟨typeTree, hby⟩ => ?_⟩, hdeclared⟩
  obtain ⟨declared, -, htype, -⟩ := hdeclared typeTree hby
  rw [htype]
  rfl

namespace Reading

/-- A program that is read, repaired or not, is in the order of its source. From left to right the places of its words
    increase, but for the two of an increment at the place of its name. Every word is written in the source, but for the
    zero of an increment, which is at the first sign. No name has an identity, and a name has a type if and only if it is
    declared, and then that of its declaration. -/
theorem ofSource_in_source_order {policy : DecimalPolicy} {source : String} {reading : Reading}
    (h : ofSource policy source = .ok reading) :
    let lexemes := (Scan.of policy source).lexemes
    let visits := reading.program.visits
    (words visits).Pairwise (Visit.Before lexemes visits) ∧
      (∀ visit ∈ words visits, visit.Written lexemes visits) ∧
      ∀ visit ∈ visits, ∀ loc name type id, visit.node = .var loc name type id →
        id = none ∧ (type.isSome = true ↔ ∃ typeTree, visit.DeclaredBy visits typeTree) ∧
          ∀ typeTree, visit.DeclaredBy visits typeTree → ∃ declared place,
            type = some declared ∧ typeTree = .dataType place declared := by
  intro lexemes visits
  have hexpressible : Expressible.Program .any reading.program := Session.expressible_any_of_finish h
  obtain ⟨next, hdone, -⟩ := Session.finish_eq_ok_iff.1 h
  obtain ⟨read, hread, hretraces⟩ := Grammar.program_retraces [] hdone
  have hwhole : Retraces lexemes visits := by
    have hrest : lexemes = read ++ next.rest := by simpa [Session.ofSource_eq] using hread
    rw [hrest]
    exact hretraces.closed _
  have hincreasing : (lexemes.map Lexeme.loc).Pairwise (· < ·) :=
    (List.pairwise_append.1 (Scan.increasing_of policy source)).1
  refine ⟨hwhole.ordered hincreasing, fun visit hmem => ?_, fun visit hmem loc name type id hvar => ?_⟩
  · obtain ⟨hmem, hword⟩ := mem_words_iff.1 hmem
    exact hwhole.written visit hmem hword
  · exact hexpressible.settled.type_iff hmem hvar

/-- A statement is left out, and an increment is kept behind it. -/
theorem ofSource_in_source_order_of_repaired :
    let source := "join(int a|) returns(a) locals() \x7b a b = 1; a++; \x7d sequential() returns() locals() a = f(a, 2);"
    ∃ reading, ofSource .reject source = .ok reading ∧ reading.repaired = true ∧
      let lexemes := (Scan.of .reject source).lexemes
      let visits := reading.program.visits
      (words visits).Pairwise (Visit.Before lexemes visits) ∧
        (∀ visit ∈ words visits, visit.Written lexemes visits) ∧
        ∀ visit ∈ visits, ∀ loc name type id, visit.node = .var loc name type id →
          id = none ∧ (type.isSome = true ↔ ∃ typeTree, visit.DeclaredBy visits typeTree) ∧
            ∀ typeTree, visit.DeclaredBy visits typeTree → ∃ declared place,
              type = some declared ∧ typeTree = .dataType place declared := by
  intro source
  have hrepaired : (ofSource .reject source).toOption.map repaired = some true := by decide +kernel
  cases hread : ofSource .reject source with
  | error =>
    rw [hread] at hrepaired
    cases hrepaired
  | ok reading =>
    rw [hread] at hrepaired
    exact ⟨reading, rfl, Option.some.inj hrepaired, ofSource_in_source_order hread⟩

end Reading

end RoutineSpec
