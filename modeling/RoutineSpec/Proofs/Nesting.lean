import RoutineSpec.Grammar.Within
import RoutineSpec.Proofs.ProgramSound

/-! # Recovery does not go back behind an error

A compound statement that fails is skipped from its start, by counting brackets. The count follows what the rules
have read: it passes everything up to the place where they failed, also what was skipped in inner blocks. So reading
goes on no earlier than where the statement failed.
-/

namespace RoutineSpec

namespace Recovery

/-- How many of the lexemes are the mark. -/
def marks (sign : Mark) (span : List Lexeme) : Nat :=
  (span.map Lexeme.terminal).count (.mark sign)

theorem marks_cons (sign : Mark) (lexeme : Lexeme) (span : List Lexeme) :
    marks sign (lexeme :: span) = [lexeme.terminal].count (.mark sign) + marks sign span := by
  rw [marks, List.map_cons, ← List.singleton_append, List.count_append, marks]

namespace Nesting

variable {nesting inner outer : Nesting} {span more : List Lexeme}

/-- The nesting behind some lexemes, if all of them are part of the statement. -/
def past? (nesting : Nesting) (span : List Lexeme) : Option Nesting :=
  span.foldlM (fun inner lexeme => inner.after? lexeme.terminal) nesting

@[simp] theorem past?_nil : nesting.past? [] = some nesting := rfl

theorem past?_cons_eq_some_iff {lexeme : Lexeme} :
    nesting.past? (lexeme :: span) = some outer ↔
      ∃ inner, nesting.after? lexeme.terminal = some inner ∧ inner.past? span = some outer :=
  Option.bind_eq_some_iff

theorem past?_singleton {lexeme : Lexeme} (h : nesting.after? lexeme.terminal = some inner) :
    nesting.past? [lexeme] = some inner :=
  past?_cons_eq_some_iff.2 ⟨inner, h, rfl⟩

theorem past?_append : nesting.past? (span ++ more) = (nesting.past? span).bind (·.past? more) :=
  List.foldlM_append ..

theorem past?_eq_some_append (h : nesting.past? span = some inner) (h' : inner.past? more = some outer) :
    nesting.past? (span ++ more) = some outer := by
  rw [past?_append, h, Option.bind_some, h']

/-! ## What is passed -/

/-- A step counts one brace more, one less or none, as the terminal says. -/
theorem after?_braces {terminal : Terminal} (h : nesting.after? terminal = some inner) :
    inner.braces + [terminal].count (.mark .closeBrace) = nesting.braces + [terminal].count (.mark .openBrace) := by
  unfold after? at h
  split at h
  · cases h
  · cases h
    rfl
  · split at h
    · cases h
    split at h
    · cases h
      rfl
    · cases h
      rfl
    · cases h
      rfl
    · split at h
      · cases h
      · next hopen =>
        cases h
        exact Nat.sub_add_cancel (Nat.pos_of_ne_zero hopen)
    · cases h
      rfl
    · next hopen hclose _ =>
      cases h
      simp_all

theorem ne_sequential_of_after? {terminal : Terminal} (h : nesting.after? terminal = some inner) :
    terminal ≠ .keyword .sequential := by
  rintro rfl
  cases h

/-- Behind some lexemes, as many braces are open as were before, with those that have been opened and without those that
    have been closed. -/
theorem past?_braces (h : nesting.past? span = some inner) :
    inner.braces + marks .closeBrace span = nesting.braces + marks .openBrace span := by
  induction span generalizing nesting with
  | nil =>
    cases h
    rfl
  | cons lexeme span ih =>
    obtain ⟨mid, hmid, hpast⟩ := past?_cons_eq_some_iff.1 h
    have hstep := after?_braces hmid
    have hrun := ih hpast
    rw [marks_cons, marks_cons]
    omega

theorem past?_not_sequential (h : nesting.past? span = some inner) :
    ∀ lexeme ∈ span, lexeme.terminal ≠ .keyword .sequential := by
  induction span generalizing nesting with
  | nil => exact List.forall_mem_nil _
  | cons lexeme span ih =>
    obtain ⟨mid, hmid, hpast⟩ := past?_cons_eq_some_iff.1 h
    exact List.forall_mem_cons.2 ⟨ne_sequential_of_after? hmid, ih hpast⟩

/-- What is neither a bracket that is counted nor what can end a statement. -/
def plain : Terminal → Bool
  | .keyword .sequential | .keyword .else_ => false
  | .mark .openParen | .mark .closeParen | .mark .openBrace | .mark .closeBrace | .mark .semicolon => false
  | _ => true

theorem after?_plain {terminal : Terminal} (hplain : plain terminal = true) (h : nesting.ended = false) :
    nesting.after? terminal = some nesting := by
  unfold plain at hplain
  unfold after?
  split at hplain <;> simp_all

theorem past?_plain (hplain : ∀ lexeme ∈ span, plain lexeme.terminal = true) (h : nesting.ended = false) :
    nesting.past? span = some nesting := by
  induction span with
  | nil => rfl
  | cons lexeme span ih =>
    obtain ⟨hfirst, hrest⟩ := List.forall_mem_cons.1 hplain
    exact past?_cons_eq_some_iff.2 ⟨nesting, after?_plain hfirst h, ih hrest⟩

/-- The count is still inside the block that `nesting` is inside of. -/
structure InBlock (nesting inner : Nesting) : Prop where
  braces : nesting.braces ≤ inner.braces
  ended : inner.ended = false

theorem InBlock.refl (h : nesting.ended = false) : nesting.InBlock nesting :=
  ⟨Nat.le_refl _, h⟩

theorem InBlock.trans (h : nesting.InBlock inner) (h' : inner.InBlock outer) : nesting.InBlock outer :=
  ⟨Nat.le_trans h.braces h'.braces, h'.ended⟩

/-- Within braces, only a closing brace leads out. -/
theorem after?_inBlock {terminal : Terminal} (hbraces : nesting.braces ≠ 0) (hended : nesting.ended = false)
    (hclose : terminal ≠ .mark .closeBrace) (hsequential : terminal ≠ .keyword .sequential) :
    ∃ inner, nesting.after? terminal = some inner ∧ nesting.InBlock inner := by
  unfold after?
  split
  · contradiction
  · exact ⟨_, rfl, Nat.le_refl _, rfl⟩
  · rw [if_neg (by simp [hended])]
    split
    · exact ⟨_, rfl, Nat.le_refl _, hended⟩
    · exact ⟨_, rfl, Nat.le_refl _, hended⟩
    · exact ⟨_, rfl, Nat.le_succ _, hended⟩
    · contradiction
    · exact ⟨_, rfl, Nat.le_refl _, by simp [hbraces]⟩
    · exact ⟨_, rfl, .refl hended⟩

theorem past?_inBlock (hbraces : nesting.braces ≠ 0) (hended : nesting.ended = false)
    (hspan : ∀ lexeme ∈ span, lexeme.terminal ≠ .mark .closeBrace ∧ lexeme.terminal ≠ .keyword .sequential) :
    ∃ inner, nesting.past? span = some inner ∧ nesting.InBlock inner := by
  induction span generalizing nesting with
  | nil => exact ⟨nesting, rfl, .refl hended⟩
  | cons lexeme span ih =>
    obtain ⟨⟨hclose, hsequential⟩, hrest⟩ := List.forall_mem_cons.1 hspan
    obtain ⟨mid, hmid, hinner⟩ := after?_inBlock hbraces hended hclose hsequential
    have hinside : mid.braces ≠ 0 := by
      have := hinner.braces
      omega
    obtain ⟨inner, hpast, hinBlock⟩ := ih hinside hinner.ended hrest
    exact ⟨inner, past?_cons_eq_some_iff.2 ⟨mid, hmid, hpast⟩, hinner.trans hinBlock⟩

/-- What a count gets past, a count with more open braces gets past as well. -/
theorem after?_deeper {terminal : Terminal} (h : nesting.after? terminal = some inner)
    (hbraces : nesting.braces < outer.braces) (hended : outer.ended = false) :
    ∃ next, outer.after? terminal = some next ∧ next.ended = false ∧
      next.braces + nesting.braces = outer.braces + inner.braces := by
  unfold after? at h ⊢
  split at h
  · cases h
  · cases h
    exact ⟨_, rfl, rfl, rfl⟩
  · split at h
    · cases h
    rw [if_neg (by simp [hended])]
    split at h
    · cases h
      exact ⟨_, rfl, hended, rfl⟩
    · cases h
      exact ⟨_, rfl, hended, rfl⟩
    · cases h
      exact ⟨_, rfl, hended, by simp only; omega⟩
    · split at h
      · cases h
      · cases h
        simp only
        rw [if_neg (by omega)]
        exact ⟨_, rfl, by simp; omega, by simp only; omega⟩
    · cases h
      exact ⟨_, rfl, by simp; omega, rfl⟩
    · cases h
      exact ⟨_, rfl, hended, rfl⟩

theorem past?_deeper (h : nesting.past? span = some inner) (hbraces : nesting.braces < outer.braces)
    (hended : outer.ended = false) :
    ∃ next, outer.past? span = some next ∧ next.ended = false ∧
      next.braces + nesting.braces = outer.braces + inner.braces := by
  induction span generalizing nesting outer with
  | nil =>
    cases h
    exact ⟨outer, rfl, hended, rfl⟩
  | cons lexeme span ih =>
    obtain ⟨mid, hmid, hinner⟩ := past?_cons_eq_some_iff.1 h
    obtain ⟨first, hfirst, hfirstEnded, hfirstBraces⟩ := after?_deeper hmid hbraces hended
    obtain ⟨next, hnext, hnextEnded, hnextBraces⟩ := ih hinner (by omega) hfirstEnded
    exact ⟨next, past?_cons_eq_some_iff.2 ⟨first, hfirst, hnext⟩, hnextEnded, by omega⟩

end Nesting

/-- The count gets past all that is skipped of a statement. -/
theorem exists_skipStatement (nesting : Nesting) (lexemes : List Lexeme) :
    ∃ span inner, lexemes = span ++ skipStatement nesting lexemes ∧ nesting.past? span = some inner := by
  induction lexemes generalizing nesting with
  | nil => exact ⟨[], nesting, rfl, rfl⟩
  | cons lexeme lexemes ih =>
    rw [skipStatement]
    cases hnext : nesting.after? lexeme.terminal with
    | none => exact ⟨[], nesting, rfl, rfl⟩
    | some next =>
      obtain ⟨span, inner, hspan, hpast⟩ := ih next
      exact ⟨lexeme :: span, inner, congrArg (lexeme :: ·) hspan,
        Nesting.past?_cons_eq_some_iff.2 ⟨next, hnext, hpast⟩⟩

/-- What is skipped of an assignment does not lead out of a block. -/
theorem exists_skipAssignment (lexemes : List Lexeme) :
    ∃ span, lexemes = span ++ skipAssignment lexemes ∧
      ∀ lexeme ∈ span, lexeme.terminal ≠ .mark .closeBrace ∧ lexeme.terminal ≠ .keyword .sequential := by
  fun_induction skipAssignment lexemes with
  | case1 => exact ⟨[], rfl, by simp⟩
  | case2 lexeme rest hsemicolon => exact ⟨[lexeme], rfl, by simp [hsemicolon]⟩
  | case3 lexeme rest hclose => exact ⟨[], rfl, by simp⟩
  | case4 lexeme rest hsequential => exact ⟨[], rfl, by simp⟩
  | case5 lexeme rest hsemicolon hclose hsequential ih =>
    obtain ⟨span, hspan, hpasses⟩ := ih
    exact ⟨lexeme :: span, congrArg (lexeme :: ·) hspan, List.forall_mem_cons.2 ⟨⟨hclose, hsequential⟩, hpasses⟩⟩

theorem skipStatement_append {nesting inner : Nesting} {span : List Lexeme} (rest : List Lexeme)
    (h : nesting.past? span = some inner) :
    skipStatement nesting (span ++ rest) = skipStatement inner rest := by
  induction span generalizing nesting with
  | nil => cases h; rfl
  | cons lexeme span ih =>
    obtain ⟨next, hnext, hspan⟩ := Nesting.past?_cons_eq_some_iff.1 h
    rw [List.cons_append, skipStatement, hnext]
    exact ih hspan

end Recovery

open Recovery (Nesting)

/-- Between two sessions, the count gets past what has been read, to where `Post` holds. -/
def Session.CrossesTo (session next : Session) (nesting : Nesting) (Post : Nesting → Prop) : Prop :=
  ∃ span inner, session.rest = span ++ next.rest ∧ nesting.past? span = some inner ∧ Post inner

/-- However the reading from the session ends, the count gets past what has been read, to where `Done` or `Failed`
    holds. -/
def Outcome.Crosses {α : Type} (session : Session) (nesting : Nesting) (Done Failed : Nesting → Prop) :
    Outcome α → Prop
  | .done _ next => session.CrossesTo next nesting Done
  | .failed _ next => session.CrossesTo next nesting Failed
  | .exhausted => True

/-- From wherever the rule reads, the count gets past what it reads. -/
def Rule.Crosses {α : Type} (rule : Rule α) (nesting : Nesting) (Done Failed : Nesting → Prop) : Prop :=
  ∀ session, (rule.run session).Crosses session nesting Done Failed

variable {α β : Type} {nesting inner : Nesting} {Done Done' Failed Failed' : Nesting → Prop}

theorem Session.CrossesTo.refl {session : Session} (h : Done nesting) : session.CrossesTo session nesting Done :=
  ⟨[], nesting, rfl, rfl, h⟩

theorem Session.CrossesTo.trans {session mid next : Session} (h : session.CrossesTo mid nesting Done)
    (hmid : ∀ {inner}, Done inner → mid.CrossesTo next inner Done') : session.CrossesTo next nesting Done' := by
  obtain ⟨span, inner, hspan, hpast, hinner⟩ := h
  obtain ⟨more, outer, hmore, hpast', houter⟩ := hmid hinner
  exact ⟨span ++ more, outer, by rw [hspan, hmore, List.append_assoc],
    Nesting.past?_eq_some_append hpast hpast', houter⟩

theorem Outcome.Crosses.trans {outcome : Outcome α} {session mid : Session} (h : session.CrossesTo mid nesting Done)
    (hmid : ∀ {inner}, Done inner → outcome.Crosses mid inner Done' Failed) :
    outcome.Crosses session nesting Done' Failed := by
  cases outcome with
  | done value next => exact h.trans hmid
  | failed error next => exact h.trans hmid
  | exhausted => trivial

namespace Rule

variable {rule : Rule α} {follow : α → Rule β} {terminal : Terminal} {what : Expectation}

theorem Crosses.mono (h : rule.Crosses nesting Done Failed) (hdone : ∀ {inner}, Done inner → Done' inner)
    (hfailed : ∀ {inner}, Failed inner → Failed' inner) : rule.Crosses nesting Done' Failed' := by
  intro session
  have hrun := h session
  cases hrule : rule.run session with
  | done value next =>
    rw [hrule] at hrun
    exact Session.CrossesTo.trans hrun fun hinner => .refl (hdone hinner)
  | failed error next =>
    rw [hrule] at hrun
    exact Session.CrossesTo.trans hrun fun hinner => .refl (hfailed hinner)
  | exhausted => trivial

theorem crosses_bind {session : Session} (h : (rule.run session).Crosses session nesting Done Failed)
    (hfollow : ∀ {inner}, Done inner → ∀ value, (follow value).Crosses inner Done' Failed) :
    ((rule >>= follow).run session).Crosses session nesting Done' Failed := by
  rw [run_bind]
  cases hrule : rule.run session with
  | done value mid =>
    rw [hrule] at h
    exact Outcome.Crosses.trans h fun hinner => hfollow hinner value mid
  | failed error next =>
    rw [hrule] at h
    exact h
  | exhausted => trivial

theorem Crosses.bind (h : rule.Crosses nesting Done Failed)
    (hfollow : ∀ {inner}, Done inner → ∀ value, (follow value).Crosses inner Done' Failed) :
    (rule >>= follow).Crosses nesting Done' Failed :=
  fun session => crosses_bind (h session) hfollow

/-- A rule that leaves the count as it was can be passed over. -/
theorem Crosses.bind_same (h : rule.Crosses nesting (· = nesting) Failed)
    (hfollow : ∀ value, (follow value).Crosses nesting Done Failed) :
    (rule >>= follow).Crosses nesting Done Failed :=
  h.bind fun heq value => heq ▸ hfollow value

theorem crosses_exhausted : (exhausted : Rule α).Crosses nesting Done Failed :=
  fun _ => trivial

theorem crosses_pure {value : α} (h : Done nesting) : (pure value : Rule α).Crosses nesting Done Failed :=
  fun _ => .refl h

theorem crosses_failHere (h : Failed nesting) : (failHere what : Rule α).Crosses nesting Done Failed :=
  fun _ => .refl h

theorem crosses_fail {error : SyntaxError} (h : Failed nesting) :
    (fail error : Rule α).Crosses nesting Done Failed :=
  fun _ => .refl h

theorem crosses_look {γ : Type} {view : Session → γ} {follow : γ → Rule β} {session : Session}
    (h : ((follow (view session)).run session).Crosses session nesting Done Failed) :
    ((look view >>= follow).run session).Crosses session nesting Done Failed := h

theorem crosses_bind_look {γ : Type} {view : Session → γ} {follow : γ → Rule β}
    (h : ∀ value, (follow value).Crosses nesting Done Failed) :
    (look view >>= follow).Crosses nesting Done Failed :=
  fun session => h (view session) session

/-- A terminal is counted where it is read. -/
theorem crosses_bind_take? {γ : Type} {select : Terminal → Option γ} {follow : Option (γ × Location) → Rule β}
    (hnone : (follow none).Crosses nesting Done Failed)
    (hsome : ∀ {found terminal}, select terminal = some found → ∃ inner, nesting.after? terminal = some inner ∧
      ∀ loc, (follow (some (found, loc))).Crosses inner Done Failed) :
    (take? select >>= follow).Crosses nesting Done Failed := by
  intro session
  rw [run_bind, run_take?]
  cases htake : session.take? select with
  | none => exact hnone session
  | some taken =>
    obtain ⟨⟨found, loc⟩, mid⟩ := taken
    obtain ⟨terminal, hselect, rfl⟩ := Session.eq_unread_of_take? htake
    obtain ⟨inner, hinner, hfollow⟩ := hsome hselect
    have hread : (mid.unread [⟨terminal, loc⟩]).CrossesTo mid nesting (· = inner) :=
      ⟨_, inner, rfl, Nesting.past?_singleton hinner, rfl⟩
    exact Outcome.Crosses.trans hread fun heq => heq ▸ hfollow loc mid

theorem crosses_bind_accept {follow : Option Location → Rule β} (hafter : nesting.after? terminal = some inner)
    (hnone : (follow none).Crosses nesting Done Failed)
    (hsome : ∀ loc, (follow (some loc)).Crosses inner Done Failed) :
    (accept terminal >>= follow).Crosses nesting Done Failed := by
  rw [accept_bind]
  refine crosses_bind_take? hnone fun hsame => ?_
  cases Terminal.same?_eq_some_iff.1 hsame
  exact ⟨inner, hafter, hsome⟩

theorem crosses_bind_expect {follow : Unit → Rule β} (hafter : nesting.after? terminal = some inner)
    (hfailed : Failed nesting) (hfollow : (follow ()).Crosses inner Done Failed) :
    (expect terminal what >>= follow).Crosses nesting Done Failed := by
  rw [expect_bind]
  exact crosses_bind_accept hafter (crosses_failHere hfailed) fun _ => hfollow

end Rule

namespace Grammar

open Rule

/-- Inside an expression no brace is counted, and nothing ends. -/
structure Inside (nesting inner : Nesting) : Prop where
  braces : inner.braces = nesting.braces
  ended : inner.ended = false

theorem Inside.paren {base nesting : Nesting} (h : Inside base nesting) :
    Inside base { nesting with parens := nesting.parens + 1 } :=
  ⟨h.braces, h.ended⟩

theorem after?_openParen {nesting : Nesting} (h : nesting.ended = false) :
    nesting.after? (.mark .openParen) = some { nesting with parens := nesting.parens + 1 } := by
  simp [Nesting.after?, h]

theorem after?_closeParen {nesting : Nesting} (h : nesting.ended = false) :
    Nesting.after? { nesting with parens := nesting.parens + 1 } (.mark .closeParen) = some nesting := by
  cases nesting
  simp_all [Nesting.after?]

theorem plain_of_binaryOp? {level : Precedence} {terminal : Terminal} {op : BinaryOp}
    (h : terminal.binaryOp? level = some op) : Nesting.plain terminal = true := by
  cases (Terminal.binaryOp?_eq_some_iff.1 h).1
  cases op <;> rfl

theorem plain_of_unaryOp? {terminal : Terminal} {op : UnaryOp} (h : terminal.unaryOp? = some op) :
    Nesting.plain terminal = true := by
  cases Terminal.unaryOp?_eq_some_iff.1 h
  cases op <;> rfl

theorem plain_of_leaf? {terminal : Terminal} {leaf : Location → Tree} (h : terminal.leaf? = some leaf) :
    Nesting.plain terminal = true := by
  unfold Terminal.leaf? at h
  split at h
  all_goals first | rfl | cases h

mutual

theorem expression_crosses : ∀ n {nesting base}, Inside base nesting →
    (expression n).Crosses nesting (· = nesting) (Inside base)
  | 0, _, _, _ => crosses_exhausted
  | n + 1, nesting, base, h => by
    rw [expression]
    refine (binary_crosses n _ h).bind_same fun _ => crosses_bind_accept (Nesting.after?_plain rfl h.ended)
      (crosses_pure rfl) fun _ => ?_
    refine (expression_crosses n h).bind_same fun _ => crosses_bind_expect (Nesting.after?_plain rfl h.ended) h ?_
    exact (expression_crosses n h).bind_same fun _ => crosses_pure rfl

theorem binary_crosses : ∀ n levels {nesting base}, Inside base nesting →
    (binary n levels).Crosses nesting (· = nesting) (Inside base)
  | 0, _, _, _, _ => by
    rw [binary]
    exact crosses_exhausted
  | n + 1, [], _, _, h => by
    rw [binary]
    exact unary_crosses n h
  | n + 1, level :: tighter, _, _, h => by
    rw [binary]
    exact (binary_crosses n tighter h).bind_same fun _ => chain_crosses n level tighter _ h

theorem chain_crosses : ∀ n level tighter left {nesting base}, Inside base nesting →
    (chain n level tighter left).Crosses nesting (· = nesting) (Inside base)
  | 0, _, _, _, _, _, _ => by
    rw [chain]
    exact crosses_exhausted
  | n + 1, level, tighter, left, nesting, _, h => by
    rw [chain]
    refine crosses_bind_take? (crosses_pure rfl) fun hop =>
      ⟨nesting, Nesting.after?_plain (plain_of_binaryOp? hop) h.ended, fun loc => ?_⟩
    exact (binary_crosses n tighter h).bind_same fun _ => chain_crosses n level tighter _ h

theorem unary_crosses : ∀ n {nesting base}, Inside base nesting →
    (unary n).Crosses nesting (· = nesting) (Inside base)
  | 0, _, _, _ => crosses_exhausted
  | n + 1, nesting, _, h => by
    rw [unary]
    refine crosses_bind_take? (suffixed_crosses n h) fun hop =>
      ⟨nesting, Nesting.after?_plain (plain_of_unaryOp? hop) h.ended, fun loc => ?_⟩
    exact (unary_crosses n h).bind_same fun _ => crosses_pure rfl

theorem suffixed_crosses : ∀ n {nesting base}, Inside base nesting →
    (suffixed n).Crosses nesting (· = nesting) (Inside base)
  | 0, _, _, _ => crosses_exhausted
  | n + 1, _, _, h => by
    rw [suffixed]
    exact (primary_crosses n h).bind_same fun _ => suffixes_crosses n _ h

theorem suffixes_crosses : ∀ n operand {nesting base}, Inside base nesting →
    (suffixes n operand).Crosses nesting (· = nesting) (Inside base)
  | 0, _, _, _, _ => by
    rw [suffixes]
    exact crosses_exhausted
  | n + 1, operand, nesting, base, h => by
    rw [suffixes]
    refine crosses_bind_accept (Nesting.after?_plain rfl h.ended) (crosses_bind_look fun paren => ?_) fun _ => ?_
    · split
      · cases operand.callee? with
        | none => exact crosses_failHere h
        | some callee =>
          refine crosses_bind_expect (after?_openParen h.ended) h ?_
          refine (callArguments_crosses n h.paren).bind_same fun _ => ?_
          exact crosses_bind_expect (after?_closeParen h.ended) h.paren (suffixes_crosses n _ h)
      · exact crosses_pure rfl
    · refine (expression_crosses n h).bind_same fun _ => ?_
      exact crosses_bind_expect (Nesting.after?_plain rfl h.ended) h (suffixes_crosses n _ h)

theorem callArguments_crosses : ∀ n {nesting base}, Inside base nesting →
    (callArguments n).Crosses nesting (· = nesting) (Inside base)
  | 0, _, _, _ => crosses_exhausted
  | n + 1, _, _, h => by
    rw [callArguments]
    refine crosses_bind_look fun closed => ?_
    split
    · exact crosses_pure rfl
    · exact expressions_crosses n h

theorem expressions_crosses : ∀ n {nesting base}, Inside base nesting →
    (expressions n).Crosses nesting (· = nesting) (Inside base)
  | 0, _, _, _ => crosses_exhausted
  | n + 1, nesting, base, h => by
    rw [expressions]
    refine (expression_crosses n h).bind_same fun _ => crosses_bind_accept (Nesting.after?_plain rfl h.ended)
      (crosses_pure rfl) fun _ => ?_
    exact (expressions_crosses n h).bind_same fun _ => crosses_pure rfl

theorem primary_crosses : ∀ n {nesting base}, Inside base nesting →
    (primary n).Crosses nesting (· = nesting) (Inside base)
  | 0, _, _, _ => crosses_exhausted
  | n + 1, nesting, base, h => by
    rw [primary]
    refine crosses_bind_take? (crosses_bind_expect (after?_openParen h.ended) h ?_) fun hleaf =>
      ⟨nesting, Nesting.after?_plain (plain_of_leaf? hleaf) h.ended, fun _ => crosses_pure rfl⟩
    refine (expression_crosses n h.paren).bind_same fun _ => ?_
    exact crosses_bind_expect (after?_closeParen h.ended) h.paren (crosses_pure rfl)

end

theorem guard_crosses (n : Nat) {nesting base : Nesting} (h : Inside base nesting) :
    (guard n).Crosses nesting (· = nesting) (Inside base) := by
  refine crosses_bind_look fun first => (binary_crosses n _ h).bind_same fun tree => ?_
  split
  · exact crosses_pure rfl
  · exact crosses_fail h

/-- The three lexemes of an increment are a name and two signs. -/
theorem increment?_plain {lexemes : List Lexeme} {tree : Tree} (h : increment? lexemes = some tree) :
    ∃ span, lexemes = span ++ lexemes.drop 3 ∧ ∀ lexeme ∈ span, Nesting.plain lexeme.terminal = true := by
  unfold increment? at h
  split at h
  · next name loc first second behind more =>
    split at h
    · next together =>
      obtain ⟨op, hop, -⟩ := Option.map_eq_some_iff.1 h
      have hsign : Nesting.plain first.terminal = true := by
        rw [(incrementOp?_eq_some hop).1]
        cases op <;> rfl
      exact ⟨[⟨.identifier name, loc⟩, first, second], rfl, by
        have hname : Nesting.plain (.identifier name) = true := rfl
        simp [hname, hsign, ← together.1]⟩
    · cases h
  · cases h

theorem increment_crosses {nesting base : Nesting} (h : Inside base nesting) :
    increment.Crosses nesting (· = nesting) (Inside base) := by
  intro session
  rw [run_increment]
  cases hincrement : increment? session.rest with
  | none => exact .refl rfl
  | some tree =>
    obtain ⟨span, hspan, hplain⟩ := increment?_plain hincrement
    exact ⟨span, nesting, hspan, Nesting.past?_plain hplain h.ended, rfl⟩

theorem assignment_crosses (n : Nat) {nesting base : Nesting} (h : Inside base nesting) :
    (assignment n).Crosses nesting (· = nesting) (Inside base) := by
  refine (increment_crosses h).bind_same fun found => ?_
  cases found with
  | some tree => exact crosses_pure rfl
  | none =>
    refine crosses_bind_look fun loc => (suffixed_crosses n h).bind_same fun _ => ?_
    refine crosses_bind_expect (Nesting.after?_plain rfl h.ended) h ?_
    exact (expression_crosses n h).bind_same fun _ => crosses_pure rfl

/-- Behind a statement. It may be over only if no brace is open. -/
structure Behind (nesting inner : Nesting) : Prop where
  braces : nesting.braces ≤ inner.braces
  ended : inner.ended = true → inner.braces = 0

theorem Behind.inBlock {nesting inner : Nesting} (h : Behind nesting inner) (hbraces : nesting.braces ≠ 0) :
    nesting.InBlock inner := by
  refine ⟨h.braces, Bool.eq_false_iff.2 fun hended => ?_⟩
  have := h.braces
  have := h.ended hended
  omega

theorem after?_semicolon {nesting : Nesting} (h : nesting.ended = false) :
    nesting.after? (.mark .semicolon) =
      some { nesting with ended := nesting.braces = 0 ∧ nesting.parens = 0 } :=
  if_neg (Bool.eq_false_iff.1 h)

theorem after?_openBrace {nesting : Nesting} (h : nesting.ended = false) :
    nesting.after? (.mark .openBrace) = some { nesting with braces := nesting.braces + 1 } :=
  if_neg (Bool.eq_false_iff.1 h)

theorem after?_closeBrace {nesting : Nesting} (h : nesting.ended = false) (hbraces : nesting.braces ≠ 0) :
    nesting.after? (.mark .closeBrace) =
      some ⟨nesting.parens, nesting.braces - 1, nesting.braces = 1 ∧ nesting.parens = 0⟩ :=
  (if_neg (Bool.eq_false_iff.1 h)).trans (if_neg hbraces)

/-- An assignment and the semicolon behind it. -/
def assignmentStatement (n : Nat) : Rule Tree := do
  let tree ← assignment n
  expect (.mark .semicolon) .semicolonAfterAssignment
  return tree

theorem assignmentStatement_crosses (n : Nat) {nesting : Nesting} (h : nesting.ended = false) :
    (assignmentStatement n).Crosses nesting (Behind nesting) (Inside nesting) := by
  refine (assignment_crosses n ⟨rfl, h⟩).bind_same fun _ =>
    crosses_bind_expect (after?_semicolon h) ⟨rfl, h⟩ (crosses_pure ⟨Nat.le_refl _, fun hended => ?_⟩)
  exact (of_decide_eq_true hended).1

/-- A statement that is none of the compound ones is an assignment and the semicolon behind it. -/
theorem run_statement {n : Nat} {session : Session} {first : Lexeme} {others : List Lexeme}
    (hrest : session.rest = first :: others) (hfirst : Recovery.startsCompound first.terminal = false) :
    (statement (n + 1)).run session = (assignmentStatement n).run session := by
  have habsent : ∀ {terminal}, Recovery.startsCompound terminal = true → ∀ follow : Option Location → Rule Tree,
      (accept terminal >>= follow).run session = (follow none).run session := by
    intro terminal hcompound follow
    have htake : session.take? terminal.same? = none := by
      refine (session.take?_eq_none_iff).2 fun lexeme hmem => Terminal.same?_eq_none_iff.2 ?_
      rintro rfl
      simp_all
    rw [run_bind, run_accept, htake]
  rw [statement, habsent rfl, habsent rfl, habsent rfl, assignmentStatement]

/-- Where a statement that is none of the compound ones fails, it has read a part of an assignment. -/
theorem crossesTo_of_failed {n : Nat} {session next : Session} {error : SyntaxError} {first : Lexeme}
    {others : List Lexeme} {nesting : Nesting} (h : nesting.ended = false)
    (hstatement : (statement n).run session = .failed error next) (hrest : session.rest = first :: others)
    (hfirst : Recovery.startsCompound first.terminal = false) :
    session.CrossesTo next nesting (Inside nesting) := by
  cases n with
  | zero => cases hstatement
  | succ n =>
    rw [run_statement hrest hfirst] at hstatement
    simpa [hstatement, Outcome.Crosses] using assignmentStatement_crosses n h session

/-- Where a block goes on behind a malformed statement, it is still the same block. -/
theorem crossesTo_resume {n : Nat} {session next : Session} {error : SyntaxError} {nesting : Nesting}
    (h : nesting.ended = false) (hbraces : nesting.braces ≠ 0) (hend : ¬ atBlockEnd session = true)
    (hstatement : (statement n).run session = .failed error next) {behind : Session}
    (hbehind : behind.rest = Recovery.resume session.rest next.rest) :
    session.CrossesTo behind nesting nesting.InBlock := by
  unfold Recovery.resume at hbehind
  cases hrest : session.rest with
  | nil => simp [atBlockEnd, Session.atEnd, hrest] at hend
  | cons first others =>
    rw [hrest] at hbehind
    simp only at hbehind
    split at hbehind
    · obtain ⟨span, inner, hspan, hpast⟩ := Recovery.exists_skipStatement .outermost (first :: others)
      obtain ⟨outer, houter, hended, hcount⟩ := Nesting.past?_deeper hpast (Nat.pos_of_ne_zero hbraces) h
      have : nesting.braces ≤ outer.braces := by
        simp [Nesting.outermost] at hcount
        omega
      exact ⟨span, outer, by rw [hrest, hbehind]; exact hspan, houter, this, hended⟩
    · split at hbehind
      · have hstray : first.terminal ≠ .mark .closeBrace ∧ first.terminal ≠ .keyword .sequential := by
          simp [atBlockEnd, Session.atEnd, Session.follows, hrest] at hend
          exact hend
        obtain ⟨inner, hinner, hin⟩ := Nesting.after?_inBlock hbraces h hstray.1 hstray.2
        exact ⟨[first], inner, by rw [hrest, hbehind]; rfl, Nesting.past?_singleton hinner, hin⟩
      · next hcompound _ =>
        have hcrosses := crossesTo_of_failed h hstatement hrest (by simpa using hcompound)
        refine hcrosses.trans fun {inner} hinner => ?_
        obtain ⟨span, hspan, hpasses⟩ := Recovery.exists_skipAssignment next.rest
        obtain ⟨outer, houter, hin⟩ := Nesting.past?_inBlock (hinner.braces ▸ hbraces) hinner.ended hpasses
        exact ⟨span, outer, by rw [hbehind]; exact hspan, houter, hinner.braces ▸ hin.braces, hin.ended⟩

section

variable (n : Nat) {nesting : Nesting} (h : nesting.ended = false)
include h

theorem expression_passes : (expression n).Crosses nesting (· = nesting) (·.ended = false) :=
  (expression_crosses n ⟨rfl, h⟩).mono id Inside.ended

theorem assignment_passes : (assignment n).Crosses nesting (· = nesting) (·.ended = false) :=
  (assignment_crosses n ⟨rfl, h⟩).mono id Inside.ended

theorem guard_passes : (guard n).Crosses nesting (· = nesting) (·.ended = false) :=
  (guard_crosses n ⟨rfl, h⟩).mono id Inside.ended

end

mutual

/-- The count gets past what a statement reads. Where the statement fails, the count is not over. -/
theorem statement_crosses : ∀ n {nesting}, nesting.ended = false →
    (statement n).Crosses nesting (Behind nesting) (·.ended = false)
  | 0, _, _ => crosses_exhausted
  | n + 1, nesting, h => by
    rw [statement]
    refine crosses_bind_accept (Nesting.after?_plain rfl h) ?_ fun loc => selection_crosses n loc h
    refine crosses_bind_accept (Nesting.after?_plain rfl h) ?_ fun loc => iteration_crosses n loc h
    refine crosses_bind_accept (after?_openBrace h) ?_ fun loc => block_crosses n loc h
    exact (assignmentStatement_crosses n h).mono id Inside.ended

theorem selection_crosses : ∀ n loc {nesting}, nesting.ended = false →
    (selection n loc).Crosses nesting (Behind nesting) (·.ended = false)
  | 0, _, _, _ => by
    rw [selection]
    exact crosses_exhausted
  | n + 1, loc, nesting, h => by
    rw [selection]
    refine crosses_bind_expect (after?_openParen h) h ?_
    refine (expression_passes n (by exact h)).bind_same fun _ =>
      crosses_bind_expect (after?_closeParen h) h ?_
    refine (statement_crosses n h).bind fun {inner} hinner _ => ?_
    -- The count may have come to an end here, which an `else` takes back.
    have helse : inner.after? (.keyword .else_) = some { inner with ended := false } := rfl
    refine crosses_bind_accept helse (crosses_pure hinner) fun _ => ?_
    refine (statement_crosses n rfl).bind fun hlast _ => crosses_pure ?_
    exact ⟨Nat.le_trans hinner.braces hlast.braces, hlast.ended⟩

theorem iteration_crosses : ∀ n loc {nesting}, nesting.ended = false →
    (iteration n loc).Crosses nesting (Behind nesting) (·.ended = false)
  | 0, _, _, _ => by
    rw [iteration]
    exact crosses_exhausted
  | n + 1, loc, nesting, h => by
    rw [iteration]
    -- Inside the parentheses a semicolon ends nothing.
    have hsemicolon : Nesting.after? { nesting with parens := nesting.parens + 1 } (.mark .semicolon) =
        some { nesting with parens := nesting.parens + 1 } := by
      rw [after?_semicolon (by exact h)]
      simp [h]
    refine crosses_bind_expect (after?_openParen h) h ?_
    refine (assignment_passes n (by exact h)).bind_same fun _ => crosses_bind_expect hsemicolon h ?_
    refine (guard_passes n (by exact h)).bind_same fun _ => crosses_bind_expect hsemicolon h ?_
    refine (assignment_passes n (by exact h)).bind_same fun _ =>
      crosses_bind_expect (after?_closeParen h) h ?_
    refine crosses_bind_accept (after?_openBrace h) (crosses_failHere h) fun brace => ?_
    exact (block_crosses n brace h).bind fun hinner _ => crosses_pure hinner

theorem block_crosses : ∀ n loc {nesting}, nesting.ended = false →
    (block n loc).Crosses { nesting with braces := nesting.braces + 1 } (Behind nesting) (·.ended = false)
  | 0, _, _, _ => by
    rw [block]
    exact crosses_exhausted
  | n + 1, loc, nesting, h => by
    rw [block]
    refine (statements_crosses n (by exact h) (Nat.succ_ne_zero _)).bind fun {inner} hinner _ => ?_
    have hbraces := hinner.braces
    refine crosses_bind_expect (after?_closeBrace hinner.ended (by simp at hbraces; omega)) hinner.ended ?_
    refine crosses_pure ⟨by simp at hbraces ⊢; omega, fun hended => ?_⟩
    have := (of_decide_eq_true hended).1
    simp
    omega

theorem statements_crosses : ∀ n {nesting}, nesting.ended = false → nesting.braces ≠ 0 →
    (statements n).Crosses nesting nesting.InBlock (·.ended = false)
  | 0, _, _, _ => crosses_exhausted
  | n + 1, nesting, h, hbraces => by
    intro session
    rw [statements]
    refine crosses_look ?_
    split
    · exact .refl (.refl h)
    · next hend =>
      refine crosses_bind (statementIfSound_crosses n h hbraces hend) fun hinner _ => ?_
      have hinside := hinner.braces
      refine (statements_crosses n hinner.ended (by omega)).bind fun hlast _ => crosses_pure ?_
      exact hinner.trans hlast

/-- Also what is skipped of a malformed statement stays in the block. -/
theorem statementIfSound_crosses : ∀ n {nesting session}, nesting.ended = false → nesting.braces ≠ 0 →
    ¬ atBlockEnd session = true →
    ((statementIfSound n).run session).Crosses session nesting nesting.InBlock (·.ended = false)
  | 0, _, _, _, _, _ => trivial
  | n + 1, nesting, session, h, hbraces, hend => by
    rw [statementIfSound_eq]
    refine crosses_look ?_
    rw [run_recovering]
    cases hstatement : (statement n).run session with
    | exhausted => trivial
    | done tree next =>
      have hcrosses : session.CrossesTo next nesting (Behind nesting) := by
        simpa [hstatement, Outcome.Crosses] using statement_crosses n h session
      exact hcrosses.trans fun hinner => .refl (hinner.inBlock hbraces)
    | failed error next =>
      exact crossesTo_resume h hbraces hend hstatement (by rw [rest_report])

end

/-- What has failed is taken up again no earlier than where it failed. -/
theorem resume_suffix_of_failed {n : Nat} {session next : Session} {error : SyntaxError}
    (h : (statement n).run session = .failed error next) :
    Recovery.resume session.rest next.rest <:+ next.rest := by
  have hsuffix := ((statement_advances n).failed h).rest
  unfold Recovery.resume
  cases hrest : session.rest with
  | nil => exact List.nil_suffix
  | cons first others =>
    simp only
    split
    · have hcrosses := statement_crosses n (rfl : Nesting.outermost.ended = false) session
      rw [h] at hcrosses
      obtain ⟨span, inner, hspan, hpast, -⟩ := hcrosses
      rw [← hrest, hspan, Recovery.skipStatement_append next.rest hpast]
      exact Recovery.skipStatement_suffix inner next.rest
    · split
      · next hlength =>
        have : next.rest = first :: others := (hrest ▸ hsuffix).eq_of_length hlength
        exact this ▸ List.suffix_cons first others
      · exact Recovery.skipAssignment_suffix next.rest

end Grammar

end RoutineSpec
