import RoutineSpec.Proofs.Completion

/-! # Where expressions and assignments break off

Where a rule for expressions or assignments fails, it blames the lexeme that comes next, and what it has read so
far begins a phrase: the phrase is completed by closing what is open, and by a zero where an operand is missing.
-/

namespace RoutineSpec

/-- Where the rule fails, it blames what comes next, and what it has read begins a whole. -/
structure Rule.Viable {α : Type} (rule : Rule α) (Whole : List Lexeme → Prop) : Prop where
  failed : ∀ {session error next}, rule.run session = .failed error next →
    ∃ span, session = next.unread span ∧ error.loc = next.next.loc ∧ Begins Whole span

namespace Rule

open Phrase

variable {α β : Type} {rule : Rule α} {follow : α → Rule β} {Part Whole : List Lexeme → Prop}
  {terminal : Terminal} {what : Expectation}

theorem Viable.mono {Item : List Lexeme → α → Prop} (h : rule.Viable (Of Item))
    (hitem : ∀ {span value}, Item span value → Begins Whole span) : rule.Viable Whole where
  failed {session error next} hfailed := by
    obtain ⟨span, hsession, hloc, ⟨more, ⟨hmore⟩⟩⟩ := h.failed hfailed
    obtain ⟨rest, hrest⟩ := hitem hmore
    exact ⟨span, hsession, hloc, more ++ rest, by simpa using hrest⟩

/-- Either the first rule breaks off, or what it has read goes on with what the second one has read. -/
theorem Viable.bind {Item : List Lexeme → α → Prop} (h : rule.Viable (Of Item))
    (hreads : ∀ {session value next}, rule.run session = .done value next →
      ∃ span, session = next.unread span ∧ Item span value)
    (hitem : ∀ {span value}, Item span value → Begins Whole span)
    (hfollow : ∀ {span value}, Item span value → (follow value).Viable fun more => Whole (span ++ more)) :
    (rule >>= follow).Viable Whole where
  failed {session error next} hfailed := by
    obtain hrule | ⟨first, mid, hrule, hrest⟩ := failed_of_bind hfailed
    · exact (h.mono hitem).failed hrule
    · obtain ⟨span, rfl, hspan⟩ := hreads hrule
      obtain ⟨rest, rfl, hloc, ⟨more, hmore⟩⟩ := (hfollow hspan).failed hrest
      exact ⟨span ++ rest, (Session.unread_append _ _ _).symm, hloc, more, by simpa using hmore⟩

theorem viable_exhausted : (exhausted : Rule α).Viable Whole where
  failed h := by cases h

theorem viable_pure {value : α} : (pure value : Rule α).Viable Whole where
  failed h := by cases h

theorem viable_failHere (h : Begins Whole []) : (failHere what : Rule α).Viable Whole where
  failed hfailed := by
    cases hfailed
    exact ⟨[], rfl, rfl, h⟩

theorem viable_bind_look {γ : Type} {view : Session → γ} {follow : γ → Rule β}
    (h : ∀ value, (follow value).Viable Whole) : (look view >>= follow).Viable Whole where
  failed hfailed := (h _).failed hfailed

theorem viable_bind_take? {γ : Type} {select : Terminal → Option γ} {follow : Option (γ × Location) → Rule β}
    (hnone : (follow none).Viable Whole)
    (hsome : ∀ {found terminal}, select terminal = some found → ∀ loc,
      (follow (some (found, loc))).Viable fun more => Whole (⟨terminal, loc⟩ :: more)) :
    (take? select >>= follow).Viable Whole where
  failed {session error next} hfailed := by
    rw [run_bind, run_take?] at hfailed
    cases htake : session.take? select with
    | none =>
      rw [htake] at hfailed
      exact hnone.failed hfailed
    | some taken =>
      obtain ⟨⟨found, loc⟩, mid⟩ := taken
      obtain ⟨terminal, hselect, rfl⟩ := Session.eq_unread_of_take? htake
      rw [htake] at hfailed
      obtain ⟨rest, rfl, hloc, ⟨more, hmore⟩⟩ := (hsome hselect loc).failed hfailed
      exact ⟨⟨terminal, loc⟩ :: rest, (Session.unread_cons _ _ _).symm, hloc, more, hmore⟩

theorem viable_bind_accept {follow : Option Location → Rule β} (hnone : (follow none).Viable Whole)
    (hsome : ∀ loc, (follow (some loc)).Viable fun more => Whole (⟨terminal, loc⟩ :: more)) :
    (accept terminal >>= follow).Viable Whole := by
  rw [accept_bind]
  refine viable_bind_take? hnone fun hsame loc => ?_
  cases Terminal.same?_eq_some_iff.1 hsame
  exact hsome loc

theorem viable_bind_expect {follow : Unit → Rule β} (h : Begins Whole [])
    (hfollow : ∀ loc, (follow ()).Viable fun more => Whole (⟨terminal, loc⟩ :: more)) :
    (expect terminal what >>= follow).Viable Whole := by
  rw [expect_bind]
  exact viable_bind_accept (viable_failHere h) hfollow

theorem viable_bind_identifier {follow : String × Location → Rule β} (h : Begins Whole [])
    (hfollow : ∀ name loc, (follow (name, loc)).Viable fun more => Whole (⟨.identifier name, loc⟩ :: more)) :
    (identifier >>= follow).Viable Whole := by
  rw [identifier_bind]
  refine viable_bind_take? (viable_failHere h) fun {name terminal} hname loc => ?_
  cases terminal with
  | identifier other => cases hname; exact hfollow name loc
  | integer | keyword | mark => cases hname

/-- What stands in front of a terminal that has to follow begins a whole, whether the terminal follows or not. -/
theorem Viable.bind_expect {Item : List Lexeme → α → Prop} {follow : α → Unit → Rule β}
    (h : rule.Viable (Of Item))
    (hreads : ∀ {session value next}, rule.run session = .done value next →
      ∃ span, session = next.unread span ∧ Item span value)
    (hitem : ∀ {span value}, Item span value → Begins Whole span)
    (hfollow : ∀ {span value}, Item span value → ∀ loc,
      (follow value ()).Viable fun more => Whole (span ++ ⟨terminal, loc⟩ :: more)) :
    (rule >>= fun value => expect terminal what >>= follow value).Viable Whole := by
  refine h.bind hreads hitem fun hspan => viable_bind_expect ?_ (hfollow hspan)
  obtain ⟨more, hmore⟩ := hitem hspan
  exact ⟨more, hmore⟩

end Rule

namespace Grammar

open Rule Phrase

mutual

theorem expression_viable : ∀ n, (expression n).Viable (Of Expression)
  | 0 => viable_exhausted
  | n + 1 => by
    rw [expression]
    refine (binary_viable n _).bind binary_sound ?_ fun testPhrase =>
      viable_bind_accept viable_pure fun question => ?_
    · exact fun phrase => ⟨[], ⟨.disjunction (by simpa using phrase)⟩⟩
    refine (expression_viable n).bind_expect expression_sound ?_ fun truePhrase colon => ?_
    · exact fun phrase => ⟨[closer .colon, filler],
        ⟨by simpa using Expression.conditional testPhrase phrase expression_filler⟩⟩
    refine (expression_viable n).bind expression_sound ?_ fun _ => viable_pure
    exact fun phrase => ⟨[], ⟨by simpa using Expression.conditional testPhrase truePhrase phrase⟩⟩

theorem binary_viable : ∀ n levels, (binary n levels).Viable (Of (Operand levels))
  | 0, _ => by
    rw [binary]
    exact viable_exhausted
  | n + 1, [] => by
    rw [binary]
    exact (unary_viable n).mono fun phrase => ⟨[], ⟨.unary (by simpa using phrase)⟩⟩
  | n + 1, level :: tighter => by
    rw [binary]
    refine (binary_viable n tighter).bind binary_sound ?_ fun phrase =>
      chain_viable n level tighter (.operand phrase)
    exact fun phrase => ⟨[], ⟨.chain (.operand (by simpa using phrase))⟩⟩

theorem chain_viable : ∀ n level tighter {span left}, Chain level tighter span left →
    (chain n level tighter left).Viable fun more => Of (Operand (level :: tighter)) (span ++ more)
  | 0, _, _, _, _, _ => by
    rw [chain]
    exact viable_exhausted
  | n + 1, level, tighter, span, left, leftPhrase => by
    rw [chain]
    refine viable_bind_take? viable_pure fun hop loc => ?_
    obtain ⟨rfl, hlevel⟩ := Terminal.binaryOp?_eq_some_iff.1 hop
    refine (binary_viable n tighter).bind binary_sound ?_ fun phrase => ?_
    · exact fun phrase => ⟨[], ⟨.chain (by simpa using leftPhrase.operator hlevel phrase)⟩⟩
    · simpa using chain_viable n level tighter (leftPhrase.operator hlevel phrase)

theorem unary_viable : ∀ n, (unary n).Viable (Of Unary)
  | 0 => viable_exhausted
  | n + 1 => by
    rw [unary]
    refine viable_bind_take? ((suffixed_viable n).mono ?_) fun hop loc => ?_
    · exact fun phrase => ⟨[], ⟨.suffixed (by simpa using phrase)⟩⟩
    cases Terminal.unaryOp?_eq_some_iff.1 hop
    refine (unary_viable n).bind unary_sound ?_ fun _ => viable_pure
    exact fun phrase => ⟨[], ⟨.operator (by simpa using phrase)⟩⟩

theorem suffixed_viable : ∀ n, (suffixed n).Viable (Of Suffixed)
  | 0 => viable_exhausted
  | n + 1 => by
    rw [suffixed]
    refine (primary_viable n).bind primary_sound ?_ fun phrase => suffixes_viable n (.primary phrase)
    exact fun phrase => ⟨[], ⟨.primary (by simpa using phrase)⟩⟩

theorem suffixes_viable : ∀ n {span operand}, Suffixed span operand →
    (suffixes n operand).Viable fun more => Of Suffixed (span ++ more)
  | 0, _, _, _ => by
    rw [suffixes]
    exact viable_exhausted
  | n + 1, span, operand, operandPhrase => by
    rw [suffixes]
    have hnothing : Begins (fun more => Of Suffixed (span ++ more)) [] :=
      ⟨[], ⟨by simpa using operandPhrase⟩⟩
    refine viable_bind_accept (viable_bind_look fun paren => ?_) fun bracket => ?_
    · split
      · cases hcallee : operand.callee? with
        | none => exact viable_failHere hnothing
        | some callee =>
          obtain ⟨name, loc⟩ := callee
          obtain ⟨type, id, rfl⟩ := Tree.callee?_eq_some_iff.1 hcallee
          refine viable_bind_expect hnothing fun paren => ?_
          refine (callArguments_viable n).bind_expect callArguments_sound ?_ fun argPhrase close => ?_
          · exact fun argPhrase => ⟨[closer .closeParen], ⟨by simpa using operandPhrase.call argPhrase⟩⟩
          · simpa using suffixes_viable n (operandPhrase.call argPhrase)
      · exact viable_pure
    · refine (expression_viable n).bind_expect expression_sound ?_ fun phrase close => ?_
      · exact fun phrase => ⟨[closer .closeBracket], ⟨by simpa using operandPhrase.index phrase⟩⟩
      · simpa using suffixes_viable n (operandPhrase.index phrase)

theorem callArguments_viable : ∀ n, (callArguments n).Viable (Of CallArguments)
  | 0 => viable_exhausted
  | n + 1 => by
    rw [callArguments]
    refine viable_bind_look fun closed => ?_
    split
    · exact viable_pure
    · exact (expressions_viable n).mono fun phrase => ⟨[], ⟨.some (by simpa using phrase)⟩⟩

theorem expressions_viable : ∀ n, (expressions n).Viable (Of Expressions)
  | 0 => viable_exhausted
  | n + 1 => by
    rw [expressions]
    refine (expression_viable n).bind expression_sound ?_ fun first =>
      viable_bind_accept viable_pure fun comma => ?_
    · exact fun phrase => ⟨[], ⟨.last (by simpa using phrase)⟩⟩
    refine (expressions_viable n).bind expressions_sound ?_ fun _ => viable_pure
    exact fun phrase => ⟨[], ⟨by simpa using Expressions.more first phrase⟩⟩

theorem primary_viable : ∀ n, (primary n).Viable (Of Primary)
  | 0 => viable_exhausted
  | n + 1 => by
    rw [primary]
    refine viable_bind_take? (viable_bind_expect ⟨[filler], ⟨.integer⟩⟩ fun paren => ?_) fun _ _ => viable_pure
    refine (expression_viable n).bind_expect expression_sound ?_ fun _ _ => viable_pure
    exact fun phrase => ⟨[closer .closeParen], ⟨by simpa using Primary.group phrase⟩⟩

end

theorem assignment_viable (n : Nat) : (assignment n).Viable (Of (Assignment Location.Touches)) where
  failed {session error next} hfailed := by
    obtain hincrement | ⟨found, mid, hincrement, hrest⟩ := failed_of_bind hfailed
    · rw [run_increment] at hincrement
      split at hincrement <;> cases hincrement
    · rw [run_increment] at hincrement
      cases hfound : increment? session.rest with
      | some tree =>
        rw [hfound] at hincrement
        cases hincrement
        cases hrest
      | none =>
        rw [hfound] at hincrement
        cases hincrement
        refine (viable_bind_look fun loc => ?_ : Rule.Viable _ (Of (Assignment Location.Touches))).failed hrest
        refine (suffixed_viable n).bind_expect suffixed_sound ?_ fun targetPhrase equal => ?_
        · exact fun phrase => ⟨[closer .equal, filler], phrase.assigned expression_filler⟩
        refine (expression_viable n).bind expression_sound ?_ fun _ => viable_pure
        exact fun phrase => ⟨[], by simpa using targetPhrase.assigned phrase⟩

end Grammar

end RoutineSpec
