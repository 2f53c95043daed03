import CobolTree.Proofs.Production.Faithful
import CobolTree.Proofs.Production.Lookahead

/-!
Loops end by themselves. A loop of the model stops when a round has consumed nothing, and some
loops have a token skipped then; neither ever happens. Every round that does not leave its loop
consumes a token (`Advances`, one lemma for each loop), so a loop of such rounds goes on for as
long as its rounds say (`repeating_eq`), no token is skipped (`rounds_eq_repeating`), and the
text left bounds the number of rounds. The loop over the parts of a unit has a law of its own
(`unitRounds_eq`), with the recursion into nested units in it; what holds of all that the loop can
be is shown by induction on the parts (`unitRounds_induction`).
-/

namespace CobolTree

/-- One of the tokens of an outcome is neither blank nor comment. -/
def Outcome.Carries {α : Type} (outcome : Outcome α) : Prop :=
  Lexeme.significant (Token.lexemes outcome.tokens) ≠ []

theorem Outcome.Carries.consumes {α : Type} {outcome : Outcome α} (h : outcome.Carries) :
    outcome.tokens ≠ [] := by
  intro empty
  exact h (by rw [empty]; rfl)

namespace Production

variable {α β σ : Type}

/-! ### Loops of advancing rounds -/

/-- A round that does not leave its loop consumes a token. -/
def Advances (round : σ → Production (ForInStep σ)) : Prop :=
  ∀ state cursor next, (round state cursor).value = .yield next → (round state cursor).tokens ≠ []

section Loops

variable {round : σ → Production (ForInStep σ)}

/-- A loop of advancing rounds takes another round exactly when its last round asks for it. -/
theorem repeating_eq (faithful : ∀ state, Faithful (round state)) (advances : Advances round)
    (state : σ) (cursor : Cursor) :
    repeating round state cursor =
      match (round state cursor).value with
      | .done final => (round state cursor).withValue final
      | .yield next =>
          (round state cursor).andThen (repeating round next (round state cursor).next) := by
  cases h : (round state cursor).value with
  | done final => exact repeating_of_done h
  | yield next =>
      exact repeating_of_yield h
        ((faithful state cursor).reads.shorter (advances state cursor next h))

/-- What holds of a last round, and of a round before a loop that has it, holds of a loop, whatever
the state that the loop begins in has to do with it. -/
theorem repeating_induction_from {motive : σ → Cursor → Outcome σ → Prop}
    (faithful : ∀ state, Faithful (round state)) (advances : Advances round)
    (last : ∀ state cursor final, (round state cursor).value = .done final →
      motive state cursor ((round state cursor).withValue final))
    (goesOn : ∀ state cursor next outcome, (round state cursor).value = .yield next →
      motive next (round state cursor).next outcome →
        motive state cursor ((round state cursor).andThen outcome))
    (state : σ) (cursor : Cursor) : motive state cursor (repeating round state cursor) := by
  fun_induction repeating round state cursor with
  | case1 state cursor first final h => exact last state cursor final h
  | case2 state cursor first next h shorter ih => exact goesOn state cursor next _ h ih
  | case3 state cursor first next h same =>
      exact absurd ((faithful state cursor).reads.shorter (advances state cursor next h)) same

/-- What holds of a last round, and of a round before a loop that has it, holds of a loop. -/
theorem repeating_induction {motive : Cursor → Outcome σ → Prop}
    (faithful : ∀ state, Faithful (round state)) (advances : Advances round)
    (last : ∀ state cursor final, (round state cursor).value = .done final →
      motive cursor ((round state cursor).withValue final))
    (goesOn : ∀ state cursor next outcome, (round state cursor).value = .yield next →
      motive (round state cursor).next outcome →
        motive cursor ((round state cursor).andThen outcome))
    (state : σ) (cursor : Cursor) : motive cursor (repeating round state cursor) :=
  repeating_induction_from faithful advances last goesOn state cursor

theorem ensureProgress_of_moved {before : Position} {cursor : Cursor} (context : Context)
    (h : cursor.position ≠ before) : ensureProgress before context cursor = .still () cursor := by
  simp [ensureProgress, h]

/-- No token is skipped behind a round that advances. -/
theorem orSkip_eq (context : Context) (faithful : ∀ state, Faithful (round state))
    (advances : Advances round) (state : σ) : orSkip context round state = round state := by
  funext cursor
  unfold orSkip
  simp only [bind_apply, here_apply, Outcome.still_andThen, Outcome.value_still, Outcome.next_still]
  cases h : (round state cursor).value with
  | done final => simp [← h]
  | yield next =>
      have moved := (faithful state cursor).reads.position_ne (advances state cursor next h)
      simp [ensureProgress_of_moved context moved, ← h]

/-- A loop that may skip tokens skips none if its rounds advance. -/
theorem rounds_eq_repeating (context : Context) (faithful : ∀ state, Faithful (round state))
    (advances : Advances round) (state : σ) :
    rounds context round state = repeating round state := by
  have same : orSkip context round = round := funext (orSkip_eq context faithful advances)
  rw [rounds, same]

end Loops

/-! ### What consumes a token -/

section Consume

variable {first : Outcome α} {second : Outcome β}

theorem tokens_andThen_ne_nil_left (h : first.tokens ≠ []) (second : Outcome β) :
    (first.andThen second).tokens ≠ [] := List.append_ne_nil_of_left_ne_nil h _

theorem tokens_andThen_ne_nil_right (first : Outcome α) (h : second.tokens ≠ []) :
    (first.andThen second).tokens ≠ [] := List.append_ne_nil_of_right_ne_nil _ h

theorem carries_andThen_left (h : first.Carries) (second : Outcome β) :
    (first.andThen second).Carries := by
  unfold Outcome.Carries at h ⊢
  simp [h]

theorem carries_andThen_right (first : Outcome α) (h : second.Carries) :
    (first.andThen second).Carries := by
  unfold Outcome.Carries at h ⊢
  simp [h]

end Consume

/-- Where text is left a token is consumed, if only a blank. -/
theorem bumpSignificant_consumes {cursor : Cursor} (left : cursor.rest ≠ []) (context : Context) :
    (bumpSignificant context cursor).tokens ≠ [] := by
  cases h : cursor.next? context with
  | none => exact absurd (Cursor.next?_eq_none_iff.mp h) left
  | some read =>
      obtain ⟨token, after⟩ := read
      cases trivial : token.isTrivia with
      | true =>
          refine tokens_andThen_ne_nil_left ?_ _
          rw [trivia_of_trivia h trivial]
          exact tokens_andThen_ne_nil_left (by simp [tokens_bump h]) _
      | false => simp [bumpSignificant, trivia_of_carries h trivial, tokens_bump h]

theorem mode_context (division : Division) : division.context.mode = .word := by
  cases division <;> rfl

/-! ### One part of a unit -/

section Part

variable (settings : Settings) (state : UnitState) {cursor : Cursor}

theorem trees_checkOrder (seen : List Division) (division : Division) (cursor : Cursor) :
    (checkOrder settings seen division cursor).trees = [] ∧
      (checkOrder settings seen division cursor).next = cursor := by
  unfold checkOrder
  simp only [bind_apply, nextSignificant, Outcome.still_andThen, Outcome.value_still,
    Outcome.next_still]
  cases (cursor.significant? .programUnit).map (·.1) with
  | none => exact ⟨rfl, rfl⟩
  | some token =>
      simp only
      cases orderProblem? seen division <;> exact ⟨rfl, rfl⟩

/-- At the header of a division, a part is that division. -/
theorem unitPart_of_header {found : Division} (h : cursor.divisionHeader? = some found) :
    unitPart settings state cursor =
      ((checkOrder settings state.seen found cursor).andThen
        (division settings found cursor)).withValue
          ⟨state.seen ++ [found], (division settings found cursor).value.or state.identity⟩ := by
  simp [unitPart, h, (trees_checkOrder settings state.seen found cursor).2]

/-- Elsewhere, a part is stray text. -/
theorem unitPart_of_stray (h : cursor.divisionHeader? = none) :
    unitPart settings state cursor = (strayText .programUnit cursor).withValue state := by
  simp [unitPart, h]

end Part

/-! ### What carries a token -/

section Carry

variable {cursor : Cursor} (atToken : cursor.AtToken)

include atToken

theorem carries_bumpSignificant {context : Context} (word : context.mode = .word) :
    (bumpSignificant context cursor).Carries := by
  obtain ⟨token, after, h⟩ := atToken.exists_significant? (.inl word)
  simp [Outcome.Carries, significant_bumpSignificant h]

/-- A sentence takes the token it begins at, whatever the token is. -/
theorem carries_sentence {context : Context}
    (mode : context.mode = .word ∨ context.mode = .sentence) (kind : Kind) (pictures : Bool) :
    (sentence context kind pictures cursor).Carries := by
  obtain ⟨token, after, h, carries⟩ := atToken.exists_next? mode
  have bumped : (bump context cursor).Carries := by
    simp [Outcome.Carries, tokens_bump h, Lexeme.significant, carries]
  have begins : (sentenceRound context pictures .empty cursor).Carries := by
    have goesOn : ¬(SentenceState.empty ≠ .empty ∧ cursor.atHeader = true) := by simp
    by_cases period : token.kind = .dot
    · rw [sentenceRound_of_period h pictures carries goesOn period]
      exact bumped
    · rw [sentenceRound_of_token h carries goesOn period]
      exact carries_andThen_left bumped _
  refine carries_andThen_left ?_ _
  rw [repeating]
  split
  · exact begins
  · split
    · exact carries_andThen_left begins _
    · exact begins

theorem carries_strayText {context : Context} (word : context.mode = .word) :
    (strayText context cursor).Carries := by
  have body := carries_sentence atToken (.inl word) .errorNode false
  simpa [Outcome.Carries, strayText] using body

theorem carries_programIdParagraph : (programIdParagraph cursor).Carries :=
  carries_andThen_left (carries_bumpSignificant atToken rfl) _

theorem carries_commentEntryParagraph : (commentEntryParagraph cursor).Carries :=
  carries_andThen_left (carries_bumpSignificant atToken rfl) _

theorem carries_procedureSection (settings : Settings) :
    (procedureSection settings cursor).Carries :=
  carries_andThen_left (carries_andThen_left (carries_bumpSignificant atToken rfl) _) _

theorem carries_procedureParagraph (settings : Settings) :
    (procedureParagraph settings cursor).Carries :=
  carries_andThen_left (carries_andThen_left (carries_bumpSignificant atToken rfl) _) _

theorem carries_division (settings : Settings) (division : Division) :
    (Production.division settings division cursor).Carries :=
  carries_andThen_left
    (carries_andThen_left (carries_bumpSignificant atToken (mode_context division)) _) _

theorem carries_trailer (current : Option ProgramIdentity) : (trailer current cursor).Carries :=
  carries_andThen_left (carries_bumpSignificant atToken rfl) _

theorem carries_unitPart (settings : Settings) (state : UnitState) :
    (unitPart settings state cursor).Carries := by
  cases h : cursor.divisionHeader? with
  | some found =>
      rw [unitPart_of_header settings state h]
      exact carries_andThen_right _ (carries_division atToken settings found)
  | none =>
      rw [unitPart_of_stray settings state h]
      exact carries_strayText atToken rfl

end Carry

theorem rest_ne_nil_of_not_atUnitBoundary {cursor : Cursor} (h : ¬cursor.atUnitBoundary = true) :
    cursor.rest ≠ [] := by
  intro same
  simp [Cursor.atUnitBoundary, Cursor.atEnd, same] at h

/-- Behind blanks and comments, where the text has not ended, a token stands. -/
theorem atToken_of_not_atEnd {context : Context} (word : context.mode = .word) {cursor : Cursor}
    (h : ¬(trivia context cursor).next.atEnd = true) : (trivia context cursor).next.AtToken :=
  atToken_trivia word fun empty => h (Cursor.atEnd_iff.mpr empty)

/-- Behind blanks and comments, where a division goes on, a token stands. -/
theorem atToken_of_not_atUnitBoundary {context : Context} (word : context.mode = .word)
    {cursor : Cursor} (h : ¬(trivia context cursor).next.atUnitBoundary = true) :
    (trivia context cursor).next.AtToken :=
  atToken_trivia word (rest_ne_nil_of_not_atUnitBoundary h)

/-! ### The rounds of the parser -/

theorem advances_triviaRound (context : Context) :
    Advances fun _ : Unit => triviaRound context := by
  intro state cursor next h
  cases read : cursor.next? context with
  | none => simp [triviaRound_of_end read] at h
  | some found =>
      obtain ⟨token, after⟩ := found
      cases trivial : token.isTrivia with
      | true => simp [triviaRound_of_trivia read trivial, tokens_bump read]
      | false => simp [triviaRound_of_carries read trivial] at h

/-- A token that is eaten is consumed. -/
theorem carries_of_eatIf {context : Context} {test : Token → Bool} {cursor : Cursor} {token : Token}
    (h : (eatIf context test cursor).value = some token) :
    (eatIf context test cursor).Carries := by
  simp [Outcome.Carries, significant_eatIf, h]

/-- What a round of a sentence does: nothing where the sentence ends without a period; else it takes
the next token, which is trivial, or the period that ends the sentence, or part of it. -/
theorem sentenceRound_cases (context : Context) (pictures : Bool) (state : SentenceState)
    (cursor : Cursor) :
    let round := sentenceRound context pictures state cursor
    let bumped := bump context cursor
    round = .still (.done state) cursor ∨
      ∃ token after, cursor.next? context = some (token, after) ∧
        (token.isTrivia = true ∧ round = bumped.withValue (.yield state) ∨
          token.isTrivia = false ∧ (state = .empty ∨ cursor.atHeader = false) ∧
            (token.kind = .dot ∧ round = bumped.withValue (.done .terminated) ∨
              token.kind ≠ .dot ∧ round =
                (bumped.andThen (if pictures && isPictureWord token then
                  pictureOperand context bumped.next else .still () bumped.next)).withValue
                    (.yield .begun))) := by
  intro round bumped
  cases read : cursor.next? context with
  | none => exact .inl (sentenceRound_of_end pictures state read)
  | some found =>
      obtain ⟨token, after⟩ := found
      cases trivial : token.isTrivia with
      | true =>
          exact .inr ⟨token, after, rfl, .inl ⟨trivial,
            sentenceRound_of_trivia read pictures state trivial⟩⟩
      | false =>
          by_cases ends : state ≠ .empty ∧ cursor.atHeader = true
          · exact .inl (sentenceRound_of_header read pictures trivial ends.1 ends.2)
          · have free : state = .empty ∨ cursor.atHeader = false := by
              by_cases empty : state = .empty
              · exact .inl empty
              · exact .inr (Bool.eq_false_iff.mpr fun header => ends ⟨empty, header⟩)
            refine .inr ⟨token, after, rfl, .inr ⟨trivial, free, ?_⟩⟩
            by_cases period : token.kind = .dot
            · exact .inl ⟨period, sentenceRound_of_period read pictures trivial ends period⟩
            · exact .inr ⟨period, sentenceRound_of_token read trivial ends period⟩

theorem advances_sentenceRound (context : Context) (pictures : Bool) :
    Advances (sentenceRound context pictures) := by
  intro state cursor next h
  rcases sentenceRound_cases context pictures state cursor with
    same | ⟨token, after, read, ⟨-, same⟩ | ⟨-, -, ⟨-, same⟩ | ⟨-, same⟩⟩⟩
  · rw [same] at h
    cases h
  · simp [same, tokens_bump read]
  · rw [same] at h
    cases h
  · simp [same, tokens_bump read]

theorem advances_headerPhraseRound (context : Context) :
    Advances fun _ : Unit => headerPhraseRound context := by
  intro state cursor next h
  simp only [headerPhraseRound_apply] at h ⊢
  split
  · rename_i ends
    rw [if_pos ends] at h
    cases h
  · rename_i goesOn
    have left : cursor.rest ≠ [] :=
      rest_ne_nil_of_not_atUnitBoundary fun boundary => goesOn (by simp [boundary])
    exact bumpSignificant_consumes left context

theorem advances_programAttributeRound (context : Context) :
    Advances fun _ : Unit => programAttributeRound context := by
  intro state cursor next h
  unfold programAttributeRound at h ⊢
  simp only [bind_apply] at h ⊢
  cases eaten : (eatIf context _ cursor).value with
  | none => simp [eaten] at h
  | some token => exact tokens_andThen_ne_nil_left (carries_of_eatIf eaten).consumes _

theorem advances_commentEntryRound : Advances fun _ : Unit => commentEntryRound := by
  intro state cursor next h
  cases read : cursor.next? .commentEntry with
  | none => simp [commentEntryRound_of_end read] at h
  | some found =>
      simp only [commentEntryRound_of_next? read] at h ⊢
      split
      · rename_i ends
        rw [if_pos ends] at h
        cases h
      · simp [tokens_bump read]

theorem advances_entryRound {context : Context} (word : context.mode = .word) (pictures : Bool) :
    Advances fun _ : Unit => entryRound context pictures := by
  intro state cursor next h
  simp only [entryRound_apply] at h ⊢
  refine tokens_andThen_ne_nil_right _ ?_
  split
  · rename_i boundary
    rw [if_pos boundary] at h
    cases h
  · rename_i inside
    have atToken := atToken_of_not_atUnitBoundary word inside
    exact (carries_sentence atToken (.inr rfl) _ _).consumes

theorem advances_identificationRound : Advances identificationRound := by
  intro state cursor next h
  simp only [identificationRound_apply] at h ⊢
  refine tokens_andThen_ne_nil_right _ ?_
  split
  · rename_i boundary
    rw [if_pos boundary] at h
    cases h
  · rename_i inside
    have atToken := atToken_of_not_atUnitBoundary rfl inside
    split
    · exact (carries_programIdParagraph atToken).consumes
    · split
      · exact (carries_commentEntryParagraph atToken).consumes
      · exact (carries_strayText atToken rfl).consumes

theorem advances_procedureSentenceRound (settings : Settings) :
    Advances fun _ : Unit => procedureSentenceRound settings := by
  intro state cursor next h
  simp only [procedureSentenceRound_apply] at h ⊢
  refine tokens_andThen_ne_nil_right _ ?_
  split
  · rename_i ends
    rw [if_pos ends] at h
    cases h
  · rename_i goesOn
    have inside : ¬(trivia .procedureDivision cursor).next.atUnitBoundary = true :=
      fun boundary => goesOn (by simp [boundary])
    have atToken := atToken_of_not_atUnitBoundary rfl inside
    exact (carries_sentence atToken (.inr rfl) _ _).consumes

theorem advances_procedureRound (settings : Settings) :
    Advances fun _ : Unit => procedureRound settings := by
  intro state cursor next h
  simp only [procedureRound_apply] at h ⊢
  refine tokens_andThen_ne_nil_right _ ?_
  split
  · rename_i boundary
    rw [if_pos boundary] at h
    cases h
  · rename_i inside
    have atToken := atToken_of_not_atUnitBoundary rfl inside
    split
    · exact (carries_procedureSection atToken settings).consumes
    · split
      · exact (carries_procedureParagraph atToken settings).consumes
      · exact (carries_sentence atToken (.inr rfl) _ _).consumes

/-! ### The parts of a unit -/

theorem rest_ne_nil_of_divisionHeader? {cursor : Cursor} {division : Division}
    (h : cursor.divisionHeader? = some division) : cursor.rest ≠ [] := by
  obtain ⟨name, word, ahead, -⟩ := Cursor.divisionHeader?_eq_some_iff.mp h
  obtain ⟨middle, after, first, -⟩ := Cursor.ahead_two_eq_iff.mp ahead
  intro empty
  have shorter := Cursor.shorter_of_significant? first
  simp [empty] at shorter

theorem not_atEnd_of_atEndProgram {cursor : Cursor} (h : cursor.atEndProgram = true) :
    ¬cursor.atEnd = true := by
  obtain ⟨first, second, ahead, -⟩ := Cursor.atEndProgram_iff.mp h
  obtain ⟨middle, after, one, -⟩ := Cursor.ahead_two_eq_iff.mp ahead
  intro ended
  have shorter := Cursor.shorter_of_significant? one
  simp [Cursor.atEnd_iff.mp ended] at shorter

/-- Behind the blanks and comments before a division header, the parts of a unit go on. -/
theorem goesOn_of_divisionHeader? {cursor : Cursor} {division : Division}
    (h : cursor.divisionHeader? = some division) :
    (trivia .programUnit cursor).next.divisionHeader? = some division ∧
      ¬(trivia .programUnit cursor).next.atEnd = true ∧
      ¬(trivia .programUnit cursor).next.atEndProgram = true := by
  have header : (trivia .programUnit cursor).next.divisionHeader? = some division :=
    (Cursor.divisionHeader?_congr (significant?_trivia _ cursor)).trans h
  refine ⟨header, ?_, ?_⟩
  · intro ends
    exact rest_ne_nil_of_divisionHeader? header (Cursor.atEnd_iff.mp ends)
  · simp [Cursor.atEndProgram_of_divisionHeader? header]

section Units

variable (settings : Settings) (enclosing : List ProgramIdentity)

/-- A unit that begins at a division header takes the header. -/
theorem carries_unitRounds {cursor : Cursor} {division : Division}
    (h : cursor.divisionHeader? = some division) :
    (unitRounds settings enclosing .fresh cursor).Carries := by
  obtain ⟨-, notEnd, notTrailer⟩ := goesOn_of_divisionHeader? h
  have notNested : ¬((trivia .programUnit cursor).next.divisionHeader? = some .identification ∧
      UnitState.fresh.seen ≠ []) := by simp [UnitState.fresh]
  have part := carries_unitPart (atToken_of_not_atEnd rfl notEnd) settings .fresh
  rw [unitRounds]
  simp only [if_neg notEnd, if_neg notTrailer, dif_neg notNested]
  split
  · exact carries_andThen_left (carries_andThen_left (carries_andThen_right _ part) _) _
  · exact carries_andThen_left (carries_andThen_right _ part) _

/-- Every part of a unit takes a token, a nested unit at least its first header. -/
theorem carries_unitStep (state : UnitState) {cursor : Cursor} (atToken : cursor.AtToken) :
    (unitStep settings enclosing state cursor).Carries := by
  unfold unitStep
  split
  · rename_i nested
    exact carries_andThen_left (carries_unitRounds settings _ nested.1) _
  · exact carries_unitPart atToken settings state

/-- The order in which units are read: a unit that has begun may have another nested in it that
begins where it stands, and behind any part less text is left. -/
theorem unitRounds_descent {motive : List ProgramIdentity → UnitState → Cursor → Prop}
    (step : ∀ enclosing state cursor,
      (∀ inner, state.seen ≠ [] → motive inner .fresh (trivia .programUnit cursor).next) →
      (∀ later next, next.rest.length < cursor.rest.length → motive enclosing later next) →
        motive enclosing state cursor)
    (enclosing : List ProgramIdentity) (state : UnitState) (cursor : Cursor) :
    motive enclosing state cursor := by
  refine step enclosing state cursor (fun inner begun => ?_) fun later next shorter => ?_
  · exact unitRounds_descent step inner .fresh _
  · exact unitRounds_descent step enclosing later next
termination_by 2 * cursor.rest.length + state.weight
decreasing_by
  · have : (trivia .programUnit cursor).next.rest.length ≤ cursor.rest.length :=
      trivia_length_le _ cursor
    have : state.weight = 1 := by simp [UnitState.weight, begun]
    have : UnitState.fresh.weight = 0 := rfl
    omega
  · have := later.weight_le
    omega

/-- The parts of a unit with one part of it named. -/
theorem unitRounds_apply (state : UnitState) (cursor : Cursor) :
    unitRounds settings enclosing state cursor =
      let lead := trivia .programUnit cursor
      if lead.next.atEnd then lead.withValue state
      else if lead.next.atEndProgram then
        if closesEnclosing state.identity enclosing lead.next then lead.withValue state
        else (lead.andThen (trailer state.identity lead.next)).withValue state
      else
        let part := unitStep settings enclosing state lead.next
        let skip := ensureProgress cursor.position .programUnit part.next
        let round := (lead.andThen part).andThen skip
        if skip.next.rest.length < cursor.rest.length then
          round.andThen (unitRounds settings enclosing part.value skip.next)
        else round.withValue part.value := by
  rw [unitRounds]
  rfl

/-- The parts of a unit go on up to the end of the text or END PROGRAM, and no token between
them is skipped. -/
theorem unitRounds_eq (state : UnitState) (cursor : Cursor) :
    unitRounds settings enclosing state cursor =
      let lead := trivia .programUnit cursor
      if lead.next.atEnd then lead.withValue state
      else if lead.next.atEndProgram then
        if closesEnclosing state.identity enclosing lead.next then lead.withValue state
        else (lead.andThen (trailer state.identity lead.next)).withValue state
      else
        let part := unitStep settings enclosing state lead.next
        (lead.andThen part).andThen (unitRounds settings enclosing part.value part.next) := by
  rw [unitRounds_apply]
  simp only
  split
  · rfl
  · rename_i notEnd
    split
    · rfl
    · have atToken := atToken_of_not_atEnd rfl notEnd
      have part := carries_unitStep settings enclosing state atToken
      have consumed := tokens_andThen_ne_nil_right (trivia .programUnit cursor) part.consumes
      have reads := ((flat_trivia .programUnit cursor).faithful.andThen
        (faithful_unitStep settings enclosing state _)).reads
      have still := ensureProgress_of_moved .programUnit (reads.position_ne consumed)
      have shorter := reads.shorter consumed
      simp only [Outcome.next_andThen] at still shorter
      rw [still, Outcome.next_still, if_pos shorter]
      simp [Outcome.andThen, Outcome.still]

/-- Behind a part of a unit less text is left. -/
theorem shorter_unitStep (state : UnitState) {cursor : Cursor}
    (left : ¬(trivia .programUnit cursor).next.atEnd = true) :
    (unitStep settings enclosing state (trivia .programUnit cursor).next).next.rest.length <
      cursor.rest.length := by
  have part := carries_unitStep settings enclosing state (atToken_of_not_atEnd rfl left)
  have reads := ((flat_trivia .programUnit cursor).faithful.andThen
    (faithful_unitStep settings enclosing state _)).reads
  exact reads.shorter (carries_andThen_right _ part).consumes

/-- Induction on the parts of a unit, in whatever state the unit is and whatever encloses it: blanks
where the text ends, or before a trailer that is left for another unit; a trailer behind blanks; and
a part behind blanks before the parts that follow it. A unit that is nested where the part begins
has the property already. -/
theorem unitRounds_induction_within
    {motive : List ProgramIdentity → UnitState → Cursor → Outcome UnitState → Prop}
    (ends : ∀ enclosing state cursor, let lead := trivia .programUnit cursor
      lead.next.atEnd = true → motive enclosing state cursor (lead.withValue state))
    (leaves : ∀ enclosing state cursor, let lead := trivia .programUnit cursor
      lead.next.atEndProgram = true → closesEnclosing state.identity enclosing lead.next = true →
        motive enclosing state cursor (lead.withValue state))
    (closes : ∀ enclosing state cursor, let lead := trivia .programUnit cursor
      lead.next.atEndProgram = true → closesEnclosing state.identity enclosing lead.next = false →
        motive enclosing state cursor
          ((lead.andThen (trailer state.identity lead.next)).withValue state))
    (goesOn : ∀ enclosing state cursor,
      let lead := trivia .programUnit cursor
      let part := unitStep settings enclosing state lead.next
      let rest := unitRounds settings enclosing part.value part.next
      lead.next.AtToken → lead.next.atEndProgram = false →
        (∀ inner, state.seen ≠ [] →
          motive inner .fresh lead.next (unitRounds settings inner .fresh lead.next)) →
        motive enclosing part.value part.next rest →
          motive enclosing state cursor ((lead.andThen part).andThen rest))
    (state : UnitState) (cursor : Cursor) :
    motive enclosing state cursor (unitRounds settings enclosing state cursor) := by
  apply unitRounds_descent (motive := fun enclosing state cursor =>
    motive enclosing state cursor (unitRounds settings enclosing state cursor))
  intro enclosing state cursor nested later
  rw [unitRounds_eq]
  simp only
  split
  · rename_i ended
    exact ends enclosing state cursor ended
  · rename_i notEnd
    split
    · rename_i closing
      split
      · rename_i enclosed
        exact leaves enclosing state cursor closing enclosed
      · rename_i own
        exact closes enclosing state cursor closing (Bool.eq_false_iff.mpr own)
    · rename_i notTrailer
      exact goesOn enclosing state cursor (atToken_of_not_atEnd rfl notEnd)
        (Bool.eq_false_iff.mpr notTrailer) nested
        (later _ _ (shorter_unitStep settings enclosing state notEnd))

/-- Induction on the parts of a unit where it does not matter what encloses the unit: blanks where
the unit ends, a trailer behind blanks, and a part behind blanks before the parts that follow it. -/
theorem unitRounds_induction {motive : UnitState → Cursor → Outcome UnitState → Prop}
    (ends : ∀ state cursor, motive state cursor ((trivia .programUnit cursor).withValue state))
    (closes : ∀ state cursor, let lead := trivia .programUnit cursor
      lead.next.atEndProgram = true →
        motive state cursor ((lead.andThen (trailer state.identity lead.next)).withValue state))
    (goesOn : ∀ enclosing state cursor outcome,
      let lead := trivia .programUnit cursor
      let part := unitStep settings enclosing state lead.next
      lead.next.AtToken → lead.next.atEndProgram = false →
        (∀ inner, state.seen ≠ [] →
          motive .fresh lead.next (unitRounds settings inner .fresh lead.next)) →
        motive part.value part.next outcome →
          motive state cursor ((lead.andThen part).andThen outcome))
    (state : UnitState) (cursor : Cursor) :
    motive state cursor (unitRounds settings enclosing state cursor) := by
  refine unitRounds_induction_within settings enclosing
    (motive := fun _ state cursor outcome => motive state cursor outcome) ?ends ?leaves ?closes
    ?goesOn state cursor
  case ends => exact fun _ state cursor _ => ends state cursor
  case leaves => exact fun _ state cursor _ _ => ends state cursor
  case closes => exact fun _ state cursor closing _ => closes state cursor closing
  case goesOn =>
    intro enclosing state cursor lead part rest atToken notTrailer nested later
    exact goesOn enclosing state cursor rest atToken notTrailer nested later

/-- Which unit a trailer closes is told by the third token. -/
theorem closesEnclosing_apply {first second : Token} {cursor middle after : Cursor}
    (next : cursor.significant? .endProgram = some (first, middle))
    (behind : middle.significant? .endProgram = some (second, after))
    (current : Option ProgramIdentity) (enclosing : List ProgramIdentity) :
    closesEnclosing current enclosing cursor =
      match after.significant? .endProgram with
      | none => false
      | some (token, _) =>
          let names (program : ProgramIdentity) : Bool :=
            Text.sameWord program.name (programName token.text)
          !current.any names && enclosing.any names := by
  unfold closesEnclosing
  cases third : after.significant? .endProgram with
  | none => simp [Cursor.ahead, next, behind, third]
  | some read => simp [Cursor.ahead, next, behind, third]

theorem closesEnclosing_nil (current : Option ProgramIdentity) (cursor : Cursor) :
    closesEnclosing current [] cursor = false := by
  unfold closesEnclosing
  split <;> simp

/-- A unit that no other encloses takes a trailer it begins at, whatever program it names. -/
theorem carries_programUnit {cursor : Cursor} (atToken : cursor.AtToken) :
    (programUnit settings cursor).Carries := by
  obtain ⟨token, after, read, carries⟩ := id atToken
  refine carries_andThen_left ?_ _
  rw [unitRounds_eq, trivia_of_carries read carries]
  simp only [closesEnclosing_nil, Outcome.next_still]
  split
  · rename_i ends
    exact absurd (Cursor.atEnd_iff.mp ends) atToken.rest_ne_nil
  · split
    · exact carries_andThen_right _ (carries_trailer atToken _)
    · exact carries_andThen_left
        (carries_andThen_right _ (carries_unitStep settings [] _ atToken)) _

theorem advances_programUnitRound : Advances fun _ : Unit => programUnitRound settings := by
  intro state cursor next h
  simp only [programUnitRound_apply] at h ⊢
  refine tokens_andThen_ne_nil_right _ ?_
  split
  · rename_i ends
    rw [Outcome.value_andThen, if_pos ends] at h
    cases h
  · rename_i goesOn
    exact (carries_programUnit settings (atToken_of_not_atEnd rfl goesOn)).consumes

/-- What holds of blanks, and of a unit that no other encloses, holds of a row of units. -/
theorem programUnits_of_unit {motive : {α : Type} → Cursor → Outcome α → Prop}
    (withValue : ∀ {α β : Type} {cursor : Cursor} {outcome : Outcome α} (value : β),
      motive cursor outcome → motive cursor (outcome.withValue value))
    (andThen : ∀ {α β : Type} {cursor : Cursor} {first : Outcome α} {second : Outcome β},
      first.Faithful cursor → second.Faithful first.next → motive cursor first →
        motive first.next second → motive cursor (first.andThen second))
    (blanks : ∀ cursor, motive cursor (trivia .programUnit cursor))
    (unit : ∀ cursor, motive cursor (programUnit settings cursor)) (cursor : Cursor) :
    motive cursor (programUnits settings cursor) := by
  have faithful := faithful_programUnitRound settings
  have each (cursor : Cursor) : motive cursor (programUnitRound settings cursor) := by
    rw [programUnitRound_apply]
    simp only
    split
    · rw [Outcome.andThen_still]
      exact withValue _ (blanks cursor)
    · exact andThen (flat_trivia _ cursor).faithful
        ((faithful_programUnit settings _).withValue _) (blanks cursor) (withValue _ (unit _))
  rw [programUnits, rounds_eq_repeating .programUnit (fun _ => faithful)
    (advances_programUnitRound settings)]
  generalize () = state
  fun_induction repeating (fun _ => programUnitRound settings) state cursor with
  | case1 state cursor first final _ => exact withValue final (each cursor)
  | case2 state cursor first next _ shorter ih =>
      exact andThen (faithful cursor) (faithful_repeating (fun _ => faithful) next _) (each cursor) ih
  | case3 state cursor first next _ same => exact withValue next (each cursor)

end Units

end Production

end CobolTree
