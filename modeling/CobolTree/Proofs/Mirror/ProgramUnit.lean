import CobolTree.Parsed
import CobolTree.Proofs.Mirror.Division

/-!
Mirrors of program units. The trailer of a unit can be left for an enclosing program, which is told
by the name in it, so there the look ahead goes one token further (`closesEnclosing_cursor`). The
parts of a unit are mirrored by induction on the parts, nested units included
(`Placement.mirrors_unitRounds`), and with them the units of a whole text
(`Placement.mirrors_programUnits`).
-/

namespace CobolTree

namespace Placement

open Production

variable (place : Placement)

/-- What the parts of a unit have shown, as the whole has it. -/
def unit (state : UnitState) : UnitState := ⟨state.seen, state.identity.map place.identity⟩

variable {place} {pictures : Bool} {cursor : Cursor} {context : Context}

/-! ### Trailers -/

theorem mirrors_checkTrailerName (current : Option ProgramIdentity) (name : Option Token) :
    place.Mirrors pictures id (checkTrailerName current name)
      (checkTrailerName (current.map place.identity) (name.map place.token)) := by
  cases name with
  | none =>
      cases current with
      | none => exact mirrors_reportHere _
      | some program => exact mirrors_reportHere _
  | some token =>
      cases current with
      | none => exact mirrors_pure rfl
      | some program =>
          simp only [checkTrailerName, Option.map_some, identity, toLexeme_token, text_lexeme,
            programName_text, Recasing.sameWord_text_left, Recasing.sameWord_text_right]
          exact mirrors_ite (mirrors_pure rfl) (mirrors_report (tells_ofToken _ token))

/-- The name in a trailer, the period, and the blanks behind it. -/
def trailerEnding (current : Option ProgramIdentity) : Production Unit := do
  let name ← eatIf .endProgram namesProgram
  checkTrailerName current name
  let _ ← expectPeriod .endProgram .endProgram
  trivia .programUnit

theorem trailer_eq (current : Option ProgramIdentity) :
    trailer current =
      (bumpSignificant .endProgram >>= fun _ =>
        eatWord .endProgram "PROGRAM".toList >>= fun _ => trailerEnding current) := rfl

theorem mirrors_trailerEnding (current : Option ProgramIdentity) :
    place.Mirrors pictures id (trailerEnding current)
      (trailerEnding (current.map place.identity)) :=
  mirrors_bind (mirrors_eatIf (by decide) namesProgram_token) fun name =>
    mirrors_bind (mirrors_checkTrailerName current name) fun _ =>
      mirrors_bind (mirrors_expectPeriod (by decide) _) fun _ => mirrors_trivia (by decide)

theorem mirrors_trailer (current : Option ProgramIdentity) :
    place.Mirrors pictures id (trailer current) (trailer (current.map place.identity)) := by
  rw [trailer_eq, trailer_eq]
  exact mirrors_bind (mirrors_bumpSignificant (by decide)) fun _ =>
    mirrors_bind (mirrors_eatWord (by decide) _) fun _ => mirrors_trailerEnding current

/-! ### Parts of a unit -/

section Parts

variable (settings : Settings)

theorem orderProblem?_problem (seen : List Division) (division : Division) :
    (orderProblem? seen division).map place.problem = orderProblem? seen division := by
  unfold orderProblem?
  split
  · rfl
  · split
    · rfl
    · rfl

theorem mirrors_checkOrder (seen : List Division) (division : Division) :
    place.Mirrors pictures id (checkOrder settings seen division)
      (checkOrder settings seen division) := by
  refine mirrors_bind (mirrors_nextSignificant _) fun next => ?_
  cases next with
  | none => exact mirrors_pure rfl
  | some token =>
      have same : (orderProblem? seen division).map place.problem = orderProblem? seen division :=
        orderProblem?_problem seen division
      simp only [Option.map_some]
      cases found : orderProblem? seen division with
      | none => exact mirrors_pure rfl
      | some problem =>
          rw [found, Option.map_some, Option.some.injEq] at same
          have tells : place.Tells (problem.ofToken token)
              ((place.problem problem).ofToken (place.token token)) := tells_ofToken problem token
          rw [same] at tells
          exact mirrors_report (tells_withSeverity _ tells)

theorem mirrored_unitPart (state : UnitState) (cursor : Cursor) :
    place.Mirrored false place.unit cursor (unitPart settings state cursor)
      (unitPart settings (place.unit state) (place.cursor cursor)) := by
  cases h : cursor.divisionHeader? with
  | none =>
      rw [unitPart_of_stray settings state h]
      refine ((mirrors_strayText (by decide) cursor).withValue rfl).of_foresees fun foresees => ?_
      exact unitPart_of_stray settings _ ((divisionHeader?_cursor foresees).trans h)
  | some found =>
      have still := (trees_checkOrder settings state.seen found cursor).2
      have part : place.Mirrored false (Option.map place.identity) cursor
          ((checkOrder settings state.seen found cursor).andThen
            (Production.division settings found cursor))
          ((checkOrder settings state.seen found (place.cursor cursor)).andThen
            (Production.division settings found (place.cursor cursor))) := by
        refine (mirrors_checkOrder settings state.seen found cursor).andThen ?_ fun _ _ => rfl
        rw [still]
        exact mirrored_division settings h
      rw [unitPart_of_header settings state h]
      refine ⟨part.reads, fun allowed foresees => ?_⟩
      obtain ⟨here, alike⟩ := part.hands allowed foresees
      have header := (divisionHeader?_cursor here).trans h
      rw [unitPart_of_header settings _ header]
      refine ⟨here, alike.withValue ?_⟩
      have value : (Production.division settings found (place.cursor cursor)).value =
          (Production.division settings found cursor).value.map place.identity := alike.value
      rw [value]
      simp [unit, Option.map_or]

/-- A unit is gathered and closed just as in the text, from wherever its first token is seen. -/
theorem mirrored_closeUnit {parts whole : Outcome UnitState}
    (h : place.Mirrored false place.unit cursor parts whole) :
    place.Mirrored false id cursor (closeUnit cursor parts)
      (closeUnit (place.cursor cursor) whole) := by
  let ending (seen : List Division) (first : Option Token) : Production Unit :=
    if seen.contains .identification then pure () else reportAt first .noIdentificationDivision
  have mirrors (first : Option Token) : place.Mirrors false id
      (ending parts.value.seen first) (ending parts.value.seen (first.map place.token)) :=
    mirrors_ite (mirrors_pure rfl) (mirrors_reportAt first _)
  have closed : place.Mirrored false id cursor (closeUnit cursor parts)
      ((whole.andThen (ending whole.value.seen
        (((cursor.significant? .programUnit).map (·.1)).map place.token) whole.next)).under
          .programUnit) := by
    refine .under _ (h.andThen (mirrors _ parts.next) fun value next => ?_)
    rw [value, next]
    rfl
  refine closed.of_foresees fun foresees => ?_
  rw [← significant?_map_cursor foresees.sees]
  rfl

end Parts

/-! ### Units -/

/-- The two words of a trailer, with the cursors behind them. -/
theorem exists_words_of_atEndProgram (h : cursor.atEndProgram = true) :
    ∃ first middle second after, cursor.significant? .endProgram = some (first, middle) ∧
      middle.significant? .endProgram = some (second, after) ∧ first.kind = .word ∧
        second.isWord "PROGRAM".toList = true := by
  obtain ⟨first, second, ahead, words⟩ := Cursor.atEndProgram_iff.mp h
  obtain ⟨middle, after, next, behind⟩ := Cursor.ahead_two_eq_iff.mp ahead
  obtain ⟨ends, program⟩ := Bool.and_eq_true_iff.mp words
  exact ⟨first, middle, second, after, next, behind, Lexeme.kind_of_isWord ends, program⟩

section Trailer

variable {first second : Token} {middle after : Cursor}
  (next : cursor.significant? .endProgram = some (first, middle))
  (behind : middle.significant? .endProgram = some (second, after))

include next behind

/-- It is the same unit in the whole if all three tokens stand in the text. -/
theorem closesEnclosing_cursor (current : Option ProgramIdentity)
    (enclosing : List ProgramIdentity) (first : place.Sees cursor) (second : place.Sees middle)
    (third : place.Sees after) :
    closesEnclosing (current.map place.identity) (enclosing.map place.identity)
        (place.cursor cursor) = closesEnclosing current enclosing cursor := by
  rw [closesEnclosing_apply next behind,
    closesEnclosing_apply (significant?_cursor_of_some first next)
      (significant?_cursor_of_some second behind), significant?_cursor third]
  cases after.significant? .endProgram with
  | none => rfl
  | some read =>
      simp only [Option.map_some, toLexeme_token, text_lexeme, programName_text]
      simp [identity, List.any_map, Option.any_map, Function.comp_def]

/-- A trailer takes its two words one after the other. -/
theorem trailer_apply (program : second.isWord "PROGRAM".toList = true)
    (current : Option ProgramIdentity) :
    trailer current cursor =
      (bumpSignificant .endProgram cursor).andThen
        ((bumpSignificant .endProgram middle).andThen (trailerEnding current after)) := by
  have eaten : eatWord .endProgram "PROGRAM".toList middle = bumpSignificant .endProgram middle :=
    eatIf_of_test behind program
  rw [trailer_eq]
  simp only [bind_apply, next_bumpSignificant next, eaten, next_bumpSignificant behind]

end Trailer

/-- A trailer is left for an enclosing program in the whole just where it is in the text. -/
theorem mirrored_closing (state : UnitState) (enclosing : List ProgramIdentity)
    (h : cursor.atEndProgram = true) :
    place.Mirrored false place.unit cursor
      (if closesEnclosing state.identity enclosing cursor then .still state cursor
        else (trailer state.identity cursor).withValue state)
      (if closesEnclosing (place.unit state).identity (enclosing.map place.identity)
          (place.cursor cursor) then .still (place.unit state) (place.cursor cursor)
        else (trailer (place.unit state).identity (place.cursor cursor)).withValue
          (place.unit state)) := by
  obtain ⟨first, middle, second, after, next, behind, word, program⟩ :=
    exists_words_of_atEndProgram h
  have same (foresees : place.Foresees false cursor) (third : place.Sees after) :
      closesEnclosing (place.unit state).identity (enclosing.map place.identity)
          (place.cursor cursor) = closesEnclosing state.identity enclosing cursor := by
    have seen : place.Sees middle := by
      rcases foresees.second rfl next with sees | other | ⟨never, -⟩
      · exact sees
      · exact absurd word other
      · cases never
    exact closesEnclosing_cursor next behind state.identity enclosing foresees.sees seen third
  by_cases closes : closesEnclosing state.identity enclosing cursor = true
  · rw [if_pos closes]
    refine (Mirrored.still rfl cursor).of_foresees fun foresees => ?_
    have third : place.Sees after := by
      rw [closesEnclosing_apply next behind] at closes
      cases found : after.significant? .endProgram with
      | none => simp [found] at closes
      | some read =>
          have suffix := (Cursor.suffix_of_significant? behind).trans
            (Cursor.suffix_of_significant? next)
          have apart := foresees.apart.suffix suffix (Cursor.rest_ne_nil_of_significant? found)
          exact Sees.of_significant? apart (Cursor.significant?_of_mode found rfl)
    rw [same foresees third, if_pos closes]
  · rw [if_neg closes]
    have closing : place.Mirrored false id cursor (trailer state.identity cursor) _ :=
      mirrors_trailer state.identity cursor
    refine ⟨closing.reads, fun allowed foresees => ?_⟩
    have third : place.Foresees false after := by
      have split := trailer_apply next behind program state.identity
      simp only [Outcome.tokens_withValue, Outcome.next_withValue, split, Outcome.tokens_andThen,
        Outcome.next_andThen] at allowed foresees
      exact ((mirrors_trailerEnding state.identity after).hands allowed.behind.behind foresees).1
    obtain ⟨here, alike⟩ := closing.hands allowed foresees
    rw [same here third.sees, if_neg closes]
    exact ⟨here, alike.withValue rfl⟩

section Units

variable (settings : Settings)

/-- The parts of a unit behind the blanks before them. -/
def unitBody (enclosing : List ProgramIdentity) (state : UnitState) (cursor : Cursor) :
    Outcome UnitState :=
  if cursor.atEnd then .still state cursor
  else if cursor.atEndProgram then
    if closesEnclosing state.identity enclosing cursor then .still state cursor
    else (trailer state.identity cursor).withValue state
  else
    let part := unitStep settings enclosing state cursor
    part.andThen (unitRounds settings enclosing part.value part.next)

theorem faithful_unitBody (enclosing : List ProgramIdentity) (state : UnitState)
    (cursor : Cursor) : (unitBody settings enclosing state cursor).Faithful cursor := by
  unfold unitBody
  split
  · exact .still state cursor
  · split
    · split
      · exact .still state cursor
      · exact (flat_trailer state.identity cursor).faithful.withValue state
    · exact (faithful_unitStep settings enclosing state cursor).andThen
        (faithful_unitRounds settings enclosing _ _)

section Body

variable {enclosing : List ProgramIdentity} {state : UnitState} {cursor : Cursor}

theorem unitBody_of_end (ends : cursor.atEnd = true) :
    unitBody settings enclosing state cursor = .still state cursor := if_pos ends

variable (goesOn : ¬cursor.atEnd = true)

include goesOn

/-- A trailer that is left for no other unit ends the unit. -/
theorem unitBody_of_trailer (h : cursor.atEndProgram = true)
    (own : closesEnclosing state.identity enclosing cursor = false) :
    unitBody settings enclosing state cursor =
      (trailer state.identity cursor).withValue state := by
  rw [unitBody, if_neg goesOn, if_pos h, if_neg (by simp [own])]

theorem unitBody_of_part (h : ¬cursor.atEndProgram = true) :
    unitBody settings enclosing state cursor =
      let part := unitStep settings enclosing state cursor
      part.andThen (unitRounds settings enclosing part.value part.next) := by
  rw [unitBody, if_neg goesOn, if_neg h]

end Body

theorem unitRounds_eq_andThen (enclosing : List ProgramIdentity) (state : UnitState)
    (cursor : Cursor) :
    unitRounds settings enclosing state cursor =
      (trivia .programUnit cursor).andThen
        (unitBody settings enclosing state (trivia .programUnit cursor).next) := by
  rw [unitRounds_eq, unitBody]
  dsimp only
  split
  · simp
  · split
    · split
      · simp
      · simp
    · simp [Outcome.andThen]

theorem mirrored_unitStep {enclosing : List ProgramIdentity} {state : UnitState} {cursor : Cursor}
    (nested : state.seen ≠ [] →
      place.Mirrored false place.unit cursor
        (unitRounds settings (state.identity.toList ++ enclosing) .fresh cursor)
        (unitRounds settings ((state.identity.toList ++ enclosing).map place.identity) .fresh
          (place.cursor cursor))) :
    place.Mirrored false place.unit cursor (unitStep settings enclosing state cursor)
      (unitStep settings (enclosing.map place.identity) (place.unit state)
        (place.cursor cursor)) := by
  unfold unitStep
  refine .ite (fun foresees => ?_) (fun begins => ?_) fun _ => ?_
  · rw [divisionHeader?_cursor foresees]
    rfl
  · have inner := mirrored_closeUnit (nested begins.2)
    rw [List.map_append] at inner
    have identities : state.identity.toList.map place.identity =
        (place.unit state).identity.toList := by
      simp only [unit]
      cases state.identity <;> rfl
    rw [identities] at inner
    exact inner.withValue rfl
  · exact mirrored_unitPart settings state cursor

/-- The parts of a unit are mirrored, nested units included. -/
theorem mirrors_unitRounds (enclosing : List ProgramIdentity) (state : UnitState)
    (cursor : Cursor) :
    place.Mirrored false place.unit cursor (unitRounds settings enclosing state cursor)
      (unitRounds settings (enclosing.map place.identity) (place.unit state)
        (place.cursor cursor)) := by
  apply unitRounds_descent (motive := fun enclosing state cursor =>
    place.Mirrored false place.unit cursor (unitRounds settings enclosing state cursor)
      (unitRounds settings (enclosing.map place.identity) (place.unit state)
        (place.cursor cursor)))
  intro enclosing state cursor nested later
  rw [unitRounds_eq_andThen, unitRounds_eq_andThen]
  refine (mirrors_trivia (by decide) cursor).andThen ?_ fun _ next => by rw [next]
  refine .ite (fun foresees => ?_) (fun _ => .still rfl _) fun notEnd => ?_
  · rw [foresees.apart.atEnd]
  · refine .ite (fun foresees => ?_) (fun closing => mirrored_closing state enclosing closing)
      fun _ => ?_
    · rw [atEndProgram_cursor foresees]
    · refine (mirrored_unitStep settings (nested _)).andThen (later _ _ ?_)
        fun value next => by rw [value, next]
      have atToken := atToken_of_not_atEnd rfl notEnd
      have part := (faithful_unitStep settings enclosing state _).reads.shorter
        (carries_unitStep settings enclosing state atToken).consumes
      exact part.trans_le (trivia_length_le _ cursor)

/-- A unit that no other encloses is mirrored. -/
theorem mirrors_programUnit :
    place.Mirrors false id (programUnit settings) (programUnit settings) := fun cursor =>
  mirrored_closeUnit (mirrors_unitRounds settings [] .fresh cursor)

theorem mirrors_programUnitRound :
    place.Mirrors false (mapStep id) (programUnitRound settings) (programUnitRound settings) := by
  intro cursor
  rw [programUnitRound_apply, programUnitRound_apply]
  refine (mirrors_trivia (by decide) cursor).andThen ?_ fun _ next => by rw [next]
  refine .ite (fun foresees => ?_) (fun _ => .still rfl _) fun _ => ?_
  · rw [foresees.apart.atEnd]
  · exact (mirrors_programUnit settings _).withValue rfl

/-- The units of a text are mirrored. -/
theorem mirrors_programUnits :
    place.Mirrors false id (programUnits settings) (programUnits settings) := by
  have faithful := fun _ : Unit => faithful_programUnitRound settings
  have advances := advances_programUnitRound settings
  exact mirrors_rounds .programUnit faithful advances faithful advances
    (fun _ => mirrors_programUnitRound settings) ()

end Units

end Placement

end CobolTree
