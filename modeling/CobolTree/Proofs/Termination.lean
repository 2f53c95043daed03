import CobolTree.Proofs.Production.Progress

/-!
The parser needs no help to get on. A loop is told here as it runs (`Runs`): round after round, with
no regard to how much text is left, so that a loop whose rounds stand still would have no run. Every
loop of the parser runs to its end, in no more rounds than bytes are left, because each round that
asks for another has consumed a byte (`EndsUnaided`). The loops that have a token skipped behind
a round that stands still never do so (`NeverSkips`). That goes for the parts of a unit as well,
which are such a loop (`unitRounds_eq_rounds`), and a unit nested in another begins where fewer
bytes are left than where the other began (`shorter_of_nests`). So the parse of every text is a run
of rounds with nothing skipped (`Parsed.makesProgress_ofText`).
-/

namespace CobolTree

/-- Where tokens have been read, fewer bytes are left. -/
theorem Cursor.Reads.byteLength_lt {cursor last : Cursor} {tokens : List Token}
    (reads : cursor.Reads tokens last) (some : tokens ≠ []) :
    last.rest.byteLength < cursor.rest.byteLength := by
  have room := Text.length_le_byteLength (Lexeme.textOf (Token.lexemes tokens))
  have := List.length_pos_iff.mpr (reads.text_ne_nil some)
  rw [reads.rest_eq, Text.byteLength_append]
  omega

theorem Cursor.Reads.byteLength_le {cursor last : Cursor} {tokens : List Token}
    (reads : cursor.Reads tokens last) : last.rest.byteLength ≤ cursor.rest.byteLength := by
  rw [reads.rest_eq, Text.byteLength_append]
  omega

namespace Production

variable {σ : Type}

/-! ### Loops as they run -/

section Loops

variable (round : σ → Production (ForInStep σ))

/-- A loop from a state and a cursor to its outcome, with the number of rounds that ask for another
one. Only the rounds say where it ends. -/
inductive Runs : σ → Cursor → Nat → Outcome σ → Prop where
  | last {state final : σ} {cursor : Cursor} : (round state cursor).value = .done final →
      Runs state cursor 0 ((round state cursor).withValue final)
  | goesOn {state next : σ} {cursor : Cursor} {count : Nat} {outcome : Outcome σ} :
      (round state cursor).value = .yield next →
        Runs next (round state cursor).next count outcome →
          Runs state cursor (count + 1) ((round state cursor).andThen outcome)

/-- The states and cursors that the rounds of a loop begin at. -/
inductive ComesTo (state : σ) (cursor : Cursor) : σ → Cursor → Prop where
  | start : ComesTo state cursor state cursor
  | behind {earlier next : σ} {place : Cursor} : ComesTo state cursor earlier place →
      (round earlier place).value = .yield next →
        ComesTo state cursor next (round earlier place).next

/-- A round that does not leave its loop consumes a byte. -/
def Consumes : Prop :=
  ∀ state cursor next, (round state cursor).value = .yield next →
    (round state cursor).next.rest.byteLength < cursor.rest.byteLength

/-- The loop runs to its end, for its rounds consume the text. -/
structure EndsUnaided : Prop where
  consumes : Consumes round
  ends : ∀ state cursor, ∃ count ≤ cursor.rest.byteLength,
    Runs round state cursor count (repeating round state cursor)

/-- The loop has a token skipped behind a round that stands still, but no round does, and the loop
runs to its end. -/
structure NeverSkips (context : Context) : Prop where
  /-- What a round consumes it consumes before it is asked whether it has. -/
  consumes : Consumes round
  skipsNone : ∀ state cursor next, (round state cursor).value = .yield next →
    ensureProgress cursor.position context (round state cursor).next =
      .still () (round state cursor).next
  ends : ∀ state cursor, ∃ count ≤ cursor.rest.byteLength,
    Runs (orSkip context round) state cursor count (rounds context round state cursor)

variable {round} (faithful : ∀ state, Faithful (round state)) (advances : Advances round)

include faithful advances

theorem Advances.consumes : Consumes round := by
  intro state cursor next asks
  exact (faithful state cursor).reads.byteLength_lt (advances state cursor next asks)

/-- A loop of advancing rounds runs to its end: the induction goes along the loop, and each round
of it takes a byte from those that bound the number of rounds left. -/
theorem exists_runs (state : σ) (cursor : Cursor) : ∃ count ≤ cursor.rest.byteLength,
    Runs round state cursor count (repeating round state cursor) := by
  apply repeating_induction_from faithful advances
    (motive := fun state cursor outcome =>
      ∃ count ≤ cursor.rest.byteLength, Runs round state cursor count outcome) ?last ?goesOn
  case last => exact fun state cursor final done => ⟨0, Nat.zero_le _, .last done⟩
  case goesOn =>
    intro state cursor next outcome asks later
    obtain ⟨count, bound, runs⟩ := later
    have less := advances.consumes faithful state cursor next asks
    exact ⟨count + 1, Nat.lt_of_le_of_lt bound less, .goesOn asks runs⟩

theorem Advances.endsUnaided : EndsUnaided round where
  consumes := advances.consumes faithful
  ends := exists_runs faithful advances

theorem Advances.neverSkips (context : Context) : NeverSkips round context where
  consumes := advances.consumes faithful
  skipsNone state cursor next asks :=
    ensureProgress_of_moved context
      ((faithful state cursor).reads.position_ne (advances state cursor next asks))
  ends state cursor := by
    have same : orSkip context round = round := funext (orSkip_eq context faithful advances)
    rw [same, rounds_eq_repeating context faithful advances]
    exact exists_runs faithful advances state cursor

/-- Where a loop of advancing rounds has left its first state, bytes have been consumed. -/
theorem ComesTo.byteLength_lt {first state : σ} {cursor place : Cursor}
    (h : ComesTo round first cursor state place) :
    state = first ∧ place = cursor ∨ place.rest.byteLength < cursor.rest.byteLength := by
  induction h with
  | start => exact .inl ⟨rfl, rfl⟩
  | @behind earlier next place _ asks ih =>
      have less := advances.consumes faithful earlier place next asks
      rcases ih with ⟨-, rfl⟩ | before
      · exact .inr less
      · exact .inr (Nat.lt_trans less before)

end Loops

/-! ### The parts of a unit -/

section Units

variable (settings : Settings) (enclosing : List ProgramIdentity)

/-- One part of a unit with the blanks before it, unless the unit ends here, perhaps with a
trailer. -/
def unitRound (state : UnitState) : Production (ForInStep UnitState) := fun cursor =>
  let lead := trivia .programUnit cursor
  lead.andThen
    (if lead.next.atEnd then .still (.done state) lead.next
    else if lead.next.atEndProgram then
      if closesEnclosing state.identity enclosing lead.next then .still (.done state) lead.next
      else (trailer state.identity lead.next).withValue (.done state)
    else
      let part := unitStep settings enclosing state lead.next
      part.withValue (.yield part.value))

theorem faithful_unitRound (state : UnitState) : Faithful (unitRound settings enclosing state) := by
  intro cursor
  refine (flat_trivia _ cursor).faithful.andThen ?_
  split
  · exact .still _ _
  · split
    · split
      · exact .still _ _
      · exact (flat_trailer _ _).faithful.withValue _
    · exact (faithful_unitStep settings enclosing state _).withValue _

theorem advances_unitRound : Advances (unitRound settings enclosing) := by
  intro state cursor next asks
  refine tokens_andThen_ne_nil_right _ ?_
  simp only [unitRound, Outcome.value_andThen] at asks
  split at asks
  · cases asks
  · rename_i notEnd
    split at asks
    · split at asks <;> cases asks
    · rename_i notTrailer
      rw [if_neg notEnd, if_neg notTrailer]
      have atToken := atToken_of_not_atEnd rfl notEnd
      exact (carries_unitStep settings enclosing state atToken).consumes

/-- The parts of a unit go on behind a round that asks for another, and end with any other round. -/
theorem unitRounds_eq_round (state : UnitState) (cursor : Cursor) :
    unitRounds settings enclosing state cursor =
      let round := unitRound settings enclosing state cursor
      match round.value with
      | .done final => round.withValue final
      | .yield next => round.andThen (unitRounds settings enclosing next round.next) := by
  rw [unitRounds_eq]
  simp only [unitRound, Outcome.value_andThen, Outcome.next_andThen]
  by_cases ended : (trivia .programUnit cursor).next.atEnd = true
  · simp only [if_pos ended, Outcome.value_still, Outcome.andThen_still,
      Outcome.withValue_withValue]
  · by_cases closing : (trivia .programUnit cursor).next.atEndProgram = true
    · simp only [if_neg ended, if_pos closing]
      split
      · simp only [Outcome.value_still, Outcome.andThen_still, Outcome.withValue_withValue]
      · rfl
    · simp only [if_neg ended, if_neg closing]
      rfl

/-- The parts of a unit are a loop as any other. -/
theorem unitRounds_eq_rounds (state : UnitState) (cursor : Cursor) :
    unitRounds settings enclosing state cursor =
      rounds .programUnit (unitRound settings enclosing) state cursor := by
  have faithful := faithful_unitRound settings enclosing
  have advances := advances_unitRound settings enclosing
  rw [rounds_eq_repeating .programUnit faithful advances]
  apply repeating_induction_from faithful advances (motive := fun state cursor outcome =>
    unitRounds settings enclosing state cursor = outcome) ?last ?goesOn
  case last =>
    intro state cursor final done
    rw [unitRounds_eq_round]
    simp only [done]
  case goesOn =>
    intro state cursor next outcome asks later
    rw [unitRounds_eq_round]
    simp only [asks, later]

/-- A unit that begins at a cursor calls for one that is nested in it and begins at another. -/
def Nests (outer inner : Cursor) : Prop :=
  ∃ enclosing state place,
    ComesTo (orSkip .programUnit (unitRound settings enclosing)) .fresh outer state place ∧
      state.seen ≠ [] ∧ inner = (trivia .programUnit place).next ∧
        inner.divisionHeader? = some .identification

/-- Units nest only as deep as there are bytes: a unit that has one nested in it has read a division
before. -/
theorem shorter_of_nests {outer inner : Cursor} (h : Nests settings outer inner) :
    inner.rest.byteLength < outer.rest.byteLength := by
  obtain ⟨enclosing, state, place, comes, begun, rfl, -⟩ := h
  have faithful := faithful_unitRound settings enclosing
  have advances := advances_unitRound settings enclosing
  have same := funext (orSkip_eq .programUnit faithful advances)
  rw [same] at comes
  have blanks := (flat_trivia .programUnit place).reads.byteLength_le
  rcases comes.byteLength_lt faithful advances with ⟨rfl, -⟩ | less
  · exact absurd rfl begun
  · exact Nat.lt_of_le_of_lt blanks less

end Units

/-! ### The whole parser -/

/-- Every loop of the parser consumes text and runs to its end, no token is skipped, and units nest
only as deep as there are bytes. -/
structure MakesProgress (settings : Settings) : Prop where
  sourceUnit : NeverSkips (fun _ : Unit => programUnitRound settings) .programUnit
  unit : ∀ enclosing, NeverSkips (unitRound settings enclosing) .programUnit ∧
    ∀ state cursor, unitRounds settings enclosing state cursor =
      rounds .programUnit (unitRound settings enclosing) state cursor
  nested : ∀ outer inner, Nests settings outer inner →
    inner.rest.byteLength < outer.rest.byteLength
  identification : NeverSkips identificationRound .identificationDivision
  entries : ∀ (division : Division) (pictures : Bool),
    NeverSkips (fun _ : Unit => entryRound division.context pictures) division.context
  procedure : NeverSkips (fun _ : Unit => procedureRound settings) .procedureDivision
  procedureSentences :
    NeverSkips (fun _ : Unit => procedureSentenceRound settings) .procedureDivision
  trivia : ∀ context, EndsUnaided fun _ : Unit => triviaRound context
  sentence : ∀ context pictures, EndsUnaided (sentenceRound context pictures)
  headerPhrase : ∀ context, EndsUnaided fun _ : Unit => headerPhraseRound context
  programAttributes : ∀ context, EndsUnaided fun _ : Unit => programAttributeRound context
  commentEntry : EndsUnaided fun _ : Unit => commentEntryRound

theorem makesProgress (settings : Settings) : MakesProgress settings where
  sourceUnit := (advances_programUnitRound settings).neverSkips
    (fun _ => faithful_programUnitRound settings) _
  unit enclosing := ⟨(advances_unitRound settings enclosing).neverSkips
    (faithful_unitRound settings enclosing) _, unitRounds_eq_rounds settings enclosing⟩
  nested _ _ := shorter_of_nests settings
  identification := advances_identificationRound.neverSkips faithful_identificationRound _
  entries division pictures := (advances_entryRound (mode_context division) pictures).neverSkips
    (fun _ => faithful_entryRound division.context pictures) _
  procedure := (advances_procedureRound settings).neverSkips
    (fun _ => faithful_procedureRound settings) _
  procedureSentences := (advances_procedureSentenceRound settings).neverSkips
    (fun _ => faithful_procedureSentenceRound settings) _
  trivia context := (advances_triviaRound context).endsUnaided
    fun _ => (flat_triviaRound context).faithful
  sentence context pictures := (advances_sentenceRound context pictures).endsUnaided
    fun state => (flat_sentenceRound context pictures state).faithful
  headerPhrase context := (advances_headerPhraseRound context).endsUnaided
    fun _ => (flat_headerPhraseRound context).faithful
  programAttributes context := (advances_programAttributeRound context).endsUnaided
    fun _ => (flat_programAttributeRound context).faithful
  commentEntry := advances_commentEntryRound.endsUnaided fun _ => flat_commentEntryRound.faithful

end Production

namespace Parsed

open Production

/-- The parser makes progress by itself: every loop of it does, and the parse of a text is what a
run over program units comes to in which nothing is skipped. -/
theorem makesProgress_ofText (settings : Settings) (text : Text) :
    MakesProgress settings ∧ ∃ count ≤ text.byteLength, ∃ outcome,
      Runs (fun _ : Unit => programUnitRound settings) () (.start text) count outcome ∧
        ofText settings text =
          ⟨.node .sourceUnit outcome.trees, outcome.tokens,
            keep settings.maxDiagnostics outcome.next.position outcome.reports⟩ := by
  have faithful := fun _ : Unit => faithful_programUnitRound settings
  have advances := advances_programUnitRound settings
  obtain ⟨count, bound, runs⟩ := exists_runs faithful advances () (.start text)
  refine ⟨makesProgress settings, count, bound, _, runs, ?_⟩
  rw [← rounds_eq_repeating .programUnit faithful advances]
  rfl

end Parsed

end CobolTree
