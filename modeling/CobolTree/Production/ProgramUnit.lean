import CobolTree.Production.Division

/-!
Program units: divisions, programs nested behind them, and a trailer. A trailer that
names an enclosing program, and not the current one, closes the current unit and is left
for the enclosing one. `unitRounds` reads the parts of a unit; its measure counts a unit
that has begun above one that is still empty, since a nested unit begins right where its
parent stands.
-/

namespace CobolTree.Production

/-- What the parts of a unit read so far have shown. -/
structure UnitState where
  /-- The divisions, in order of appearance. -/
  seen : List Division
  identity : Option ProgramIdentity

/-- A unit of which nothing has been read. -/
def UnitState.fresh : UnitState := ⟨[], none⟩

/-- One for a unit that has begun, zero for one that is empty. -/
def UnitState.weight (state : UnitState) : Nat := if state.seen = [] then 0 else 1

theorem UnitState.weight_le (state : UnitState) : state.weight ≤ 1 := by
  unfold weight
  split <;> omega

/-- The END PROGRAM that stands here names an enclosing program and not the current one. -/
def closesEnclosing (current : Option ProgramIdentity) (enclosing : List ProgramIdentity)
    (cursor : Cursor) : Bool :=
  match cursor.ahead .endProgram 3 with
  | [_, _, token] =>
      let names (program : ProgramIdentity) : Bool :=
        Text.sameWord program.name (programName token.text)
      !current.any names && enclosing.any names
  | _ => false

/-- The name of a trailer is checked against the name that the unit declares; a trailer without a
name is reported. -/
def checkTrailerName (current : Option ProgramIdentity) (name : Option Token) :
    Production Unit :=
  match name, current with
  | some token, some program =>
      let found := programName token.text
      if Text.sameWord found program.name then return ()
      else report ((Problem.endProgramMismatch found program).ofToken token)
  | some _, none => return ()
  | none, _ => reportHere .noEndProgramName

/-- The trailer of a unit: END PROGRAM, a name and a period, with the blanks behind it. -/
def trailer (current : Option ProgramIdentity) : Production Unit := do
  let context := Context.endProgram
  let _ ← bumpSignificant context
  let _ ← eatWord context "PROGRAM".toList
  let name ← eatIf context namesProgram
  checkTrailerName current name
  let _ ← expectPeriod context .endProgram
  trivia .programUnit

/-- What is wrong with the place of a division behind others, if anything. -/
def orderProblem? (seen : List Division) (division : Division) : Option Problem :=
  if seen.contains division then some (.duplicateDivision division)
  else if seen.any (division.rank < ·.rank) then some (.divisionOrder division)
  else none

/-- Reports a division that stands where it should not, as gravely as the settings ask. -/
def checkOrder (settings : Settings) (seen : List Division) (division : Division) :
    Production Unit := do
  match ← nextSignificant .programUnit with
  | none => return ()
  | some token =>
      match orderProblem? seen division with
      | some problem => report ((problem.ofToken token).withSeverity settings.orderSeverity)
      | none => return ()

/-- A part of a unit other than a nested unit or a trailer: a division, or stray text. -/
def unitPart (settings : Settings) (state : UnitState) : Production UnitState := do
  match (← here).divisionHeader? with
  | some found => do
      checkOrder settings state.seen found
      let identity ← division settings found
      return ⟨state.seen ++ [found], identity.or state.identity⟩
  | none => do
      strayText .programUnit
      return state

/-- The unit whose parts have been read, from the cursor where it begins. A unit without an
IDENTIFICATION DIVISION is reported at its first token. -/
def closeUnit (start : Cursor) (parts : Outcome UnitState) : Outcome Unit :=
  let first := (start.significant? .programUnit).map (·.1)
  let ending : Production Unit :=
    if parts.value.seen.contains .identification then return ()
    else reportAt first .noIdentificationDivision
  (parts.andThen (ending parts.next)).under .programUnit

/-- The parts of a unit, within the programs that enclose it, innermost first. -/
def unitRounds (settings : Settings) (enclosing : List ProgramIdentity) (state : UnitState)
    (cursor : Cursor) : Outcome UnitState :=
  let lead := trivia .programUnit cursor
  if lead.next.atEnd then lead.withValue state
  else if lead.next.atEndProgram then
    if closesEnclosing state.identity enclosing lead.next then lead.withValue state
    else (lead.andThen (trailer state.identity lead.next)).withValue state
  else
    let part : Outcome UnitState :=
      if nested : lead.next.divisionHeader? = some .identification ∧ state.seen ≠ [] then
        have : 2 * lead.next.rest.length + UnitState.fresh.weight <
            2 * cursor.rest.length + state.weight := by
          have : lead.next.rest.length ≤ cursor.rest.length := trivia_length_le _ cursor
          have : state.weight = 1 := by simp [UnitState.weight, nested.2]
          have : UnitState.fresh.weight = 0 := rfl
          omega
        let inner := unitRounds settings (state.identity.toList ++ enclosing) .fresh lead.next
        (closeUnit lead.next inner).withValue state
      else unitPart settings state lead.next
    let skip := ensureProgress cursor.position .programUnit part.next
    let round := (lead.andThen part).andThen skip
    if shorter : skip.next.rest.length < cursor.rest.length then
      have : 2 * skip.next.rest.length + part.value.weight <
          2 * cursor.rest.length + state.weight := by
        have := part.value.weight_le
        omega
      round.andThen (unitRounds settings enclosing part.value skip.next)
    else round.withValue part.value
termination_by 2 * cursor.rest.length + state.weight

/-- A program unit that no other encloses. -/
def programUnit (settings : Settings) : Production Unit := fun cursor =>
  closeUnit cursor (unitRounds settings [] .fresh cursor)

end CobolTree.Production
