import CobolTree.Production.Identification
import CobolTree.Production.Procedure

/-!
Divisions: a header word, the word DIVISION, a period, and the body that the division
calls for. The header of the PROCEDURE DIVISION may hold a USING or RETURNING phrase.
-/

namespace CobolTree

/-- The context of a division's header and, between sentences, of its body. -/
def Division.context : Division → Context
  | identification => .identificationDivision
  | environment => .environmentDivision
  | data => .dataDivision
  | procedure => .procedureDivision

namespace Production

/-- A token with the blanks before it, unless a period or the end of the header is next. -/
def headerPhraseRound (context : Context) : Production (ForInStep Unit) := do
  let cursor ← here
  if ((cursor.significant? context).map (·.1.kind == .dot)).getD false || cursor.atUnitBoundary then
    return .done ()
  else do
    let _ ← bumpSignificant context
    return .yield ()

theorem headerPhraseRound_apply (context : Context) (cursor : Cursor) :
    headerPhraseRound context cursor =
      if ((cursor.significant? context).map (·.1.kind == .dot)).getD false ||
          cursor.atUnitBoundary then .still (.done ()) cursor
      else (bumpSignificant context cursor).withValue (.yield ()) := by
  simp only [headerPhraseRound, bind_apply, ite_apply]
  simp

/-- The tokens of a header phrase, if one stands here. -/
def headerPhrase (context : Context) : Production Unit := do
  match ← nextSignificant context with
  | some token =>
      if token.isWord "USING".toList || token.isWord "RETURNING".toList then
        repeating (fun _ => headerPhraseRound context) ()
      else return ()
  | none => return ()

/-- The header of a division, with its last token. -/
def divisionHeader (division : Division) : Production (Option Token) := do
  let context := division.context
  let name ← bumpSignificant context
  let word ← eatWord context "DIVISION".toList
  if division = .procedure then headerPhrase context
  let period ← expectPeriod context (.divisionHeader division)
  return period.or (word.or name)

/-- The body of a division, with the identity of the program if the division declares it. -/
def divisionBody (settings : Settings) (division : Division) (header : Option Token) :
    Production (Option ProgramIdentity) :=
  match division with
  | .identification => identificationBody header
  | .environment => do
      entries division.context false
      return none
  | .data => do
      entries division.context true
      return none
  | .procedure => do
      procedureBody settings
      return none

/-- A division, with the identity of the program if the division declares it. -/
def division (settings : Settings) (division : Division) : Production (Option ProgramIdentity) :=
  node division.kind do
    let header ← divisionHeader division
    divisionBody settings division header

end CobolTree.Production
