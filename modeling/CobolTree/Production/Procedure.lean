import CobolTree.Production.Sentence

/-!
The body of the PROCEDURE DIVISION: sentences, then sections and paragraphs, which hold
the sentences behind their headers.
-/

namespace CobolTree.Production

/-- One sentence, unless a section, paragraph or division begins here. -/
def procedureSentenceRound (settings : Settings) : Production (ForInStep Unit) := do
  trivia .procedureDivision
  let cursor ← here
  if cursor.atUnitBoundary || cursor.atSectionHeader || cursor.atParagraphHeader settings then
    return .done ()
  else do
    sentence .sentence .sentence false
    return .yield ()

theorem procedureSentenceRound_apply (settings : Settings) (cursor : Cursor) :
    procedureSentenceRound settings cursor =
      let lead := trivia .procedureDivision cursor
      lead.andThen
        (if lead.next.atUnitBoundary || lead.next.atSectionHeader ||
            lead.next.atParagraphHeader settings then .still (.done ()) lead.next
        else (sentence .sentence .sentence false lead.next).withValue (.yield ())) := by
  simp only [procedureSentenceRound, bind_apply, ite_apply]
  simp

/-- Sentences up to the next section, paragraph or division. -/
def procedureSentences (settings : Settings) : Production Unit :=
  rounds .procedureDivision (fun _ => procedureSentenceRound settings) ()

/-- The header of a section: a name, the word SECTION, perhaps a priority, and a period. -/
def sectionHeader : Production Unit := do
  let context := Context.sectionHeader
  let _ ← bumpSignificant context
  let _ ← eatWord context "SECTION".toList
  let _ ← eatIf context fun token => token.kind == .word && token.text.all Char.isDigit
  let _ ← expectPeriod context .sectionHeader

/-- A section: its header and sentences. -/
def procedureSection (settings : Settings) : Production Unit :=
  node .procedureSection do
    sectionHeader
    procedureSentences settings

/-- The header of a paragraph: a name and a period. -/
def paragraphHeader : Production Unit := do
  let context := Context.paragraphHeader
  let _ ← bumpSignificant context
  let _ ← expectPeriod context .paragraphName

/-- A paragraph: its header and sentences. -/
def procedureParagraph (settings : Settings) : Production Unit :=
  node .procedureParagraph do
    paragraphHeader
    procedureSentences settings

/-- One section, paragraph or sentence of the division. -/
def procedureRound (settings : Settings) : Production (ForInStep Unit) := do
  trivia .procedureDivision
  let cursor ← here
  if cursor.atUnitBoundary then return .done ()
  else if cursor.atSectionHeader then do
    procedureSection settings
    return .yield ()
  else if cursor.atParagraphHeader settings then do
    procedureParagraph settings
    return .yield ()
  else do
    sentence .sentence .sentence false
    return .yield ()

theorem procedureRound_apply (settings : Settings) (cursor : Cursor) :
    procedureRound settings cursor =
      let lead := trivia .procedureDivision cursor
      lead.andThen
        (if lead.next.atUnitBoundary then .still (.done ()) lead.next
        else if lead.next.atSectionHeader then
          (procedureSection settings lead.next).withValue (.yield ())
        else if lead.next.atParagraphHeader settings then
          (procedureParagraph settings lead.next).withValue (.yield ())
        else (sentence .sentence .sentence false lead.next).withValue (.yield ())) := by
  simp only [procedureRound, bind_apply, ite_apply]
  simp

/-- The body of the division. -/
def procedureBody (settings : Settings) : Production Unit :=
  rounds .procedureDivision (fun _ => procedureRound settings) ()

end CobolTree.Production
