import CobolTree.Production.Sentence

/-!
The body of the IDENTIFICATION DIVISION: the PROGRAM-ID paragraph, which declares the
name of the program, and paragraphs of free text.
-/

namespace CobolTree

/-- A program's name without the quotes of a literal. -/
def programName (text : Text) : Text :=
  match text with
  | first :: rest =>
      match rest.getLast? with
      | some last =>
          if Scan.isQuote first && Scan.isQuote last then rest.dropLast else text
      | none => text
  | [] => text

namespace Production

/-- Words and literals can name a program. -/
def namesProgram (token : Token) : Bool := token.kind == .word || token.kind == .stringLiteral

/-- One attribute behind the name of a program. -/
def programAttributeRound (context : Context) : Production (ForInStep Unit) := do
  match ← eatIf context (fun token => programAttributeWords.any (token.isWord ·)) with
  | some _ => return .yield ()
  | none => return .done ()

/-- Attributes behind the name of a program. -/
def programAttributes (context : Context) : Production Unit :=
  repeating (fun _ => programAttributeRound context) ()

/-- The PROGRAM-ID paragraph, with the identity it declares. -/
def programIdParagraph : Production (Option ProgramIdentity) :=
  let context := Context.identificationDivision
  node .programIdParagraph do
    let _ ← bumpSignificant context
    let _ ← expectPeriod context .programId
    let named := if (← here).divisionHeader?.isSome then fun _ => false else namesProgram
    match ← eatIf context named with
    | some token => do
        programAttributes context
        let _ ← expectPeriod context .programName
        return some ⟨programName token.text, token.range⟩
    | none => do
        reportHere .noProgramName
        return none

/-- What may be read for the name behind PROGRAM-ID: nothing where a division begins. -/
def nameTest (cursor : Cursor) : Token → Bool :=
  if cursor.divisionHeader?.isSome then fun _ => false else namesProgram

theorem nameTest_iff {cursor : Cursor} {token : Token} :
    nameTest cursor token = true ↔ cursor.divisionHeader? = none ∧ namesProgram token = true := by
  cases header : cursor.divisionHeader? <;> simp [nameTest, header]

/-- The rest of a PROGRAM-ID paragraph behind its name, or where the name is missing. -/
def behindName : Option Token → Production (Option ProgramIdentity)
  | some token => do
      programAttributes .identificationDivision
      let _ ← expectPeriod .identificationDivision .programName
      return some ⟨programName token.text, token.range⟩
  | none => do
      reportHere .noProgramName
      return none

theorem programIdParagraph_apply (cursor : Cursor) :
    programIdParagraph cursor =
      let context := Context.identificationDivision
      let keyword := bumpSignificant context cursor
      let period := expectPeriod context .programId keyword.next
      let name := eatIf context (nameTest period.next) period.next
      (keyword.andThen (period.andThen (name.andThen (behindName name.value name.next)))).under
        .programIdParagraph := rfl

/-- One line, or one blank, of free text. -/
def commentEntryRound : Production (ForInStep Unit) := do
  let cursor ← here
  match cursor.peek? .commentEntry with
  | none => return .done ()
  | some token =>
      if !token.isWhitespace && (cursor.atHeader || cursor.atIdentificationParagraph) then
        return .done ()
      else do
        let _ ← bump .commentEntry
        return .yield ()

theorem commentEntryRound_of_end {cursor : Cursor} (h : cursor.next? .commentEntry = none) :
    commentEntryRound cursor = .still (.done ()) cursor := by
  simp [commentEntryRound, Cursor.peek?, h]

theorem commentEntryRound_of_next? {cursor after : Cursor} {token : Token}
    (h : cursor.next? .commentEntry = some (token, after)) :
    commentEntryRound cursor =
      if !token.isWhitespace && (cursor.atHeader || cursor.atIdentificationParagraph) then
        .still (.done ()) cursor
      else (bump .commentEntry cursor).withValue (.yield ()) := by
  unfold commentEntryRound
  have read : (here cursor).value.peek? .commentEntry = some token := by
    simp [Cursor.peek?, h]
  simp only [bind_apply, read, ite_apply]
  simp

/-- A paragraph of free text, up to the next header. -/
def commentEntryParagraph : Production Unit :=
  let context := Context.identificationDivision
  node .commentEntryParagraph do
    let _ ← bumpSignificant context
    let _ ← expectPeriod context .paragraphName
    repeating (fun _ => commentEntryRound) ()

/-- What the paragraphs read so far have declared. -/
structure Declared where
  hasProgramId : Bool
  identity : Option ProgramIdentity

/-- One paragraph of the division. -/
def identificationRound (declared : Declared) : Production (ForInStep Declared) := do
  let context := Context.identificationDivision
  trivia context
  let cursor ← here
  if cursor.atUnitBoundary then return .done declared
  else if ((cursor.significant? context).map (·.1.isWord "PROGRAM-ID".toList)).getD false then do
    let identity ← programIdParagraph
    return .yield ⟨true, identity.or declared.identity⟩
  else if cursor.atIdentificationParagraph then do
    commentEntryParagraph
    return .yield declared
  else do
    strayText context
    return .yield declared

theorem identificationRound_apply (declared : Declared) (cursor : Cursor) :
    identificationRound declared cursor =
      let context := Context.identificationDivision
      let lead := trivia context cursor
      lead.andThen
        (if lead.next.atUnitBoundary then .still (.done declared) lead.next
        else if ((lead.next.significant? context).map (·.1.isWord "PROGRAM-ID".toList)).getD false
        then
          let paragraph := programIdParagraph lead.next
          paragraph.withValue (.yield ⟨true, paragraph.value.or declared.identity⟩)
        else if lead.next.atIdentificationParagraph then
          (commentEntryParagraph lead.next).withValue (.yield declared)
        else (strayText context lead.next).withValue (.yield declared)) := by
  simp only [identificationRound, bind_apply, ite_apply]
  simp only [here_apply, pure_apply, Outcome.still_andThen, Outcome.value_still,
    Outcome.next_still, Outcome.andThen_still]

/-- The body of the division, behind a header whose last token is given; it answers with the
identity of the program. -/
def identificationBody (header : Option Token) : Production (Option ProgramIdentity) := do
  let declared ← rounds .identificationDivision identificationRound ⟨false, none⟩
  if declared.hasProgramId then return declared.identity
  else do
    reportAt header .noProgramId
    return declared.identity

end Production

end CobolTree
