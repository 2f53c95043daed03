import CobolTree.Proofs.Production.Progress
import CobolTree.Proofs.Tree.Shape

/-!
Productions build trees of the right shape. A loop whose rounds each build trees of one sort
builds trees of that sort (`among_repeating`); what is gathered under a node at a token is a
plain node, and a header that was seen from afar is what the header's tokens are. The parts of
a unit follow (`unitParts_unitRounds`), by induction on the text that is left and, where a unit
begins at the place of its parent, on whether the parent has begun.
-/

namespace CobolTree.Production

open SourceTree

variable {α σ : Type}

/-! ### Rows and loops -/

theorem among_trivia (context : Context) (cursor : Cursor) (sort : SourceTree → Prop) :
    Among sort (trivia context cursor).trees := by
  rw [(flat_trivia context cursor).trees]
  exact among_row (significant_trivia context cursor) sort

/-- A loop builds trees of one sort if each of its rounds does. -/
theorem among_repeating {sort : SourceTree → Prop} {round : σ → Production (ForInStep σ)}
    (each : ∀ state cursor, Among sort (round state cursor).trees) (state : σ) (cursor : Cursor) :
    Among sort (repeating round state cursor).trees := by
  fun_induction repeating round state cursor with
  | case1 state cursor first final h => exact each state cursor
  | case2 state cursor first next h shorter ih => exact (each state cursor).append ih
  | case3 state cursor first next h same => exact each state cursor

/-- What is gathered at a token is a plain node. -/
theorem among_of_gathered {kind : Kind} {cursor : Cursor} {outcome : Outcome α}
    (gathered : outcome.Gathered kind cursor) (carries : outcome.Carries) :
    Among (IsPlain kind) outcome.trees := by
  rw [gathered.trees]
  exact among_single (.of carries)

theorem among_sentence {cursor : Cursor} (atToken : cursor.AtToken) (pictures : Bool) :
    Among (IsPlain .sentence) (sentence .sentence .sentence pictures cursor).trees :=
  among_of_gathered (gathered_sentence _ _ _ cursor) (carries_sentence atToken (.inr rfl) _ _)

/-! ### Entries -/

theorem among_entries {context : Context} (word : context.mode = .word) (pictures : Bool)
    (cursor : Cursor) : Among (IsPlain .sentence) (entries context pictures cursor).trees := by
  rw [entries, rounds_eq_repeating context (fun _ => faithful_entryRound context pictures)
    (advances_entryRound word pictures)]
  refine among_repeating (fun _ cursor => ?_) () cursor
  rw [entryRound_apply]
  refine (among_trivia context cursor _).append ?_
  split
  · exact among_nil _
  · rename_i inside
    exact among_sentence (atToken_of_not_atUnitBoundary word inside) pictures

theorem among_identificationRound (declared : Declared) (cursor : Cursor) :
    Among (IsEntry .identification) (identificationRound declared cursor).trees := by
  rw [identificationRound_apply]
  refine (among_trivia _ cursor _).append ?_
  split
  · exact among_nil _
  · rename_i inside
    have atToken := atToken_of_not_atUnitBoundary rfl inside
    split
    · have plain := among_of_gathered (gathered_programIdParagraph _)
        (carries_programIdParagraph atToken)
      exact plain.mono fun tree h => .inl h
    · split
      · have plain := among_of_gathered (gathered_commentEntryParagraph _)
          (carries_commentEntryParagraph atToken)
        exact plain.mono fun tree h => .inr (.inl h)
      · have plain := among_of_gathered (gathered_strayText .identificationDivision _)
          (carries_strayText atToken rfl)
        exact plain.mono fun tree h => .inr (.inr h)

theorem among_identificationBody (header : Option Token) (cursor : Cursor) :
    Among (IsEntry .identification) (identificationBody header cursor).trees := by
  have body : Among (IsEntry .identification)
      (rounds .identificationDivision identificationRound ⟨false, none⟩ cursor).trees := by
    rw [rounds_eq_repeating .identificationDivision faithful_identificationRound
      advances_identificationRound]
    exact among_repeating among_identificationRound _ cursor
  simp only [identificationBody, bind_apply, ite_apply]
  refine body.append ?_
  split
  · exact among_nil _
  · simpa using among_nil _

/-! ### Sections and paragraphs -/

/-- A node whose body begins with a row of tokens. -/
theorem trees_headed {β : Type} (kind : Kind) {header : Production α} (flat : Flat header)
    (body : α → Production β) (cursor : Cursor) :
    (node kind (header >>= body) cursor).trees =
      [.node kind (row (Token.lexemes (header cursor).tokens) ++
        (body (header cursor).value (header cursor).next).trees)] := by
  simp [node, (flat cursor).trees]

/-- A section header that is ahead is what the tokens of the header are. -/
theorem opensSection_sectionHeader {cursor : Cursor} (h : cursor.atSectionHeader = true) :
    OpensSection (Token.lexemes (sectionHeader cursor).tokens) := by
  obtain ⟨name, word, ahead, words⟩ := Cursor.atSectionHeader_iff.mp h
  obtain ⟨middle, after, first, second⟩ := Cursor.ahead_two_eq_iff.mp ahead
  obtain ⟨isName, isSection⟩ := Bool.and_eq_true_iff.mp words
  let named := bumpSignificant .sectionHeader cursor
  let worded := eatWord .sectionHeader "SECTION".toList named.next
  have two : OpensSection (Token.lexemes (named.tokens ++ worded.tokens)) := by
    refine ⟨name.toLexeme, word.toLexeme, [], ?_, by simpa using isName, isSection⟩
    exact significant_bump_eatWord first second isSection
  obtain ⟨rest, split⟩ : ∃ rest, (sectionHeader cursor).tokens = _ ++ _ ++ rest :=
    ⟨_, (List.append_assoc _ _ _).symm⟩
  rw [split, Token.lexemes_append]
  exact two.append _

/-- Blanks and comments aside, the header of a paragraph is its name and its period. -/
theorem significant_paragraphHeader {cursor : Cursor} {name period : Token}
    (ahead : cursor.ahead .paragraphHeader 2 = [name, period])
    (isPeriod : (period.kind == .dot) = true) :
    Lexeme.significant (Token.lexemes (paragraphHeader cursor).tokens) =
      [name.toLexeme, period.toLexeme] := by
  obtain ⟨middle, after, first, second⟩ := Cursor.ahead_two_eq_iff.mp ahead
  have found := value_expectPeriod second isPeriod .paragraphName
  simp only [paragraphHeader, bind_apply, Outcome.tokens_andThen, Token.lexemes_append,
    Lexeme.significant_append, significant_bumpSignificant first, next_bumpSignificant first,
    significant_expectPeriod, found]
  rfl

theorem opensParagraph_paragraphHeader (settings : Settings) {cursor : Cursor}
    (h : cursor.atParagraphHeader settings = true) :
    OpensParagraph (Token.lexemes (paragraphHeader cursor).tokens) := by
  obtain ⟨name, period, ahead, words⟩ := Cursor.atParagraphHeader_iff.mp h
  obtain ⟨kinds, -⟩ := Bool.and_eq_true_iff.mp words
  obtain ⟨isName, isPeriod⟩ := Bool.and_eq_true_iff.mp kinds
  exact ⟨name.toLexeme, period.toLexeme, significant_paragraphHeader ahead isPeriod,
    by simpa using isName, by simpa using isPeriod⟩

section Procedure

variable (settings : Settings)

theorem among_procedureSentences (cursor : Cursor) :
    Among (IsPlain .sentence) (procedureSentences settings cursor).trees := by
  rw [procedureSentences, rounds_eq_repeating .procedureDivision
    (fun _ => faithful_procedureSentenceRound settings) (advances_procedureSentenceRound settings)]
  refine among_repeating (fun _ cursor => ?_) () cursor
  rw [procedureSentenceRound_apply]
  refine (among_trivia .procedureDivision cursor _).append ?_
  split
  · exact among_nil _
  · rename_i goesOn
    have inside : ¬(trivia .procedureDivision cursor).next.atUnitBoundary = true :=
      fun boundary => goesOn (by simp [boundary])
    exact among_sentence (atToken_of_not_atUnitBoundary rfl inside) false

theorem among_procedureSection {cursor : Cursor} (h : cursor.atSectionHeader = true) :
    Among IsBlock (procedureSection settings cursor).trees := by
  rw [procedureSection, trees_headed _ flat_sectionHeader]
  exact among_single (.section (opensSection_sectionHeader h) (among_procedureSentences settings _))

theorem among_procedureParagraph {cursor : Cursor} (h : cursor.atParagraphHeader settings = true) :
    Among IsBlock (procedureParagraph settings cursor).trees := by
  rw [procedureParagraph, trees_headed _ flat_paragraphHeader]
  exact among_single
    (.paragraph (opensParagraph_paragraphHeader settings h) (among_procedureSentences settings _))

theorem among_procedureBody (cursor : Cursor) :
    Among (IsEntry .procedure) (procedureBody settings cursor).trees := by
  rw [procedureBody, rounds_eq_repeating .procedureDivision
    (fun _ => faithful_procedureRound settings) (advances_procedureRound settings)]
  refine among_repeating (fun _ cursor => ?_) () cursor
  rw [procedureRound_apply]
  refine (among_trivia .procedureDivision cursor _).append ?_
  split
  · exact among_nil _
  · rename_i inside
    have atToken := atToken_of_not_atUnitBoundary rfl inside
    split
    · rename_i header
      exact (among_procedureSection settings header).mono fun tree h => .inr h
    · split
      · rename_i header
        exact (among_procedureParagraph settings header).mono fun tree h => .inr h
      · exact (among_sentence atToken false).mono fun tree h => .inl h

/-! ### Divisions -/

theorem among_divisionBody (division : Division) (header : Option Token) (cursor : Cursor) :
    Among (IsEntry division) (divisionBody settings division header cursor).trees := by
  cases division with
  | identification => exact among_identificationBody header cursor
  | environment => exact (among_entries rfl false cursor).append (among_nil _)
  | data => exact (among_entries rfl true cursor).append (among_nil _)
  | procedure => exact (among_procedureBody settings cursor).append (among_nil _)

/-- A division header that is ahead is what the tokens of the header are. -/
theorem opensDivision_divisionHeader {division : Division} {cursor : Cursor}
    (h : cursor.divisionHeader? = some division) :
    OpensDivision division (Token.lexemes (divisionHeader division cursor).tokens) := by
  obtain ⟨name, word, ahead, isName, isDivision, found⟩ := Cursor.divisionHeader?_eq_some_iff.mp h
  obtain ⟨middle, after, first, second⟩ := Cursor.ahead_two_eq_iff.mp ahead
  have mode : Context.programUnit.mode = division.context.mode := (mode_context division).symm
  have words := significant_bump_eatWord (Cursor.significant?_of_mode first mode)
    (Cursor.significant?_of_mode second mode) isDivision
  have two : OpensDivision division (Token.lexemes
      ((bumpSignificant division.context cursor).tokens ++ (eatWord division.context
        "DIVISION".toList (bumpSignificant division.context cursor).next).tokens)) :=
    ⟨name.toLexeme, word.toLexeme, [], words, isName, isDivision, found⟩
  obtain ⟨rest, split⟩ : ∃ rest, (divisionHeader division cursor).tokens = _ ++ _ ++ rest :=
    ⟨_, (List.append_assoc _ _ _).symm⟩
  rw [split, Token.lexemes_append]
  exact two.append _

theorem isDivision_division {division : Division} {cursor : Cursor}
    (h : cursor.divisionHeader? = some division) :
    ∃ tree, (Production.division settings division cursor).trees = [tree] ∧
      IsDivision division tree := by
  rw [Production.division, trees_headed _ (flat_divisionHeader division)]
  exact ⟨_, rfl, .of (opensDivision_divisionHeader h) (among_divisionBody settings division _ _)⟩

end Procedure

/-! ### Trailers -/

theorem tokens_checkTrailerName (current : Option ProgramIdentity) (name : Option Token)
    (cursor : Cursor) : (checkTrailerName current name cursor).tokens = [] := by
  unfold checkTrailerName
  split
  · simp only [ite_apply]
    split <;> rfl
  · rfl
  · exact tokens_reportHere _ cursor

/-- END PROGRAM that is ahead is what a trailer begins with; a name and a period may follow. -/
theorem tokens_significant_trailer {cursor middle after : Cursor} {first second : Token}
    (current : Option ProgramIdentity)
    (one : cursor.significant? .endProgram = some (first, middle))
    (two : middle.significant? .endProgram = some (second, after))
    (isProgram : second.isWord "PROGRAM".toList = true) :
    let name := eatIf .endProgram namesProgram after
    let period := expectPeriod .endProgram .endProgram
      (checkTrailerName current name.value name.next).next
    Token.significant (trailer current cursor).tokens =
      first :: second :: (name.value.toList ++ period.value.toList) := by
  have eaten : eatWord .endProgram "PROGRAM".toList middle = bumpSignificant .endProgram middle :=
    eatIf_of_test two isProgram
  simp only [trailer, bind_apply, Outcome.tokens_andThen, Token.significant_append,
    next_bumpSignificant one, eaten, next_bumpSignificant two, tokens_checkTrailerName,
    tokens_significant_bumpSignificant one, tokens_significant_bumpSignificant two,
    tokens_significant_eatIf, tokens_significant_expectPeriod, tokens_significant_trivia]
  rw [List.append_nil]
  rfl

theorem significant_trailer {cursor : Cursor} (current : Option ProgramIdentity)
    (h : cursor.atEndProgram = true) :
    let behind :=
      (eatWord .endProgram "PROGRAM".toList (bumpSignificant .endProgram cursor).next).next
    let name := eatIf .endProgram namesProgram behind
    let period := expectPeriod .endProgram .endProgram
      (checkTrailerName current name.value name.next).next
    ∃ first second : Token, first.isWord "END".toList = true ∧
      second.isWord "PROGRAM".toList = true ∧
        Lexeme.significant (Token.lexemes (trailer current cursor).tokens) =
          first.toLexeme :: second.toLexeme :: ((name.value.map (·.toLexeme)).toList ++
            (period.value.map (·.toLexeme)).toList) := by
  obtain ⟨first, second, ahead, words⟩ := Cursor.atEndProgram_iff.mp h
  obtain ⟨middle, after, one, two⟩ := Cursor.ahead_two_eq_iff.mp ahead
  obtain ⟨isEnd, isProgram⟩ := Bool.and_eq_true_iff.mp words
  have reads := tokens_significant_trailer current one two isProgram
  simp only [next_bump_eatWord one two isProgram]
  refine ⟨first, second, isEnd, isProgram, ?_⟩
  rw [← Token.lexemes_significant, reads]
  simp [Token.lexemes, Option.toList_map]

/-- What is eaten as a name can name a program. -/
theorem isName_of_eatIf {context : Context} {cursor : Cursor} :
    ∀ lexeme ∈ (eatIf context namesProgram cursor).value.map (·.toLexeme),
      lexeme.kind = .word ∨ lexeme.kind = .stringLiteral := by
  intro lexeme mem
  obtain ⟨token, found, rfl⟩ := Option.map_eq_some_iff.mp mem
  simpa [namesProgram] using test_of_eatIf found

theorem isTrailer_trailer {cursor : Cursor} (current : Option ProgramIdentity)
    (h : cursor.atEndProgram = true) :
    IsTrailer (Token.lexemes (trailer current cursor).tokens) := by
  obtain ⟨first, second, isEnd, isProgram, reads⟩ := significant_trailer current h
  exact ⟨first.toLexeme, second.toLexeme, _, _, reads, isEnd, isProgram, isName_of_eatIf,
    isPeriod_of_expectPeriod⟩

/-! ### Units -/

section Units

variable (settings : Settings)

theorem trees_closeUnit (start : Cursor) (parts : Outcome UnitState) :
    (closeUnit start parts).trees = [.node .programUnit parts.trees] := by
  unfold closeUnit
  split <;> simp

@[simp] theorem next_closeUnit (start : Cursor) (parts : Outcome UnitState) :
    (closeUnit start parts).next = parts.next := by
  unfold closeUnit
  split <;> simp

/-- A unit that begins at the header of a division opens with this header. -/
theorem opens_unitRounds (enclosing : List ProgramIdentity) {cursor : Cursor} {division : Division}
    (h : cursor.divisionHeader? = some division) :
    OpensDivision division
      (Tree.leavesOf (unitRounds settings enclosing .fresh cursor).trees) := by
  obtain ⟨header, notEnd, notTrailer⟩ := goesOn_of_divisionHeader? h
  have part : OpensDivision division (Tree.leavesOf
      (unitStep settings enclosing .fresh (trivia .programUnit cursor).next).trees) := by
    obtain ⟨tree, trees, conforms⟩ := isDivision_division settings header
    simpa [unitStep, UnitState.fresh, unitPart_of_header settings _ header, trees_checkOrder, trees,
      Tree.leavesOf] using conforms.opens
  rw [unitRounds_eq]
  simp only [if_neg notEnd, if_neg notTrailer, Outcome.trees_andThen, Tree.leavesOf_append]
  refine (part.behind ?_).append _
  rw [(flat_trivia .programUnit cursor).faithful.leaves]
  exact significant_trivia .programUnit cursor

/-- The flag of a unit's parts: a division has been read. -/
def UnitState.begun (state : UnitState) : Bool := !state.seen.isEmpty

/-- A division or stray text, before parts of the right shape. -/
theorem unitParts_unitPart (state : UnitState) {cursor : Cursor} (atToken : cursor.AtToken)
    {rest : List SourceTree} (h : UnitParts (unitPart settings state cursor).value.begun rest) :
    UnitParts state.begun ((unitPart settings state cursor).trees ++ rest) := by
  cases header : cursor.divisionHeader? with
  | some found =>
      obtain ⟨tree, trees, conforms⟩ := isDivision_division settings header
      rw [unitPart_of_header settings state header] at h ⊢
      have begun : UnitState.begun ⟨state.seen ++ [found],
          (division settings found cursor).value.or state.identity⟩ = true := by
        simp [UnitState.begun]
      rw [Outcome.value_withValue, begun] at h
      rw [Outcome.trees_withValue, Outcome.trees_andThen, (trees_checkOrder settings _ _ _).1,
        trees]
      exact .division conforms h
  | none =>
      rw [unitPart_of_stray settings state header] at h ⊢
      rw [Outcome.trees_withValue, (gathered_strayText .programUnit cursor).trees]
      have word : Context.programUnit.mode = .word := rfl
      exact .stray (.of (carries_strayText atToken word)) h

/-- One part of a unit, a nested unit among others, before parts of the right shape. -/
theorem unitParts_unitStep (enclosing : List ProgramIdentity) (state : UnitState) {cursor : Cursor}
    (atToken : cursor.AtToken) {rest : List SourceTree}
    (nested : ∀ inner, state.seen ≠ [] →
      UnitParts false (unitRounds settings inner .fresh cursor).trees)
    (h : UnitParts (unitStep settings enclosing state cursor).value.begun rest) :
    UnitParts state.begun ((unitStep settings enclosing state cursor).trees ++ rest) := by
  by_cases inside : cursor.divisionHeader? = some .identification ∧ state.seen ≠ []
  · have begun : state.begun = true := by simp [UnitState.begun, inside.2]
    rw [unitStep_of_nested settings enclosing inside] at h ⊢
    rw [Outcome.value_withValue, begun] at h
    rw [Outcome.trees_withValue, trees_closeUnit, begun]
    exact .nested (opens_unitRounds settings _ inside.1) (nested _ inside.2) h
  · rw [unitStep_of_not_nested settings enclosing inside] at h ⊢
    exact unitParts_unitPart settings state atToken h

/-- One part of a unit is one node. -/
theorem trees_unitStep (enclosing : List ProgramIdentity) (state : UnitState) (cursor : Cursor) :
    ∃ kind children, (unitStep settings enclosing state cursor).trees = [.node kind children] := by
  by_cases nested : cursor.divisionHeader? = some .identification ∧ state.seen ≠ []
  · rw [unitStep_of_nested settings enclosing nested]
    exact ⟨_, _, trees_closeUnit _ _⟩
  · rw [unitStep_of_not_nested settings enclosing nested]
    cases header : cursor.divisionHeader? with
    | some found =>
        rw [unitPart_of_header settings state header, Outcome.trees_withValue,
          Outcome.trees_andThen, (trees_checkOrder settings _ _ _).1]
        exact ⟨_, _, rfl⟩
    | none =>
        rw [unitPart_of_stray settings state header]
        exact ⟨_, _, (gathered_strayText .programUnit cursor).trees⟩

/-- The parts of a unit have the shape of parts, in whatever state the unit is. -/
theorem unitParts_unitRounds (enclosing : List ProgramIdentity) (state : UnitState)
    (cursor : Cursor) :
    UnitParts state.begun (unitRounds settings enclosing state cursor).trees := by
  have blanks (cursor : Cursor) {begun : Bool} {rest : List SourceTree}
      (h : UnitParts begun rest) :
      UnitParts begun ((trivia .programUnit cursor).trees ++ rest) := by
    rw [(flat_trivia .programUnit cursor).trees]
    exact .behind (significant_trivia .programUnit cursor) h
  refine unitRounds_induction settings enclosing
    (motive := fun state _ outcome => UnitParts state.begun outcome.trees)
    ?ends ?closes ?goesOn state cursor
  case ends =>
    intro state cursor
    simpa using blanks cursor .nil
  case closes =>
    intro state cursor lead closing
    rw [Outcome.trees_withValue, Outcome.trees_andThen, (flat_trailer _ _).trees]
    exact blanks cursor (.trailer (isTrailer_trailer _ closing))
  case goesOn =>
    intro enclosing state cursor outcome lead part atToken _ nested later
    rw [Outcome.trees_andThen, Outcome.trees_andThen, List.append_assoc]
    exact blanks cursor (unitParts_unitStep settings enclosing state atToken nested later)

theorem isUnit_programUnit {cursor : Cursor} (atToken : cursor.AtToken) :
    Among IsUnit (programUnit settings cursor).trees := by
  have parts := unitParts_unitRounds settings [] .fresh cursor
  have carries := carries_programUnit settings atToken
  have leaves := (faithful_programUnit settings cursor).leaves
  rw [programUnit, trees_closeUnit] at leaves ⊢
  refine among_single (.of parts ?_)
  simp only [Tree.leavesOf, Tree.leaves, List.append_nil] at leaves
  rw [leaves]
  exact carries

theorem among_programUnits (cursor : Cursor) :
    Among IsUnit (programUnits settings cursor).trees := by
  rw [programUnits, rounds_eq_repeating .programUnit (fun _ => faithful_programUnitRound settings)
    (advances_programUnitRound settings)]
  refine among_repeating (fun _ cursor => ?_) () cursor
  rw [programUnitRound_apply]
  refine (among_trivia .programUnit cursor _).append ?_
  split
  · exact among_nil _
  · rename_i goesOn
    exact isUnit_programUnit settings (atToken_of_not_atEnd rfl goesOn)

end Units

end CobolTree.Production

namespace CobolTree.Parsed

/-- The tree of every text, however malformed, has the shape of a source unit. -/
theorem isSourceUnit_ofText (settings : Settings) (text : Text) :
    (ofText settings text).tree.IsSourceUnit :=
  .of (Production.among_programUnits settings (Cursor.start text))

end CobolTree.Parsed
