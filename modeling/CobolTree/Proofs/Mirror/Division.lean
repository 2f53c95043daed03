import CobolTree.Proofs.Mirror.Sentence

/-!
Mirrors of divisions. Each part of a division is mirrored by the same part of the whole, and so is
what a part answers with: an identity is declared under the same name, in the cases of the whole and
at its place there. The PROCEDURE DIVISION reads no picture strings, so there foresight reaches to
the headers of sections and paragraphs, too. Behind the header of any division the text foresees
everything that it has to (`Placement.Foresees.of_header`).
-/

namespace CobolTree

namespace Placement

open Production

variable (place : Placement)

/-- The identities that have been declared, as the whole has them. -/
def declared (declared : Declared) : Declared :=
  ⟨declared.hasProgramId, declared.identity.map place.identity⟩

variable {place} {pictures : Bool} {cursor : Cursor} {context : Context}

/-- A name is told from its quotes in any case. -/
theorem programName_text (text : Text) :
    programName (place.text text) = place.text (programName text) := by
  cases text with
  | nil => rfl
  | cons first rest =>
      have last : (place.text rest).getLast? = rest.getLast?.map place.letter := List.getLast?_map
      have inner : (place.text rest).dropLast = place.text rest.dropLast := List.map_dropLast.symm
      rw [Recasing.text_cons]
      simp only [programName, last, inner, ← Recasing.text_cons]
      cases rest.getLast? with
      | none => rfl
      | some quote =>
          simp only [Option.map_some, place.isQuote_letter]
          split
          · rfl
          · rfl

theorem namesProgram_token (token : Token) :
    namesProgram (place.token token) = namesProgram token := rfl

/-! ### The IDENTIFICATION DIVISION -/

theorem mirrors_programAttributes (mode : context.mode ≠ .picture) :
    place.Mirrors pictures id (programAttributes context) (programAttributes context) := by
  refine mirrors_repeating (fun _ => mirrors_bind (mirrors_eatIf mode fun token => ?_)
    fun found => ?_) ()
  · simp only [toLexeme_token, isWord_lexeme]
  · cases found with
    | some token => exact mirrors_pure rfl
    | none => exact mirrors_pure rfl

theorem mirrors_behindName (name : Option Token) :
    place.Mirrors pictures (Option.map place.identity) (behindName name)
      (behindName (name.map place.token)) := by
  cases name with
  | none => exact mirrors_bind (mirrors_reportHere _) fun _ => mirrors_pure rfl
  | some token =>
      refine mirrors_bind (mirrors_programAttributes (by decide)) fun _ =>
        mirrors_bind (mirrors_expectPeriod (by decide) _) fun _ => mirrors_pure ?_
      simp [identity, programName_text]

theorem nameTest_cursor (foresees : place.Foresees pictures cursor) (token : Token) :
    nameTest (place.cursor cursor) (place.token token) = nameTest cursor token := by
  rw [Bool.eq_iff_iff, nameTest_iff, nameTest_iff, divisionHeader?_cursor foresees,
    namesProgram_token]

theorem mirrors_programIdParagraph :
    place.Mirrors pictures (Option.map place.identity) programIdParagraph programIdParagraph := by
  intro cursor
  rw [programIdParagraph_apply, programIdParagraph_apply]
  dsimp only
  refine .under _ ((mirrors_bumpSignificant (by decide) cursor).andThen ?_ fun _ next => by rw [next])
  refine (mirrors_expectPeriod (by decide) _ _).andThen ?_ fun _ next => by rw [next]
  refine Mirrored.andThen (mirrored_eatIf (by decide) fun foresees => nameTest_cursor foresees) ?_
    fun value next => by rw [value, next]
  exact mirrors_behindName _ _

theorem mirrors_commentEntryRound :
    place.Mirrors pictures (mapStep id) commentEntryRound commentEntryRound := by
  intro cursor
  cases h : cursor.next? .commentEntry with
  | none =>
      rw [commentEntryRound_of_end h]
      refine (Mirrored.still rfl cursor).of_foresees fun foresees => ?_
      exact commentEntryRound_of_end (next?_cursor_of_none foresees.apart h)
  | some read =>
      obtain ⟨token, after⟩ := read
      rw [commentEntryRound_of_next? h]
      have taken := ((mirrors_bump (by decide) cursor).withValue rfl :
        place.Mirrored pictures (mapStep id) cursor ((bump .commentEntry cursor).withValue (.yield ()))
          ((bump .commentEntry (place.cursor cursor)).withValue (.yield ())))
      refine (Mirrored.ite (fun foresees => ?_) (fun _ => .still rfl cursor)
        fun _ => taken).of_foresees fun foresees =>
          commentEntryRound_of_next? (next?_cursor_of_some foresees.apart h)
      rw [atHeader_cursor foresees, atIdentificationParagraph_cursor foresees]
      rfl

theorem mirrors_commentEntryParagraph :
    place.Mirrors pictures id commentEntryParagraph commentEntryParagraph :=
  mirrors_node _ (mirrors_bind (mirrors_bumpSignificant (by decide)) fun _ =>
    mirrors_bind (mirrors_expectPeriod (by decide) _) fun _ =>
      mirrors_repeating (fun _ => mirrors_commentEntryRound) ())

/-- The word PROGRAM-ID is told by the next token that carries meaning. -/
theorem isProgramId_cursor (sees : place.Sees cursor) :
    (((place.cursor cursor).significant? .identificationDivision).map
        (·.1.isWord "PROGRAM-ID".toList)).getD false =
      ((cursor.significant? .identificationDivision).map
        (·.1.isWord "PROGRAM-ID".toList)).getD false := by
  rw [significant?_cursor sees]
  cases cursor.significant? .identificationDivision with
  | none => rfl
  | some read => simp

/-- A PROGRAM-ID paragraph declares what it answers with, or leaves what has been declared. -/
theorem mirrored_declaring (declared : Declared) (cursor : Cursor) :
    place.Mirrored pictures (mapStep place.declared) cursor
      ((programIdParagraph cursor).withValue
        (.yield ⟨true, (programIdParagraph cursor).value.or declared.identity⟩))
      ((programIdParagraph (place.cursor cursor)).withValue
        (.yield ⟨true, (programIdParagraph (place.cursor cursor)).value.or
          (place.declared declared).identity⟩)) := by
  have paragraph : place.Mirrored pictures (Option.map place.identity) cursor _ _ :=
    mirrors_programIdParagraph cursor
  refine ⟨paragraph.reads, fun allowed foresees => ?_⟩
  obtain ⟨here, alike⟩ := paragraph.hands allowed foresees
  refine ⟨here, alike.withValue ?_⟩
  rw [alike.value]
  simp [mapStep, Placement.declared, Option.map_or]

theorem mirrors_identificationRound (declared : Declared) :
    place.Mirrors pictures (mapStep place.declared) (identificationRound declared)
      (identificationRound (place.declared declared)) := by
  intro cursor
  rw [identificationRound_apply, identificationRound_apply]
  dsimp only
  refine (mirrors_trivia (by decide) cursor).andThen ?_ fun _ next => by rw [next]
  refine .ite (fun foresees => ?_) (fun _ => .still rfl _) fun _ => ?_
  · rw [atUnitBoundary_cursor foresees]
  · refine .ite (fun foresees => ?_) (fun _ => mirrored_declaring declared _) fun _ => ?_
    · rw [isProgramId_cursor foresees.sees]
    · refine .ite (fun foresees => ?_) (fun _ => ?_) fun _ => ?_
      · rw [atIdentificationParagraph_cursor foresees]
      · exact (mirrors_commentEntryParagraph _).withValue rfl
      · exact (mirrors_strayText (by decide) _).withValue rfl

theorem mirrors_identificationBody (header : Option Token) :
    place.Mirrors pictures (Option.map place.identity) (identificationBody header)
      (identificationBody (header.map place.token)) := by
  have faithful := faithful_identificationRound
  have advances := advances_identificationRound
  refine mirrors_bind (mirrors_rounds .identificationDivision faithful advances faithful advances
    mirrors_identificationRound ⟨false, none⟩) fun declared => mirrors_ite (mirrors_pure rfl) ?_
  exact mirrors_bind (mirrors_reportAt _ _) fun _ => mirrors_pure rfl

/-! ### The PROCEDURE DIVISION -/

section Procedure

variable (settings : Settings)

theorem mirrors_procedureSentenceRound :
    place.Mirrors false (mapStep id) (procedureSentenceRound settings)
      (procedureSentenceRound settings) := by
  intro cursor
  rw [procedureSentenceRound_apply, procedureSentenceRound_apply]
  refine (mirrors_trivia (by decide) cursor).andThen ?_ fun _ next => by rw [next]
  refine .ite (fun foresees => ?_) (fun _ => .still rfl _) fun _ => ?_
  · rw [atUnitBoundary_cursor foresees, atSectionHeader_cursor foresees,
      atParagraphHeader_cursor foresees]
  · exact (mirrors_plainSentence (by decide) .sentence _).withValue rfl

theorem mirrors_procedureSentences :
    place.Mirrors false id (procedureSentences settings) (procedureSentences settings) := by
  have faithful := fun _ : Unit => faithful_procedureSentenceRound settings
  have advances := advances_procedureSentenceRound settings
  exact mirrors_rounds .procedureDivision faithful advances faithful advances
    (fun _ => mirrors_procedureSentenceRound settings) ()

theorem mirrors_sectionHeader : place.Mirrors pictures id sectionHeader sectionHeader := by
  refine mirrors_bind (mirrors_bumpSignificant (by decide)) fun _ =>
    mirrors_bind (mirrors_eatWord (by decide) _) fun _ =>
      mirrors_bind (mirrors_eatIf (by decide) fun token => ?_) fun _ =>
        mirrors_bind (mirrors_expectPeriod (by decide) _) fun _ => mirrors_pure rfl
  simp only [toLexeme_token, kind_lexeme, text_lexeme, place.all_text caseless_isDigit]

theorem mirrors_paragraphHeader : place.Mirrors pictures id paragraphHeader paragraphHeader :=
  mirrors_bind (mirrors_bumpSignificant (by decide)) fun _ =>
    mirrors_bind (mirrors_expectPeriod (by decide) _) fun _ => mirrors_pure rfl

theorem mirrors_procedureSection :
    place.Mirrors false id (procedureSection settings) (procedureSection settings) :=
  mirrors_node _ (mirrors_bind mirrors_sectionHeader fun _ => mirrors_procedureSentences settings)

theorem mirrors_procedureParagraph :
    place.Mirrors false id (procedureParagraph settings) (procedureParagraph settings) :=
  mirrors_node _ (mirrors_bind mirrors_paragraphHeader fun _ => mirrors_procedureSentences settings)

theorem mirrors_procedureRound :
    place.Mirrors false (mapStep id) (procedureRound settings) (procedureRound settings) := by
  intro cursor
  rw [procedureRound_apply, procedureRound_apply]
  refine (mirrors_trivia (by decide) cursor).andThen ?_ fun _ next => by rw [next]
  refine .ite (fun foresees => ?_) (fun _ => .still rfl _) fun _ => ?_
  · rw [atUnitBoundary_cursor foresees]
  · refine .ite (fun foresees => ?_) (fun _ => ?_) fun _ => ?_
    · rw [atSectionHeader_cursor foresees]
    · exact (mirrors_procedureSection settings _).withValue rfl
    · refine .ite (fun foresees => ?_) (fun _ => ?_) fun _ => ?_
      · rw [atParagraphHeader_cursor foresees]
      · exact (mirrors_procedureParagraph settings _).withValue rfl
      · exact (mirrors_plainSentence (by decide) .sentence _).withValue rfl

theorem mirrors_procedureBody :
    place.Mirrors false id (procedureBody settings) (procedureBody settings) := by
  have faithful := fun _ : Unit => faithful_procedureRound settings
  have advances := advances_procedureRound settings
  exact mirrors_rounds .procedureDivision faithful advances faithful advances
    (fun _ => mirrors_procedureRound settings) ()

end Procedure

/-! ### Divisions -/

theorem mirrors_headerPhraseRound (mode : context.mode ≠ .picture) :
    place.Mirrors pictures (mapStep id) (headerPhraseRound context) (headerPhraseRound context) := by
  intro cursor
  rw [headerPhraseRound_apply, headerPhraseRound_apply]
  refine .ite (fun foresees => ?_) (fun _ => .still rfl cursor) fun _ => ?_
  · rw [atUnitBoundary_cursor foresees, significant?_cursor foresees.sees, Option.map_map]
    rfl
  · exact (mirrors_bumpSignificant mode cursor).withValue rfl

theorem mirrors_headerPhrase (mode : context.mode ≠ .picture) :
    place.Mirrors pictures id (headerPhrase context) (headerPhrase context) := by
  refine mirrors_bind (mirrors_nextSignificant context) fun next => ?_
  cases next with
  | none => exact mirrors_pure rfl
  | some token =>
      simp only [Option.map_some, toLexeme_token, isWord_lexeme]
      exact mirrors_ite (mirrors_repeating (fun _ => mirrors_headerPhraseRound mode) ())
        (mirrors_pure rfl)

theorem mirrors_divisionHeader (division : Division) :
    place.Mirrors pictures (Option.map place.token) (divisionHeader division)
      (divisionHeader division) := by
  have mode : division.context.mode ≠ .picture := by simp [mode_context]
  refine mirrors_bind (mirrors_bumpSignificant mode) fun name => ?_
  refine mirrors_bind (mirrors_eatWord mode _) fun word => mirrors_ite ?_ ?_
  · refine mirrors_bind (mirrors_headerPhrase mode) fun _ => ?_
    refine mirrors_bind (mirrors_expectPeriod mode _) fun period => mirrors_pure ?_
    rw [Option.map_or, Option.map_or]
  · refine mirrors_bind (mirrors_expectPeriod mode _) fun period => mirrors_pure ?_
    rw [Option.map_or, Option.map_or]

/-- Behind a division header, the text foresees everything. -/
theorem Foresees.of_header (apart : place.Apart cursor) {division : Division}
    (h : cursor.divisionHeader? = some division) : place.Foresees pictures cursor := by
  obtain ⟨name, word, ahead, -⟩ := Cursor.divisionHeader?_eq_some_iff.mp h
  obtain ⟨middle, after, first, second⟩ := Cursor.ahead_two_eq_iff.mp ahead
  exact .of_two apart rfl first second

section Divisions

variable (settings : Settings)

theorem mirrors_plainDivision {division : Division} (other : division ≠ .data) :
    place.Mirrors false (Option.map place.identity) (Production.division settings division)
      (Production.division settings division) := by
  refine mirrors_node _ (mirrors_bind (mirrors_divisionHeader division) fun header => ?_)
  cases division with
  | identification => exact mirrors_identificationBody header
  | environment => exact mirrors_bind (mirrors_entries rfl nofun) fun _ => mirrors_pure rfl
  | data => exact absurd rfl other
  | procedure => exact mirrors_bind (mirrors_procedureBody settings) fun _ => mirrors_pure rfl

theorem mirrors_dataDivision :
    place.Mirrors true (Option.map place.identity) (Production.division settings .data)
      (Production.division settings .data) :=
  mirrors_node _ (mirrors_bind (mirrors_divisionHeader .data) fun _ =>
    mirrors_bind (mirrors_entries rfl fun _ => rfl) fun _ => mirrors_pure rfl)

/-- A division that begins at its header is mirrored, and leaves nothing in doubt that the parts of
a unit ask for. -/
theorem mirrored_division {division : Division} (h : cursor.divisionHeader? = some division) :
    place.Mirrored false (Option.map place.identity) cursor
      (Production.division settings division cursor)
      (Production.division settings division (place.cursor cursor)) := by
  by_cases data : division = .data
  · subst data
    have entries : place.Mirrored true (Option.map place.identity) cursor _ _ :=
      mirrors_dataDivision settings cursor
    refine ⟨entries.reads, fun allowed foresees => ?_⟩
    obtain ⟨here, alike⟩ := entries.hands allowed (foresees.weaken true)
    exact ⟨.of_header here.apart h, alike⟩
  · exact mirrors_plainDivision settings data cursor

end Divisions

end Placement

end CobolTree
