import CobolTree.Proofs.Production.Periods

/-!
Divisions tell whether they are regular: the parser reports nothing about a division exactly when
each node in it is regular and none of its tokens is an error token. Behind a regular
IDENTIFICATION DIVISION the parser knows a program by the name that the last PROGRAM-ID paragraph
of the tree declares (`DeclaredSpec`).
-/

namespace CobolTree.Production

open Lexeme (IsName)
open SourceTree

variable {α β σ : Type}

/-! ### Paragraphs -/

/-- What holds of every token that the rounds of a loop consume holds of all that the loop does. -/
theorem forall_significant_repeating {p : Lexeme → Prop} {round : σ → Production (ForInStep σ)}
    (each : ∀ state cursor, ∀ lexeme ∈ (round state cursor).significant, p lexeme) (state : σ)
    (cursor : Cursor) : ∀ lexeme ∈ (repeating round state cursor).significant, p lexeme := by
  fun_induction repeating round state cursor with
  | case1 state cursor first final _ => exact each state cursor
  | case2 state cursor first next _ shorter ih =>
      rw [Outcome.significant_andThen, List.forall_mem_append]
      exact ⟨each state cursor, ih⟩
  | case3 state cursor first next _ same => exact each state cursor

theorem isProgramAttribute_of_programAttributes (context : Context) (cursor : Cursor) :
    ∀ lexeme ∈ (programAttributes context cursor).significant,
      lexeme.isProgramAttribute = true := by
  refine forall_significant_repeating (fun _ cursor => ?_) () cursor
  intro lexeme mem
  have eaten := significant_eatIf context
    (fun token => programAttributeWords.any (token.isWord ·)) cursor
  cases found : (eatIf context (fun token => programAttributeWords.any (token.isWord ·))
      cursor).value with
  | none => simp [Outcome.significant, programAttributeRound, found, eaten] at mem
  | some token =>
      simp only [Outcome.significant, programAttributeRound, bind_apply, found,
        Outcome.tokens_andThen, Token.lexemes_append, Lexeme.significant_append, eaten] at mem
      simp at mem
      rw [mem]
      exact test_of_eatIf found

/-- Where the name is missing nothing is read, and that is reported. -/
theorem behindName_none (cursor : Cursor) :
    (behindName none cursor).significant = [] ∧ (behindName none cursor).QuietWhen False := by
  constructor
  · simp [behindName, Outcome.significant]
  · exact ((quietWhen_reportHere _ _).andThen (.still _ _)).congr (by simp)

/-- Behind a name stand attributes, and a period that is reported where it is missing. -/
theorem behindName_some (token : Token) (cursor : Cursor) :
    ∃ (attributes : List Lexeme) (last : Option Lexeme),
      (∀ word ∈ attributes, word.isProgramAttribute = true) ∧
        (∀ lexeme ∈ last, lexeme.kind = .dot) ∧
        (behindName (some token) cursor).significant = attributes ++ last.toList ∧
        (behindName (some token) cursor).QuietWhen (last.isSome = true) := by
  let words := programAttributes .identificationDivision cursor
  let last := expectPeriod .identificationDivision .programName words.next
  have ends : last.significant = (last.value.map (·.toLexeme)).toList :=
    significant_expectPeriod _ _ _
  refine ⟨words.significant, last.value.map (·.toLexeme),
    isProgramAttribute_of_programAttributes _ _, isPeriod_of_expectPeriod, ?_, ?_⟩
  · rw [← ends]
    simp only [behindName, bind_apply, pure_apply, Outcome.significant_andThen]
    simp [words, last, Outcome.significant]
  · have asked : last.QuietWhen (last.value.isSome = true) := quietWhen_expectPeriod _ _ _
    refine ((quiet_programAttributes _ cursor).andThen (asked.andThen (.still _ _))).congr ?_
    simp

/-- What a PROGRAM-ID paragraph can be: without a name, which is reported, or with a name and the
attributes behind it, where only a missing period is. -/
theorem programIdParagraph_cases {cursor after : Cursor} {word : Token}
    (h : cursor.significant? .identificationDivision = some (word, after)) :
    let paragraph := programIdParagraph cursor
    ∃ first : Option Lexeme, (∀ lexeme ∈ first, lexeme.kind = .dot) ∧
      ((paragraph.significant = word.toLexeme :: first.toList ∧ paragraph.QuietWhen False) ∨
        ∃ (name : Token) (attributes : List Lexeme) (last : Option Lexeme),
          name.toLexeme.IsName ∧ (∀ word ∈ attributes, word.isProgramAttribute = true) ∧
          (∀ lexeme ∈ last, lexeme.kind = .dot) ∧
          paragraph.significant =
            word.toLexeme :: (first.toList ++ name.toLexeme :: (attributes ++ last.toList)) ∧
          paragraph.QuietWhen (first.isSome = true ∧ last.isSome = true) ∧
          paragraph.value = some ⟨programName name.text, name.range⟩) := by
  intro paragraph
  let context := Context.identificationDivision
  let keyword := bumpSignificant context cursor
  let period := expectPeriod context .programId keyword.next
  let name := eatIf context (nameTest period.next) period.next
  let rest := behindName name.value name.next
  have whole : paragraph =
      (keyword.andThen (period.andThen (name.andThen rest))).under .programIdParagraph :=
    programIdParagraph_apply cursor
  have words : paragraph.significant = word.toLexeme ::
      ((period.value.map (·.toLexeme)).toList ++
        ((name.value.map (·.toLexeme)).toList ++ rest.significant)) := by
    have begins : keyword.significant = [word.toLexeme] := significant_bumpSignificant h
    have opens : period.significant = (period.value.map (·.toLexeme)).toList :=
      significant_expectPeriod _ _ _
    have names : name.significant = (name.value.map (·.toLexeme)).toList :=
      significant_eatIf _ _ _
    rw [← opens, ← names, whole, Outcome.significant_under, Outcome.significant_andThen, begins,
      Outcome.significant_andThen, Outcome.significant_andThen, List.singleton_append]
  have asked {condition : Prop} (last : rest.QuietWhen condition) :
      paragraph.QuietWhen (period.value.isSome = true ∧ condition) := by
    rw [whole]
    refine (quiet_bumpSignificant context cursor).quiet_andThen ?_
    refine (quietWhen_expectPeriod context .programId keyword.next).andThen ?_
    exact (quiet_eatIf context _ period.next).quiet_andThen last
  refine ⟨period.value.map (·.toLexeme), isPeriod_of_expectPeriod, ?_⟩
  cases found : name.value with
  | none =>
      obtain ⟨nothing, quiet⟩ := behindName_none name.next
      rw [← found] at nothing quiet
      left
      constructor
      · rw [words, found, nothing]
        simp
      · exact (asked quiet).congr (by simp)
  | some token =>
      obtain ⟨attributes, last, areAttributes, isLast, ends, quiet⟩ :=
        behindName_some token name.next
      rw [← found] at ends quiet
      have isName : token.toLexeme.IsName := by
        have names := (nameTest_iff.mp (test_of_eatIf found)).2
        simpa [namesProgram, IsName] using names
      right
      refine ⟨token, attributes, last, isName, areAttributes, isLast, ?_, ?_, ?_⟩
      · rw [words, found, ends]
        rfl
      · exact (asked quiet).congr (by simp)
      · rw [whole, Outcome.value_under, Outcome.value_andThen, Outcome.value_andThen,
          Outcome.value_andThen, show rest = behindName name.value name.next from rfl, found]
        rfl

/-- A paragraph of free text tells whether it is regular: the period of its header is there. -/
theorem tells_commentEntryParagraph {cursor : Cursor}
    (h : cursor.atIdentificationParagraph = true) : (commentEntryParagraph cursor).Tells := by
  obtain ⟨name, period, ahead, words⟩ := Cursor.atIdentificationParagraph_iff.mp h
  obtain ⟨middle, after, first, second⟩ := Cursor.ahead_two_eq_iff.mp ahead
  obtain ⟨isPeriod, -⟩ := Bool.and_eq_true_iff.mp words
  have found := value_expectPeriod second isPeriod .paragraphName
  have asked := quietWhen_expectPeriod .identificationDivision .paragraphName middle
  rw [found] at asked
  have quiet : (commentEntryParagraph cursor).QuietWhen True := by
    refine (quiet_bumpSignificant .identificationDivision cursor).andThen_quiet ?_
    rw [next_bumpSignificant first]
    refine (asked.congr (by simp)).andThen_quiet ?_
    exact quiet_repeating (fun _ => quiet_commentEntryRound) () _
  exact quiet.tells_gathered (gathered_commentEntryParagraph cursor) Iff.rfl

/-! ### The IDENTIFICATION DIVISION -/

/-- What paragraphs of the division tell, between what was declared before and behind them: whether
they are regular, whether one of them is a PROGRAM-ID paragraph, and by what name the program goes
if they are regular. -/
structure DeclaredSpec (before behind : Declared) (outcome : Outcome α) : Prop where
  tells : outcome.Tells
  found : behind.hasProgramId = true ↔
    before.hasProgramId = true ∨ nodesOfKind .programIdParagraph outcome.trees ≠ []
  named : RegularAll outcome.trees → ∀ other : Option ProgramIdentity,
    (behind.identity.or other).map (·.name) =
      nameBehind ((before.identity.or other).map (·.name))
        (nodesOfKind .programIdParagraph outcome.trees)

namespace DeclaredSpec

variable {before middle behind : Declared} {first : Outcome α} {second : Outcome β}

/-- What has no PROGRAM-ID paragraph in it declares nothing. -/
theorem of_tells (tells : first.Tells)
    (none : nodesOfKind .programIdParagraph first.trees = []) :
    DeclaredSpec before before first where
  tells := tells
  found := by simp [none]
  named := by simp [none, nameBehind]

theorem withValue (value : β) (h : DeclaredSpec before behind first) :
    DeclaredSpec before behind (first.withValue value) := ⟨h.tells, h.found, h.named⟩

theorem andThen (h : DeclaredSpec before middle first) (k : DeclaredSpec middle behind second) :
    DeclaredSpec before behind (first.andThen second) where
  tells := h.tells.andThen k.tells
  found := by
    rw [k.found, h.found, Outcome.trees_andThen, nodesOfKind_append]
    simp only [ne_eq, List.append_eq_nil_iff, Classical.not_and_iff_not_or_not]
    exact or_assoc
  named := by
    intro regular other
    rw [Outcome.trees_andThen, regularAll_append] at regular
    rw [Outcome.trees_andThen, nodesOfKind_append, nameBehind_append, ← h.named regular.1 other]
    exact k.named regular.2 other

end DeclaredSpec

theorem declaredSpec_trivia (context : Context) (cursor : Cursor) (declared : Declared) :
    DeclaredSpec declared declared (trivia context cursor) := by
  refine .of_tells (tells_trivia context cursor) ?_
  rw [(flat_trivia context cursor).trees, nodesOfKind_row]

/-- A node of another kind is no PROGRAM-ID paragraph. -/
theorem declaredSpec_gathered {kind : Kind} {cursor : Cursor} {outcome : Outcome α}
    (gathered : outcome.Gathered kind cursor) (tells : outcome.Tells)
    (other : kind ≠ .programIdParagraph) (declared : Declared) :
    DeclaredSpec declared declared outcome := by
  refine .of_tells tells ?_
  rw [gathered.trees]
  simp [nodesOfKind, Tree.label?, other]

/-- A PROGRAM-ID paragraph declares a program exactly when nothing is reported to be missing. -/
theorem declaredSpec_programIdParagraph {cursor after : Cursor} {word : Token}
    (h : cursor.significant? .identificationDivision = some (word, after))
    (reads : word.isWord "PROGRAM-ID".toList = true) (before : Declared) :
    DeclaredSpec before ⟨true, (programIdParagraph cursor).value.or before.identity⟩
      (programIdParagraph cursor) := by
  have gathered := gathered_programIdParagraph cursor
  have asked :
      Regular .programIdParagraph (row (Token.lexemes (programIdParagraph cursor).tokens)) ↔
        DeclaresProgram (programIdParagraph cursor).significant := by
    simp [Regular, Outcome.significant]
  have found : nodesOfKind .programIdParagraph (programIdParagraph cursor).trees =
      (programIdParagraph cursor).trees := by
    simp [gathered.trees, nodesOfKind, Tree.label?]
  have some : nodesOfKind .programIdParagraph (programIdParagraph cursor).trees ≠ [] := by
    rw [found, gathered.trees]
    exact List.cons_ne_nil _ _
  obtain ⟨first, isFirst, ⟨consumed, quiet⟩ |
    ⟨name, attributes, last, isName, areAttributes, isLast, consumed, quiet, value⟩⟩ :=
      programIdParagraph_cases h
  · have unnamed : ¬DeclaresProgram (programIdParagraph cursor).significant := by
      rw [consumed]
      exact not_declaresProgram
    refine ⟨quiet.tells_gathered gathered (by simp [asked, unnamed]), ?_, ?_⟩
    · simp [some]
    · intro regular
      rw [gathered.trees, regularAll_node, asked] at regular
      exact absurd regular.1 unnamed
  · have declares := declaresProgram_iff reads isFirst isName areAttributes isLast
    rw [← consumed] at declares
    refine ⟨quiet.tells_gathered gathered (declares.symm.trans asked.symm), ?_, ?_⟩
    · simp [some]
    · intro regular other
      rw [gathered.trees, regularAll_node, asked, declares] at regular
      obtain ⟨period, rfl⟩ := Option.isSome_iff_exists.mp regular.1.1
      have third : significantOf (row (Token.lexemes (programIdParagraph cursor).tokens)) =
          word.toLexeme :: period :: name.toLexeme :: (attributes ++ last.toList) :=
        (significantOf_row _).trans consumed
      rw [found, gathered.trees, value]
      simp [nameBehind, declaredName?, Tree.children, third]

theorem declaredSpec_identificationRound (declared : Declared) (cursor : Cursor) :
    DeclaredSpec declared (identificationRound declared cursor).value.value
      (identificationRound declared cursor) := by
  rw [identificationRound_apply]
  refine (declaredSpec_trivia _ cursor declared).andThen ?_
  rw [Outcome.value_andThen]
  generalize (trivia .identificationDivision cursor).next = here
  split
  · exact .of_tells (Outcome.tells_still _ _) rfl
  · split
    · rename_i declares
      obtain ⟨word, after, read, reads⟩ := exists_significant?_of_isWord declares
      exact (declaredSpec_programIdParagraph read reads declared).withValue _
    · split
      · rename_i header
        exact (declaredSpec_gathered (gathered_commentEntryParagraph here)
          (tells_commentEntryParagraph header) (by decide) declared).withValue _
      · exact (declaredSpec_gathered (gathered_strayText _ here) (tells_strayText _ here)
          (by decide) declared).withValue _

theorem declaredSpec_identification (declared : Declared) (cursor : Cursor) :
    DeclaredSpec declared (rounds .identificationDivision identificationRound declared cursor).value
      (rounds .identificationDivision identificationRound declared cursor) := by
  rw [rounds_eq_repeating .identificationDivision faithful_identificationRound
    advances_identificationRound]
  refine repeating_induction_from
    (motive := fun before _ outcome => DeclaredSpec before outcome.value outcome)
    faithful_identificationRound advances_identificationRound ?last ?goesOn declared cursor
  case last =>
    intro before cursor final h
    have round := declaredSpec_identificationRound before cursor
    rw [h] at round
    exact round.withValue final
  case goesOn =>
    intro before cursor next outcome h rest
    have round := declaredSpec_identificationRound before cursor
    rw [h] at round
    exact round.andThen rest

/-- The body of the division, behind its header: it reports that no program is declared exactly when
there is no PROGRAM-ID paragraph. -/
theorem reports_identificationBody (header : Option Token) (cursor : Cursor) :
    (identificationBody header cursor).reports = [] ↔
      RegularAll (identificationBody header cursor).trees ∧
        nodesOfKind .programIdParagraph (identificationBody header cursor).trees ≠ [] := by
  have spec := declaredSpec_identification ⟨false, none⟩ cursor
  have tells := spec.tells
  have declared := spec.found
  unfold Outcome.Tells at tells
  simp only [identificationBody, bind_apply, ite_apply]
  cases found : (rounds .identificationDivision identificationRound ⟨false, none⟩
      cursor).value.hasProgramId with
  | true =>
      have some := declared.mp found
      simp only [Bool.false_eq_true, false_or] at some
      simp [tells, some]
  | false =>
      rw [found] at declared
      have none := not_or.mp (mt declared.mpr Bool.false_ne_true)
      simp [reports_reportAt_ne_nil, none.2]

theorem named_identificationBody (header : Option Token) (cursor : Cursor) :
    let body := identificationBody header cursor
    RegularAll body.trees → ∀ other : Option ProgramIdentity,
      (body.value.or other).map (·.name) =
        nameBehind (other.map (·.name)) (nodesOfKind .programIdParagraph body.trees) := by
  have named := (declaredSpec_identification ⟨false, none⟩ cursor).named
  simp only [identificationBody, bind_apply, ite_apply]
  split
  · simpa using named
  · simpa using named

/-! ### Sections and paragraphs -/

section Procedure

variable (settings : Settings)

theorem tells_procedureSentences (cursor : Cursor) :
    (procedureSentences settings cursor).Tells := by
  rw [procedureSentences, rounds_eq_repeating .procedureDivision
    (fun _ => faithful_procedureSentenceRound settings) (advances_procedureSentenceRound settings)]
  refine tells_repeating (fun _ cursor => ?_) () cursor
  rw [procedureSentenceRound_apply]
  refine (tells_trivia .procedureDivision cursor).andThen ?_
  split
  · exact Outcome.tells_still _ _
  · rename_i goesOn
    have inside : ¬(trivia .procedureDivision cursor).next.atUnitBoundary = true :=
      fun boundary => goesOn (by simp [boundary])
    exact (tells_sentence (atToken_of_not_atUnitBoundary rfl inside) false).withValue _

theorem isNode_procedureSentences (cursor : Cursor) :
    Among (fun tree => tree.isNode = true) (procedureSentences settings cursor).trees :=
  (among_procedureSentences settings cursor).mono fun _ plain => plain.isNode

theorem tells_procedureSection {cursor : Cursor} (h : cursor.atSectionHeader = true) :
    (procedureSection settings cursor).Tells :=
  tells_headed_of_tells flat_sectionHeader (tellsPeriod_sectionHeader h) (fun _ => Iff.rfl)
    (isNode_procedureSentences settings _) (tells_procedureSentences settings _)

theorem tells_procedureParagraph {cursor : Cursor} (h : cursor.atParagraphHeader settings = true) :
    (procedureParagraph settings cursor).Tells :=
  tells_headed_of_tells flat_paragraphHeader (tellsPeriod_paragraphHeader h) (fun _ => Iff.rfl)
    (isNode_procedureSentences settings _) (tells_procedureSentences settings _)

theorem tells_procedureBody (cursor : Cursor) : (procedureBody settings cursor).Tells := by
  rw [procedureBody, rounds_eq_repeating .procedureDivision
    (fun _ => faithful_procedureRound settings) (advances_procedureRound settings)]
  refine tells_repeating (fun _ cursor => ?_) () cursor
  rw [procedureRound_apply]
  refine (tells_trivia .procedureDivision cursor).andThen ?_
  split
  · exact Outcome.tells_still _ _
  · rename_i inside
    have atToken := atToken_of_not_atUnitBoundary rfl inside
    split
    · rename_i header
      exact (tells_procedureSection settings header).withValue _
    · split
      · rename_i header
        exact (tells_procedureParagraph settings header).withValue _
      · exact (tells_sentence atToken false).withValue _

/-! ### Divisions -/

theorem isNode_divisionBody (division : Division) (header : Option Token) (cursor : Cursor) :
    Among (fun tree => tree.isNode = true) (divisionBody settings division header cursor).trees :=
  (among_divisionBody settings division header cursor).mono fun _ entry =>
    entry.isNode

/-- The division is regular exactly when nothing about it is reported. -/
theorem tells_division {division : Division} {cursor : Cursor}
    (h : cursor.divisionHeader? = some division) :
    (Production.division settings division cursor).Tells := by
  have flat := flat_divisionHeader division
  have period := tellsPeriod_divisionHeader h
  have nodes := isNode_divisionBody settings division (divisionHeader division cursor).value
    (divisionHeader division cursor).next
  cases division with
  | identification =>
      refine tells_headed flat period ?_ (reports_identificationBody _ _)
      rw [Division.kind, Regular, ownLexemesOf_headed _ nodes, nodesOfKind_append, nodesOfKind_row,
        List.nil_append]
      rfl
  | environment =>
      exact tells_headed_of_tells flat period (fun _ => Iff.rfl) nodes
        ((tells_entries rfl false _).andThen (Outcome.tells_still _ _))
  | data =>
      exact tells_headed_of_tells flat period (fun _ => Iff.rfl) nodes
        ((tells_entries rfl true _).andThen (Outcome.tells_still _ _))
  | procedure =>
      exact tells_headed_of_tells flat period (fun _ => Iff.rfl) nodes
        ((tells_procedureBody settings _).andThen (Outcome.tells_still _ _))

/-- Behind a regular division, a program goes by the name that its last PROGRAM-ID paragraph
declares. -/
theorem named_division (division : Division) (cursor : Cursor) :
    let outcome := Production.division settings division cursor
    RegularAll outcome.trees → ∀ before : Option ProgramIdentity,
      (outcome.value.or before).map (·.name) =
        nameBehind (before.map (·.name)) (programIdsOf outcome.trees) := by
  intro outcome regular before
  have trees : outcome.trees = _ := trees_headed division.kind (flat_divisionHeader division)
    (divisionBody settings division) cursor
  have otherwise (value : outcome.value = none) (other : division.kind ≠ .identificationDivision) :
      (outcome.value.or before).map (·.name) =
        nameBehind (before.map (·.name)) (programIdsOf outcome.trees) := by
    rw [trees, programIdsOf_node _ other, value]
    rfl
  cases division with
  | identification =>
      rw [trees, regularAll_node, regularAll_append] at regular
      rw [trees, Division.kind, programIdsOf_identification, nodesOfKind_append, nodesOfKind_row,
        List.nil_append]
      exact named_identificationBody _ _ regular.2.2 before
  | environment => exact otherwise rfl (by decide)
  | data => exact otherwise rfl (by decide)
  | procedure => exact otherwise rfl (by decide)

end Procedure

end CobolTree.Production
