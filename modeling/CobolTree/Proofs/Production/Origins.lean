import CobolTree.Proofs.Production.Boundary
import CobolTree.Proofs.Production.Landmarks

/-!
Where the nodes of a tree come from. The parser looks at what stands before it, and runs a
production where the production is called for; so every node in the tree of a text, at whatever
depth, is all that the production of its kind made at a place of the text, and the place passed the
tests that are made before that production (`Parsed.exists_origin`). `Origin` lists the productions
with their tests; what is true of a node because of where it begins is read off its origin, and no
proof of it goes through the parser again. In a PROCEDURE DIVISION there are fewer origins
(`ProcedureOrigin`).
-/

namespace CobolTree

namespace Outcome

open SourceTree LocatedTree

variable {α β : Type}

/-- A node is all that was made at a place behind a cursor, and what was reported there is among
the reports given. -/
structure IsMadeAt (cursor : Cursor) (reports : List Diagnostic) (node : LocatedTree)
    (place : Cursor) (part : Outcome Unit) : Prop where
  reached : ∃ before, cursor.Reads before place
  faithful : part.Faithful place
  located : part.located place = [node]
  reported : part.reports ⊆ reports

/-- Every node among the trees of an outcome was made at a place, and with an outcome, that its kind
can have. -/
def Originates (origin : Kind → Cursor → Outcome Unit → Prop) (cursor : Cursor)
    (outcome : Outcome α) : Prop :=
  ∀ node ∈ Tree.nodesOf (outcome.located cursor), ∃ place part,
    IsMadeAt cursor outcome.reports node place part ∧ origin (LocatedTree.kind node) place part

variable {origin : Kind → Cursor → Outcome Unit → Prop} {cursor : Cursor} {first : Outcome α}
  {second : Outcome β}

theorem IsMadeAt.behind {middle place : Cursor} {reports others : List Diagnostic}
    {node : LocatedTree} {part : Outcome Unit} (h : IsMadeAt middle reports node place part)
    {before : List Token} (reads : cursor.Reads before middle) (among : reports ⊆ others) :
    IsMadeAt cursor others node place part where
  reached := by
    obtain ⟨between, onwards⟩ := h.reached
    exact ⟨before ++ between, reads.append onwards⟩
  faithful := h.faithful
  located := h.located
  reported := List.Subset.trans h.reported among

/-- Tokens in a row have no nodes among them. -/
theorem Flat.originates (h : first.Flat cursor) : first.Originates origin cursor := by
  intro node mem
  rw [located_flat h, Tree.nodesOf_map_leaf] at mem
  cases mem

namespace Originates

theorem mono {other : Kind → Cursor → Outcome Unit → Prop} (h : first.Originates origin cursor)
    (imp : ∀ kind place part, origin kind place part → other kind place part) :
    first.Originates other cursor := by
  intro node mem
  obtain ⟨place, part, made, found⟩ := h node mem
  exact ⟨place, part, made, imp _ _ _ found⟩

theorem andThen (faithful : first.Faithful cursor) (h : first.Originates origin cursor)
    (k : second.Originates origin first.next) :
    (first.andThen second).Originates origin cursor := by
  intro node mem
  rw [located_andThen faithful, Tree.nodesOf_append] at mem
  rcases List.mem_append.mp mem with left | right
  · obtain ⟨place, part, made, found⟩ := h node left
    exact ⟨place, part, made.behind .nil (List.subset_append_left _ _), found⟩
  · obtain ⟨place, part, made, found⟩ := k node right
    exact ⟨place, part, made.behind faithful.reads (List.subset_append_right _ _), found⟩

/-- A node above nodes with an origin has the origin that is given for it. -/
theorem under {kind : Kind} (h : first.Originates origin cursor) (faithful : first.Faithful cursor)
    (here : origin kind cursor ((first.under kind).withValue ())) :
    (first.under kind).Originates origin cursor := by
  intro node mem
  rw [located_under, Tree.nodesOf, Tree.nodesOf, List.append_nil, top, Tree.nodes] at mem
  rcases List.mem_cons.mp mem with rfl | below
  · exact ⟨cursor, _, ⟨⟨[], .nil⟩, (faithful.under kind).withValue (), rfl, List.Subset.refl _⟩,
      here⟩
  · exact h node below

end Originates

theorem Gathered.originates {kind : Kind} (h : first.Gathered kind cursor)
    (here : origin kind cursor (first.withValue ())) : first.Originates origin cursor := by
  intro node mem
  have located : first.located cursor =
      [.node ⟨kind, Range.ofText cursor.position.index (textOf (row (Token.lexemes first.tokens)))⟩
        (locateAllAt cursor.position.index (row (Token.lexemes first.tokens)))] := by
    rw [Outcome.located, h.trees]
    rfl
  rw [located, Tree.nodesOf, Tree.nodesOf, List.append_nil, Tree.nodes, locateAllAt_row,
    Tree.nodesOf_map_leaf, List.mem_singleton] at mem
  subst mem
  refine ⟨cursor, first.withValue (), ?_, here⟩
  refine ⟨⟨[], .nil⟩, h.faithful.withValue (), ?_, List.Subset.refl _⟩
  exact located.trans (by rw [locateAllAt_row])

end Outcome

namespace Production

open Outcome (Originates)

variable {β σ : Type} {origin : Kind → Cursor → Outcome Unit → Prop} {settings : Settings}
  {cursor : Cursor}

/-! ### The origins of nodes -/

/-- A token stands here that the current division goes on with. -/
structure GoesOn (place : Cursor) : Prop where
  atToken : place.AtToken
  inside : place.atUnitBoundary = false

theorem goesOn_trivia {context : Context} (word : context.mode = .word)
    (inside : ¬(trivia context cursor).next.atUnitBoundary = true) :
    GoesOn (trivia context cursor).next :=
  ⟨atToken_of_not_atUnitBoundary word inside, Bool.eq_false_iff.mpr inside⟩

theorem GoesOn.free {place : Cursor} (h : GoesOn place) : place.atHeader = false :=
  atHeader_of_not_atUnitBoundary (Bool.eq_false_iff.mp h.inside)

/-- What the nodes in the body of a PROCEDURE DIVISION come from. A sentence begins where neither a
section nor a paragraph does. -/
inductive ProcedureOrigin (settings : Settings) : Kind → Cursor → Outcome Unit → Prop where
  | sentence {place : Cursor} : GoesOn place → place.atSectionHeader = false →
      place.atParagraphHeader settings = false →
        ProcedureOrigin settings .sentence place (sentence .sentence .sentence false place)
  | section {place : Cursor} : GoesOn place → place.atSectionHeader = true →
      ProcedureOrigin settings .procedureSection place (procedureSection settings place)
  | paragraph {place : Cursor} : GoesOn place → place.atParagraphHeader settings = true →
      ProcedureOrigin settings .procedureParagraph place (procedureParagraph settings place)

/-- What the nodes in the tree of a text come from. -/
inductive Origin (settings : Settings) : Kind → Cursor → Outcome Unit → Prop where
  | procedure {kind : Kind} {place : Cursor} {part : Outcome Unit} :
      ProcedureOrigin settings kind place part → Origin settings kind place part
  | entry {place : Cursor} (pictures : Bool) : GoesOn place →
      Origin settings .sentence place (sentence .sentence .sentence pictures place)
  | stray {place : Cursor} {context : Context} : context.mode = .word → GoesOn place →
      Origin settings .errorNode place (strayText context place)
  | programId {place : Cursor} : GoesOn place →
      Origin settings .programIdParagraph place ((programIdParagraph place).withValue ())
  | commentEntry {place : Cursor} : GoesOn place → place.atIdentificationParagraph = true →
      Origin settings .commentEntryParagraph place (commentEntryParagraph place)
  | division {place : Cursor} {division : Division} : place.divisionHeader? = some division →
      Origin settings division.kind place ((Production.division settings division place).withValue ())
  | unit {place : Cursor} (enclosing : List ProgramIdentity) :
      Origin settings .programUnit place
        (closeUnit place (unitRounds settings enclosing .fresh place))

/-- A node of a division's kind comes from the header of the division. -/
theorem Origin.of_division {kind : Kind} {place : Cursor} {part : Outcome Unit}
    (h : Origin settings kind place part) {division : Division} (same : kind = division.kind) :
    place.divisionHeader? = some division ∧
      part = (Production.division settings division place).withValue () := by
  cases h with
  | @division _ found header =>
      have : found = division := by cases found <;> cases division <;> first | rfl | cases same
      subst this
      exact ⟨header, rfl⟩
  | procedure origin => cases origin <;> cases division <;> cases same
  | _ => cases division <;> cases same

/-- A unit comes from the parts of a unit that has just begun. -/
theorem Origin.of_unit {kind : Kind} {place : Cursor} {part : Outcome Unit}
    (h : Origin settings kind place part) (same : kind = .programUnit) :
    ∃ enclosing, part = closeUnit place (unitRounds settings enclosing .fresh place) := by
  cases h with
  | unit enclosing => exact ⟨enclosing, rfl⟩
  | @division _ found _ => cases found <;> cases same
  | procedure origin => cases origin <;> cases same
  | _ => cases same

/-- A paragraph of free text comes from where a paragraph begins. -/
theorem Origin.of_freeText {kind : Kind} {place : Cursor} {part : Outcome Unit}
    (h : Origin settings kind place part) (same : kind = .commentEntryParagraph) :
    place.atIdentificationParagraph = true ∧ part = commentEntryParagraph place := by
  cases h with
  | commentEntry _ heading => exact ⟨heading, rfl⟩
  | procedure origin => cases origin <;> cases same
  | @division _ found _ => cases found <;> cases same
  | _ => cases same

/-! ### Rows and loops -/

theorem originates_behind_trivia {context : Context} {second : Outcome β}
    (h : second.Originates origin (trivia context cursor).next) :
    ((trivia context cursor).andThen second).Originates origin cursor :=
  .andThen (flat_trivia context cursor).faithful (flat_trivia context cursor).originates h

theorem originates_repeating {round : σ → Production (ForInStep σ)}
    (faithful : ∀ state, Faithful (round state))
    (each : ∀ state cursor, (round state cursor).Originates origin cursor) (state : σ)
    (cursor : Cursor) : (repeating round state cursor).Originates origin cursor := by
  fun_induction repeating round state cursor with
  | case1 state cursor first final h => exact each state cursor
  | case2 state cursor first next h shorter ih =>
      exact .andThen (faithful state cursor) (each state cursor) ih
  | case3 state cursor first next h same => exact each state cursor

/-! ### The bodies of divisions -/

theorem originates_entries {context : Context} (word : context.mode = .word) (pictures : Bool)
    (cursor : Cursor) :
    (entries context pictures cursor).Originates (Origin settings) cursor := by
  rw [entries, rounds_eq_repeating context (fun _ => faithful_entryRound context pictures)
    (advances_entryRound word pictures)]
  refine originates_repeating (fun _ => faithful_entryRound context pictures)
    (fun _ cursor => ?_) () cursor
  rw [entryRound_apply]
  apply originates_behind_trivia
  split
  · exact (Outcome.Flat.still _ _).originates
  · rename_i inside
    exact (gathered_sentence _ _ _ _).originates (.entry pictures (goesOn_trivia word inside))

theorem originates_identificationBody (header : Option Token) (cursor : Cursor) :
    (identificationBody header cursor).Originates (Origin settings) cursor := by
  have body : (rounds .identificationDivision identificationRound ⟨false, none⟩ cursor).Originates
      (Origin settings) cursor := by
    rw [rounds_eq_repeating .identificationDivision faithful_identificationRound
      advances_identificationRound]
    refine originates_repeating faithful_identificationRound (fun declared cursor => ?_) _ cursor
    rw [identificationRound_apply]
    apply originates_behind_trivia
    split
    · exact (Outcome.Flat.still _ _).originates
    · rename_i inside
      have goesOn := goesOn_trivia rfl inside
      split
      · exact (gathered_programIdParagraph _).originates (.programId goesOn)
      · split
        · rename_i heading
          exact (gathered_commentEntryParagraph _).originates (.commentEntry goesOn heading)
        · exact (gathered_strayText _ _).originates (.stray rfl goesOn)
  refine .andThen (faithful_rounds _ faithful_identificationRound _ cursor) body ?_
  exact (flat_ite (flat_pure _) (flat_bind (flat_reportAt _ _) fun _ => flat_pure _) _).originates

section Procedure

variable (settings)

theorem originates_procedureSentences (cursor : Cursor) :
    (procedureSentences settings cursor).Originates (ProcedureOrigin settings) cursor := by
  rw [procedureSentences, rounds_eq_repeating .procedureDivision
    (fun _ => faithful_procedureSentenceRound settings) (advances_procedureSentenceRound settings)]
  refine originates_repeating (fun _ => faithful_procedureSentenceRound settings)
    (fun _ cursor => ?_) () cursor
  rw [procedureSentenceRound_apply]
  apply originates_behind_trivia
  split
  · exact (Outcome.Flat.still _ _).originates
  · rename_i goesOn
    simp only [Bool.or_eq_true, not_or, Bool.not_eq_true] at goesOn
    obtain ⟨⟨inside, noSection⟩, noParagraph⟩ := goesOn
    have goesOn := goesOn_trivia rfl (Bool.eq_false_iff.mp inside)
    exact (gathered_sentence _ _ _ _).originates (.sentence goesOn noSection noParagraph)

theorem originates_procedureSection (goesOn : GoesOn cursor)
    (h : cursor.atSectionHeader = true) :
    (procedureSection settings cursor).Originates (ProcedureOrigin settings) cursor := by
  have header := flat_sectionHeader cursor
  have body := originates_procedureSentences settings (sectionHeader cursor).next
  refine Originates.under (.andThen header.faithful header.originates body) ?_ (.section goesOn h)
  exact header.faithful.andThen (faithful_procedureSentences settings _)

theorem originates_procedureParagraph (goesOn : GoesOn cursor)
    (h : cursor.atParagraphHeader settings = true) :
    (procedureParagraph settings cursor).Originates (ProcedureOrigin settings) cursor := by
  have header := flat_paragraphHeader cursor
  have body := originates_procedureSentences settings (paragraphHeader cursor).next
  refine Originates.under (.andThen header.faithful header.originates body) ?_ (.paragraph goesOn h)
  exact header.faithful.andThen (faithful_procedureSentences settings _)

theorem originates_procedureBody (cursor : Cursor) :
    (procedureBody settings cursor).Originates (ProcedureOrigin settings) cursor := by
  rw [procedureBody, rounds_eq_repeating .procedureDivision
    (fun _ => faithful_procedureRound settings) (advances_procedureRound settings)]
  refine originates_repeating (fun _ => faithful_procedureRound settings) (fun _ cursor => ?_) ()
    cursor
  rw [procedureRound_apply]
  apply originates_behind_trivia
  split
  · exact (Outcome.Flat.still _ _).originates
  · rename_i inside
    have goesOn := goesOn_trivia rfl inside
    split
    · rename_i heading
      exact originates_procedureSection settings goesOn heading
    · rename_i noSection
      split
      · rename_i heading
        exact originates_procedureParagraph settings goesOn heading
      · rename_i noParagraph
        exact (gathered_sentence _ _ _ _).originates (.sentence goesOn
          (Bool.eq_false_iff.mpr noSection) (Bool.eq_false_iff.mpr noParagraph))

end Procedure

/-! ### Divisions and units -/

section Units

variable (settings)

theorem originates_divisionBody (division : Division) (header : Option Token) (cursor : Cursor) :
    (divisionBody settings division header cursor).Originates (Origin settings) cursor := by
  have still (cursor : Cursor) : (Outcome.still (none : Option ProgramIdentity) cursor).Originates
      (Origin settings) cursor := (Outcome.Flat.still _ _).originates
  cases division with
  | identification => exact originates_identificationBody header cursor
  | environment =>
      exact .andThen (faithful_entries _ _ cursor) (originates_entries rfl false cursor) (still _)
  | data =>
      exact .andThen (faithful_entries _ _ cursor) (originates_entries rfl true cursor) (still _)
  | procedure =>
      have body := (originates_procedureBody settings cursor).mono fun _ _ _ => Origin.procedure
      exact .andThen (faithful_procedureBody settings cursor) body (still _)

theorem originates_division {division : Division} (h : cursor.divisionHeader? = some division) :
    (Production.division settings division cursor).Originates (Origin settings) cursor := by
  have header := flat_divisionHeader division cursor
  refine Originates.under (.andThen header.faithful header.originates ?_) ?_ (.division h)
  · exact originates_divisionBody settings division _ _
  · exact header.faithful.andThen (faithful_divisionBody settings division _ _)

theorem originates_unitPart (state : UnitState) (atToken : cursor.AtToken)
    (notTrailer : cursor.atEndProgram = false) :
    (unitPart settings state cursor).Originates (Origin settings) cursor := by
  cases header : cursor.divisionHeader? with
  | some found =>
      rw [unitPart_of_header settings state header]
      have flat := flat_checkOrder settings state.seen found cursor
      have stays := (trees_checkOrder settings state.seen found cursor).2
      refine Originates.andThen flat.faithful flat.originates ?_
      rw [stays]
      exact originates_division settings header
  | none =>
      rw [unitPart_of_stray settings state header]
      have inside : cursor.atUnitBoundary = false := by
        have left : cursor.atEnd = false :=
          Bool.eq_false_iff.mpr fun ends => atToken.rest_ne_nil (Cursor.atEnd_iff.mp ends)
        simp [Cursor.atUnitBoundary, Cursor.atHeader, left, header, notTrailer]
      exact (gathered_strayText .programUnit cursor).originates (.stray rfl ⟨atToken, inside⟩)

theorem originates_closeUnit (enclosing : List ProgramIdentity)
    (h : (unitRounds settings enclosing .fresh cursor).Originates (Origin settings) cursor) :
    (closeUnit cursor (unitRounds settings enclosing .fresh cursor)).Originates (Origin settings)
      cursor := by
  have parts := faithful_unitRounds settings enclosing .fresh cursor
  have ending (next : Cursor) : ((if (unitRounds settings enclosing .fresh cursor).value.seen.contains
      .identification then return ()
    else reportAt ((cursor.significant? .programUnit).map (·.1)) .noIdentificationDivision :
      Production Unit) next).Flat next := flat_ite (flat_pure _) (flat_reportAt _ _) next
  exact Originates.under (.andThen parts h (ending _).originates) (parts.andThen (ending _).faithful)
    (.unit enclosing)

theorem originates_unitStep (enclosing : List ProgramIdentity) (state : UnitState)
    (atToken : cursor.AtToken) (notTrailer : cursor.atEndProgram = false)
    (nested : ∀ inner, state.seen ≠ [] →
      (unitRounds settings inner .fresh cursor).Originates (Origin settings) cursor) :
    (unitStep settings enclosing state cursor).Originates (Origin settings) cursor := by
  by_cases inside : cursor.divisionHeader? = some .identification ∧ state.seen ≠ []
  · rw [unitStep_of_nested settings enclosing inside]
    exact originates_closeUnit settings _ (nested _ inside.2)
  · rw [unitStep_of_not_nested settings enclosing inside]
    exact originates_unitPart settings state atToken notTrailer

theorem originates_unitRounds (enclosing : List ProgramIdentity) (state : UnitState)
    (cursor : Cursor) :
    (unitRounds settings enclosing state cursor).Originates (Origin settings) cursor := by
  refine unitRounds_induction settings enclosing
    (motive := fun _ cursor outcome => outcome.Originates (Origin settings) cursor)
    ?ends ?closes ?goesOn state cursor
  case ends => exact fun _ cursor => (flat_trivia .programUnit cursor).originates
  case closes =>
    intro state cursor lead _
    exact originates_behind_trivia (flat_trailer _ lead.next).originates
  case goesOn =>
    intro enclosing state cursor outcome lead part atToken notTrailer nested later
    have lead := (flat_trivia .programUnit cursor).faithful
    have step := faithful_unitStep settings enclosing state (trivia .programUnit cursor).next
    exact .andThen (lead.andThen step) (originates_behind_trivia
      (originates_unitStep settings enclosing state atToken notTrailer nested)) later

theorem originates_programUnits (cursor : Cursor) :
    (programUnits settings cursor).Originates (Origin settings) cursor := by
  refine programUnits_of_unit settings
    (motive := fun cursor outcome => outcome.Originates (Origin settings) cursor) ?_ ?_ ?_ ?_ cursor
  · exact fun _ h => h
  · exact fun faithful _ h k => .andThen faithful h k
  · exact fun cursor => (flat_trivia _ cursor).originates
  · exact fun cursor =>
      originates_closeUnit settings [] (originates_unitRounds settings [] .fresh cursor)

end Units

end Production

namespace Parsed

open LocatedTree

/-- Every node below the root of a tree comes from where the production of its kind was called
for. -/
theorem exists_origin (settings : Settings) (text : Text) {node : LocatedTree}
    (mem : node ∈ (ofText settings text).tree.locate.nodes)
    (inner : LocatedTree.kind node ≠ .sourceUnit) : ∃ place part,
      Outcome.IsMadeAt (.start text) (Production.programUnits settings (.start text)).reports node
        place part ∧ Production.Origin settings (LocatedTree.kind node) place part := by
  rw [ofText, SourceTree.locate, SourceTree.locateAt, Tree.nodes] at mem
  rcases List.mem_cons.mp mem with rfl | below
  · exact absurd rfl inner
  · exact Production.originates_programUnits settings (.start text) node below

end Parsed

end CobolTree
