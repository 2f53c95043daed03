import CobolTree.Parsed
import CobolTree.Proofs.Tree.Located

/-!
Productions keep the text. A production is faithful when the tokens it consumes lie one after
another from the cursor it starts at to the cursor it ends at, and its trees hold just these
tokens, in order; it is flat when moreover its trees are these tokens in a row, with no node
above them. Sequences and loops of flat productions are flat, a node above a flat production is
faithful, and so is whatever is put together from faithful productions: headers and phrases are
flat, and all others are faithful. `faithful_unitRounds` carries the recursion of nested units.
-/

namespace CobolTree

theorem Outcome.andThen_assoc {α β γ : Type} (first : Outcome α) (second : Outcome β)
    (third : Outcome γ) :
    (first.andThen second).andThen third = first.andThen (second.andThen third) := by
  simp [andThen]

/-- The trees of an outcome hold the tokens read between two cursors, each of them once. -/
structure Outcome.Faithful {α : Type} (cursor : Cursor) (outcome : Outcome α) : Prop where
  reads : cursor.Reads outcome.tokens outcome.next
  leaves : Tree.leavesOf outcome.trees = Token.lexemes outcome.tokens

namespace Outcome.Faithful

variable {α β : Type} {cursor : Cursor} {first : Outcome α} {second : Outcome β}

theorem still (value : α) (cursor : Cursor) : (Outcome.still value cursor).Faithful cursor :=
  ⟨.nil, rfl⟩

theorem withValue (value : β) (h : first.Faithful cursor) :
    (first.withValue value).Faithful cursor := ⟨h.reads, h.leaves⟩

theorem andThen (h : first.Faithful cursor) (k : second.Faithful first.next) :
    (first.andThen second).Faithful cursor where
  reads := h.reads.append k.reads
  leaves := by simp [Outcome.andThen, h.leaves, k.leaves]

theorem under (kind : Kind) (h : first.Faithful cursor) :
    (first.under kind).Faithful cursor where
  reads := h.reads
  leaves := by simp [Outcome.under, Tree.leavesOf, Tree.leaves, h.leaves]

theorem length_le (h : first.Faithful cursor) :
    first.next.rest.length ≤ cursor.rest.length := h.reads.length_le

end Outcome.Faithful

/-- The trees of an outcome are the tokens read between two cursors, in a row. -/
structure Outcome.Flat {α : Type} (cursor : Cursor) (outcome : Outcome α) : Prop where
  reads : cursor.Reads outcome.tokens outcome.next
  trees : outcome.trees = SourceTree.row (Token.lexemes outcome.tokens)

namespace Outcome.Flat

variable {α β : Type} {cursor : Cursor} {first : Outcome α} {second : Outcome β}

theorem still (value : α) (cursor : Cursor) : (Outcome.still value cursor).Flat cursor :=
  ⟨.nil, rfl⟩

theorem withValue (value : β) (h : first.Flat cursor) : (first.withValue value).Flat cursor :=
  ⟨h.reads, h.trees⟩

theorem andThen (h : first.Flat cursor) (k : second.Flat first.next) :
    (first.andThen second).Flat cursor where
  reads := h.reads.append k.reads
  trees := by simp [h.trees, k.trees]

theorem faithful (h : first.Flat cursor) : first.Faithful cursor where
  reads := h.reads
  leaves := by rw [h.trees, SourceTree.leavesOf_row]

end Outcome.Flat

/-- The tree of an outcome is one node above the tokens read between two cursors. -/
structure Outcome.Gathered {α : Type} (kind : Kind) (cursor : Cursor) (outcome : Outcome α) :
    Prop where
  reads : cursor.Reads outcome.tokens outcome.next
  trees : outcome.trees = [.node kind (SourceTree.row (Token.lexemes outcome.tokens))]

theorem Outcome.Gathered.faithful {α : Type} {kind : Kind} {cursor : Cursor} {outcome : Outcome α}
    (h : outcome.Gathered kind cursor) : outcome.Faithful cursor where
  reads := h.reads
  leaves := by simp [h.trees, Tree.leavesOf, Tree.leaves]

namespace Production

variable {α β σ : Type}

/-- Every outcome of the production is faithful to the text. -/
def Faithful (production : Production α) : Prop :=
  ∀ cursor, (production cursor).Faithful cursor

/-- Every outcome of the production is a row of tokens. -/
def Flat (production : Production α) : Prop := ∀ cursor, (production cursor).Flat cursor

/-- Every outcome of the production is one node above a row of tokens. -/
def Gathered (kind : Kind) (production : Production α) : Prop :=
  ∀ cursor, (production cursor).Gathered kind cursor

theorem Flat.faithful {production : Production α} (h : Flat production) : Faithful production :=
  fun cursor => (h cursor).faithful

theorem Gathered.faithful {kind : Kind} {production : Production α}
    (h : Gathered kind production) : Faithful production := fun cursor => (h cursor).faithful

/-! ### Rows of tokens -/

theorem flat_pure (value : α) : Flat (pure value) := fun cursor => .still value cursor

theorem flat_here : Flat here := fun cursor => .still cursor cursor

theorem flat_bind {first : Production α} {second : α → Production β} (h : Flat first)
    (k : ∀ value, Flat (second value)) : Flat (first >>= second) :=
  fun cursor => (h cursor).andThen (k _ _)

theorem flat_report (diagnostic : Diagnostic) : Flat (report diagnostic) :=
  fun _ => ⟨.nil, rfl⟩

theorem flat_reportHere (problem : Problem) : Flat (reportHere problem) := by
  intro cursor
  unfold reportHere
  split <;> exact flat_report _ cursor

theorem flat_reportAt (token : Option Token) (problem : Problem) :
    Flat (reportAt token problem) := by
  unfold reportAt
  split
  · exact flat_report _
  · exact flat_reportHere _

theorem flat_bump (context : Context) : Flat (bump context) := by
  intro cursor
  unfold bump
  split
  · exact .still none cursor
  · rename_i token after h
    exact ⟨.cons h .nil, rfl⟩

theorem flat_ite {c : Prop} [Decidable c] {yes no : Production α} (h : Flat yes)
    (k : Flat no) : Flat (if c then yes else no) := by
  split
  · exact h
  · exact k

/-- A loop of flat rounds is flat, however many rounds it takes. -/
theorem flat_repeating {round : σ → Production (ForInStep σ)} (h : ∀ state, Flat (round state))
    (state : σ) : Flat (repeating round state) := by
  intro cursor
  fun_induction repeating round state cursor with
  | case1 state cursor first final _ => exact (h state cursor).withValue final
  | case2 state cursor first next _ shorter ih => exact (h state cursor).andThen ih
  | case3 state cursor first next _ same => exact (h state cursor).withValue next

/-- A node above a flat production has all its tokens right below. -/
theorem gathered_node (kind : Kind) {body : Production α} (h : Flat body) :
    Gathered kind (node kind body) := by
  intro cursor
  constructor
  · exact (h cursor).reads
  · simp [node, (h cursor).trees]

/-! ### What is put together -/

theorem faithful_pure (value : α) : Faithful (pure value) := (flat_pure value).faithful

theorem faithful_here : Faithful here := flat_here.faithful

theorem faithful_bind {first : Production α} {second : α → Production β} (h : Faithful first)
    (k : ∀ value, Faithful (second value)) : Faithful (first >>= second) :=
  fun cursor => (h cursor).andThen (k _ _)

theorem faithful_node (kind : Kind) {body : Production α} (h : Faithful body) :
    Faithful (node kind body) := fun cursor => (h cursor).under kind

theorem faithful_ite {c : Prop} [Decidable c] {yes no : Production α} (h : Faithful yes)
    (k : Faithful no) : Faithful (if c then yes else no) := by
  split
  · exact h
  · exact k

/-- A loop of faithful rounds is faithful, however many rounds it takes. -/
theorem faithful_repeating {round : σ → Production (ForInStep σ)}
    (h : ∀ state, Faithful (round state)) (state : σ) : Faithful (repeating round state) := by
  intro cursor
  fun_induction repeating round state cursor with
  | case1 state cursor first final _ => exact (h state cursor).withValue final
  | case2 state cursor first next _ shorter ih => exact (h state cursor).andThen ih
  | case3 state cursor first next _ same => exact (h state cursor).withValue next

/-! ### Tokens -/

theorem flat_triviaRound (context : Context) : Flat (triviaRound context) := by
  refine flat_bind flat_here fun cursor => ?_
  split
  · refine flat_ite ?_ (flat_pure _)
    exact flat_bind (flat_bump _) fun _ => flat_pure _
  · exact flat_pure _

theorem flat_trivia (context : Context) : Flat (trivia context) :=
  flat_repeating (fun _ => flat_triviaRound context) ()

/-- A round that skips blanks and comments, and goes by what stands behind them. -/
theorem faithful_trivia_here {context : Context} {round : Cursor → Production α}
    (h : ∀ cursor, Faithful (round cursor)) :
    Faithful (trivia context >>= fun _ => here >>= round) := by
  refine faithful_bind (flat_trivia context).faithful fun _ => ?_
  exact faithful_bind faithful_here h

theorem flat_bumpSignificant (context : Context) : Flat (bumpSignificant context) :=
  flat_bind (flat_trivia _) fun _ => flat_bump _

theorem flat_nextSignificant (context : Context) : Flat (nextSignificant context) :=
  fun cursor => .still _ cursor

theorem flat_eatIf (context : Context) (test : Token → Bool) :
    Flat (eatIf context test) := by
  refine flat_bind (flat_nextSignificant _) fun next => ?_
  split
  · exact flat_ite (flat_bumpSignificant _) (flat_pure _)
  · exact flat_pure _

theorem flat_eatWord (context : Context) (word : Text) : Flat (eatWord context word) :=
  flat_eatIf _ _

theorem flat_expectPeriod (context : Context) (site : PeriodSite) :
    Flat (expectPeriod context site) := by
  refine flat_bind (flat_eatIf _ _) fun found => ?_
  split
  · exact flat_pure _
  · exact flat_bind (flat_reportHere _) fun _ => flat_pure _

theorem flat_ensureProgress (before : Position) (context : Context) :
    Flat (ensureProgress before context) := by
  refine flat_bind flat_here fun cursor => flat_ite ?_ (flat_pure _)
  refine flat_bind (flat_reportHere _) fun _ => ?_
  exact flat_bind (flat_bump _) fun _ => flat_pure _

theorem faithful_orSkip (context : Context) {round : σ → Production (ForInStep σ)}
    (h : ∀ state, Faithful (round state)) (state : σ) :
    Faithful (orSkip context round state) := by
  refine faithful_bind faithful_here fun before => faithful_bind (h state) fun step => ?_
  split
  · exact faithful_pure _
  · exact faithful_bind (flat_ensureProgress _ _).faithful fun _ => faithful_pure _

theorem faithful_rounds (context : Context) {round : σ → Production (ForInStep σ)}
    (h : ∀ state, Faithful (round state)) (state : σ) :
    Faithful (rounds context round state) :=
  faithful_repeating (faithful_orSkip context h) state

/-! ### Sentences -/

theorem flat_pictureOperand (context : Context) : Flat (pictureOperand context) := by
  refine flat_bind (flat_eatWord _ _) fun _ => ?_
  refine flat_bind (flat_trivia _) fun _ => flat_bind flat_here fun cursor => ?_
  split
  · exact flat_ite (flat_bind (flat_bump _) fun _ => flat_pure _) (flat_pure _)
  · exact flat_pure _

theorem flat_sentenceRound (context : Context) (pictures : Bool) (state : SentenceState) :
    Flat (sentenceRound context pictures state) := by
  refine flat_bind flat_here fun cursor => ?_
  split
  · exact flat_pure _
  · rename_i token _
    refine flat_ite (flat_bind (flat_bump _) fun _ => flat_pure _) ?_
    refine flat_ite (flat_pure _) (flat_bind (flat_bump _) fun _ => ?_)
    refine flat_ite (flat_pure _) (flat_ite ?_ (flat_pure _))
    exact flat_bind (flat_pictureOperand _) fun _ => flat_pure _

theorem gathered_sentence (context : Context) (kind : Kind) (pictures : Bool) :
    Gathered kind (sentence context kind pictures) := by
  refine gathered_node _ (flat_bind ?_ fun state => ?_)
  · exact flat_repeating (flat_sentenceRound context pictures) .empty
  · exact flat_ite (flat_reportHere _) (flat_pure _)

theorem gathered_strayText (context : Context) : Gathered .errorNode (strayText context) := by
  intro cursor
  have body := gathered_sentence context .errorNode false cursor
  exact ⟨by simpa [strayText] using body.reads, by simpa [strayText] using body.trees⟩

theorem faithful_entryRound (context : Context) (pictures : Bool) :
    Faithful (entryRound context pictures) := by
  refine faithful_trivia_here fun cursor => ?_
  exact faithful_ite (faithful_pure _)
    (faithful_bind (gathered_sentence _ _ _).faithful fun _ => faithful_pure _)

theorem faithful_entries (context : Context) (pictures : Bool) :
    Faithful (entries context pictures) :=
  faithful_rounds _ (fun _ => faithful_entryRound context pictures) ()

/-! ### The IDENTIFICATION DIVISION -/

theorem flat_programAttributeRound (context : Context) :
    Flat (programAttributeRound context) := by
  refine flat_bind (flat_eatIf _ _) fun found => ?_
  split <;> exact flat_pure _

theorem flat_programAttributes (context : Context) : Flat (programAttributes context) :=
  flat_repeating (fun _ => flat_programAttributeRound context) ()

theorem gathered_programIdParagraph : Gathered .programIdParagraph programIdParagraph := by
  refine gathered_node _ (flat_bind (flat_bumpSignificant _) fun _ => ?_)
  refine flat_bind (flat_expectPeriod _ _) fun _ => flat_bind flat_here fun _ => ?_
  refine flat_bind (flat_eatIf _ _) fun found => ?_
  split
  · refine flat_bind (flat_programAttributes _) fun _ => ?_
    exact flat_bind (flat_expectPeriod _ _) fun _ => flat_pure _
  · exact flat_bind (flat_reportHere _) fun _ => flat_pure _

theorem flat_commentEntryRound : Flat commentEntryRound := by
  refine flat_bind flat_here fun cursor => ?_
  split
  · exact flat_pure _
  · exact flat_ite (flat_pure _) (flat_bind (flat_bump _) fun _ => flat_pure _)

theorem gathered_commentEntryParagraph :
    Gathered .commentEntryParagraph commentEntryParagraph := by
  refine gathered_node _ (flat_bind (flat_bumpSignificant _) fun _ => ?_)
  refine flat_bind (flat_expectPeriod _ _) fun _ => ?_
  exact flat_repeating (fun _ => flat_commentEntryRound) ()

theorem faithful_identificationRound (declared : Declared) :
    Faithful (identificationRound declared) := by
  refine faithful_trivia_here fun cursor => ?_
  refine faithful_ite (faithful_pure _) (faithful_ite ?_ (faithful_ite ?_ ?_))
  · exact faithful_bind gathered_programIdParagraph.faithful fun _ => faithful_pure _
  · exact faithful_bind gathered_commentEntryParagraph.faithful fun _ => faithful_pure _
  · exact faithful_bind (gathered_strayText _).faithful fun _ => faithful_pure _

theorem faithful_identificationBody (header : Option Token) :
    Faithful (identificationBody header) := by
  refine faithful_bind (faithful_rounds _ faithful_identificationRound _) fun declared => ?_
  exact faithful_ite (faithful_pure _)
    (faithful_bind (flat_reportAt _ _).faithful fun _ => faithful_pure _)

/-! ### The PROCEDURE DIVISION -/

theorem flat_sectionHeader : Flat sectionHeader := by
  refine flat_bind (flat_bumpSignificant _) fun _ => flat_bind (flat_eatWord _ _) fun _ => ?_
  refine flat_bind (flat_eatIf _ _) fun _ => flat_bind (flat_expectPeriod _ _) fun _ => flat_pure _

theorem flat_paragraphHeader : Flat paragraphHeader :=
  flat_bind (flat_bumpSignificant _) fun _ => flat_bind (flat_expectPeriod _ _) fun _ => flat_pure _

section Procedure

variable (settings : Settings)

theorem faithful_procedureSentenceRound : Faithful (procedureSentenceRound settings) := by
  refine faithful_trivia_here fun cursor => ?_
  exact faithful_ite (faithful_pure _)
    (faithful_bind (gathered_sentence _ _ _).faithful fun _ => faithful_pure _)

theorem faithful_procedureSentences : Faithful (procedureSentences settings) :=
  faithful_rounds _ (fun _ => faithful_procedureSentenceRound settings) ()

theorem faithful_procedureSection : Faithful (procedureSection settings) :=
  faithful_node _ (faithful_bind flat_sectionHeader.faithful
    fun _ => faithful_procedureSentences settings)

theorem faithful_procedureParagraph : Faithful (procedureParagraph settings) :=
  faithful_node _ (faithful_bind flat_paragraphHeader.faithful
    fun _ => faithful_procedureSentences settings)

theorem faithful_procedureRound : Faithful (procedureRound settings) := by
  refine faithful_trivia_here fun cursor => ?_
  refine faithful_ite (faithful_pure _) (faithful_ite ?_ (faithful_ite ?_ ?_))
  · exact faithful_bind (faithful_procedureSection settings) fun _ => faithful_pure _
  · exact faithful_bind (faithful_procedureParagraph settings) fun _ => faithful_pure _
  · exact faithful_bind (gathered_sentence _ _ _).faithful fun _ => faithful_pure _

theorem faithful_procedureBody : Faithful (procedureBody settings) :=
  faithful_rounds _ (fun _ => faithful_procedureRound settings) ()

/-! ### Divisions -/

theorem flat_headerPhraseRound (context : Context) :
    Flat (headerPhraseRound context) := by
  refine flat_bind flat_here fun cursor => flat_ite (flat_pure _) ?_
  exact flat_bind (flat_bumpSignificant _) fun _ => flat_pure _

theorem flat_headerPhrase (context : Context) : Flat (headerPhrase context) := by
  refine flat_bind (flat_nextSignificant _) fun next => ?_
  split
  · refine flat_ite ?_ (flat_pure _)
    exact flat_repeating (fun _ => flat_headerPhraseRound context) ()
  · exact flat_pure _

theorem flat_divisionHeader (division : Division) : Flat (divisionHeader division) := by
  refine flat_bind (flat_bumpSignificant _) fun _ => ?_
  refine flat_bind (flat_eatWord _ _) fun _ => flat_ite ?_ ?_
  · refine flat_bind (flat_headerPhrase _) fun _ => ?_
    exact flat_bind (flat_expectPeriod _ _) fun _ => flat_pure _
  · exact flat_bind (flat_expectPeriod _ _) fun _ => flat_pure _

theorem faithful_divisionBody (division : Division) (header : Option Token) :
    Faithful (divisionBody settings division header) := by
  cases division with
  | identification => exact faithful_identificationBody header
  | environment => exact faithful_bind (faithful_entries _ _) fun _ => faithful_pure _
  | data => exact faithful_bind (faithful_entries _ _) fun _ => faithful_pure _
  | procedure => exact faithful_bind (faithful_procedureBody settings) fun _ => faithful_pure _

theorem faithful_division (division : Division) :
    Faithful (Production.division settings division) :=
  faithful_node _ (faithful_bind (flat_divisionHeader division).faithful
    fun header => faithful_divisionBody settings division header)

/-! ### Program units -/

theorem flat_checkTrailerName (current : Option ProgramIdentity) (name : Option Token) :
    Flat (checkTrailerName current name) := by
  unfold checkTrailerName
  split
  · exact flat_ite (flat_pure _) (flat_report _)
  · exact flat_pure _
  · exact flat_reportHere _

theorem flat_trailer (current : Option ProgramIdentity) : Flat (trailer current) := by
  refine flat_bind (flat_bumpSignificant _) fun _ => flat_bind (flat_eatWord _ _) fun _ => ?_
  refine flat_bind (flat_eatIf _ _) fun name => flat_bind (flat_checkTrailerName _ _) fun _ => ?_
  exact flat_bind (flat_expectPeriod _ _) fun _ => flat_trivia _

theorem flat_checkOrder (seen : List Division) (division : Division) :
    Flat (checkOrder settings seen division) := by
  refine flat_bind (flat_nextSignificant _) fun next => ?_
  split
  · exact flat_pure _
  · split
    · exact flat_report _
    · exact flat_pure _

theorem faithful_unitPart (state : UnitState) : Faithful (unitPart settings state) := by
  refine faithful_bind faithful_here fun cursor => ?_
  split
  · refine faithful_bind (flat_checkOrder settings _ _).faithful fun _ => ?_
    exact faithful_bind (faithful_division settings _) fun _ => faithful_pure _
  · exact faithful_bind (gathered_strayText _).faithful fun _ => faithful_pure _

end Procedure

theorem faithful_closeUnit {cursor : Cursor} (start : Cursor) {parts : Outcome UnitState}
    (h : parts.Faithful cursor) : (closeUnit start parts).Faithful cursor := by
  refine (h.andThen ?_).under _
  split
  · exact faithful_pure _ _
  · exact (flat_reportAt _ _).faithful _

/-- One part of a unit, within the programs that enclose it: a unit nested here, a division, or
stray text. -/
def unitStep (settings : Settings) (enclosing : List ProgramIdentity) (state : UnitState)
    (cursor : Cursor) : Outcome UnitState :=
  if cursor.divisionHeader? = some .identification ∧ state.seen ≠ [] then
    (closeUnit cursor
      (unitRounds settings (state.identity.toList ++ enclosing) .fresh cursor)).withValue state
  else unitPart settings state cursor

section Step

variable (settings : Settings) (enclosing : List ProgramIdentity) {state : UnitState}
  {cursor : Cursor}

theorem unitStep_of_nested
    (nested : cursor.divisionHeader? = some .identification ∧ state.seen ≠ []) :
    unitStep settings enclosing state cursor =
      (closeUnit cursor (unitRounds settings (state.identity.toList ++ enclosing) .fresh
        cursor)).withValue state := if_pos nested

theorem unitStep_of_not_nested
    (other : ¬(cursor.divisionHeader? = some .identification ∧ state.seen ≠ [])) :
    unitStep settings enclosing state cursor = unitPart settings state cursor := if_neg other

end Step

/-- One part of a unit is faithful if the parts of a unit nested here are. -/
theorem faithful_unitStep_of_nested {settings : Settings} {enclosing : List ProgramIdentity}
    {state : UnitState} {cursor : Cursor}
    (h : cursor.divisionHeader? = some .identification ∧ state.seen ≠ [] →
      (unitRounds settings (state.identity.toList ++ enclosing) .fresh cursor).Faithful cursor) :
    (unitStep settings enclosing state cursor).Faithful cursor := by
  unfold unitStep
  split
  · rename_i nested
    exact (faithful_closeUnit cursor (h nested)).withValue state
  · exact faithful_unitPart settings state cursor

/-- The parts of a unit keep the text, nested units included: the induction follows the
recursion of `unitRounds`, through a nested unit as well as on to the next part. -/
theorem faithful_unitRounds (settings : Settings) (enclosing : List ProgramIdentity)
    (state : UnitState) : Faithful (unitRounds settings enclosing state) := by
  intro cursor
  fun_induction unitRounds settings enclosing state cursor with
  | case1 settings enclosing state cursor lead => exact (flat_trivia _ cursor).faithful.withValue _
  | case2 settings enclosing state cursor lead => exact (flat_trivia _ cursor).faithful.withValue _
  | case3 settings enclosing state cursor lead =>
      exact ((flat_trivia _ cursor).faithful.andThen (flat_trailer _ _).faithful).withValue _
  | case4 settings enclosing state cursor lead _ _ part skip round _ _ inner _ rest =>
      have partFaithful : part.Faithful lead.next := faithful_unitStep_of_nested inner
      exact (((flat_trivia _ cursor).faithful.andThen partFaithful).andThen
        (flat_ensureProgress _ _ _).faithful).andThen rest
  | case5 settings enclosing state cursor lead _ _ part skip round _ inner =>
      have partFaithful : part.Faithful lead.next := faithful_unitStep_of_nested inner
      exact (((flat_trivia _ cursor).faithful.andThen partFaithful).andThen
        (flat_ensureProgress _ _ _).faithful).withValue _

theorem faithful_unitStep (settings : Settings) (enclosing : List ProgramIdentity)
    (state : UnitState) : Faithful (unitStep settings enclosing state) :=
  fun cursor => faithful_unitStep_of_nested fun _ => faithful_unitRounds settings _ .fresh cursor

theorem faithful_programUnit (settings : Settings) : Faithful (programUnit settings) :=
  fun cursor => faithful_closeUnit cursor (faithful_unitRounds settings [] .fresh cursor)

theorem faithful_programUnitRound (settings : Settings) :
    Faithful (programUnitRound settings) := by
  refine faithful_trivia_here fun cursor => ?_
  exact faithful_ite (faithful_pure _)
    (faithful_bind (faithful_programUnit settings) fun _ => faithful_pure _)

theorem faithful_programUnits (settings : Settings) : Faithful (programUnits settings) :=
  faithful_rounds _ (fun _ => faithful_programUnitRound settings) ()

end Production

end CobolTree
