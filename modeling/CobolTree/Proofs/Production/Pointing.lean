import CobolTree.Proofs.Production.Progress
import CobolTree.Proofs.Production.Reports
import CobolTree.Proofs.Source.LineTable
import CobolTree.Proofs.Source.Slices

/-!
Where reports point. Every cursor that is reached in the text of a stream stands behind a part of
the text, at the position where that part ends, and every token that is read there is a piece of
the text at its own position. So a diagnostic of a token, and one at a cursor, points into the text
(`Diagnostic.PointsInto`). A production points (`Production.Points`) if all that it reports does,
and what it answers with is fit to be pointed at later on: tokens that are kept for a report, and
the place where a program is declared. Productions that are put together from such productions are
such productions (`points_programUnits`).
-/

namespace CobolTree

/-- The stretch is a slice of the text: it begins and ends at boundaries of its characters. -/
def Text.HasRange (text : Text) (range : Range) : Prop :=
  (text.slice? range.start range.stop).isSome = true

/-- The diagnostic points into the text of a stream: its range and those of all related places are
slices of the text, and its position is that of the beginning of its range. -/
structure Diagnostic.PointsInto (stream : Stream) (diagnostic : Diagnostic) : Prop where
  range : stream.text.HasRange diagnostic.range
  position : diagnostic.position = stream.position diagnostic.range.start
  related : ∀ other ∈ diagnostic.related, stream.text.HasRange other.range

theorem Position.index_zero_advance (text : Text) :
    (zero.advance text).index = text.byteLength := by
  rw [index_advance]
  exact Nat.zero_add _

namespace Stream

/-- The cursor stands in the text, at the position where the text before it ends. -/
def Reaches (stream : Stream) (cursor : Cursor) : Prop :=
  ∃ before, stream.text = before ++ cursor.rest ∧ cursor.position = Position.zero.advance before

/-- The token is a piece of the text, and stands where the text before it ends. -/
def HasToken (stream : Stream) (token : Token) : Prop :=
  ∃ before after, stream.text = before ++ (token.text ++ after) ∧
    token.position = Position.zero.advance before

/-- If there is a token, it is a piece of the text. -/
def MayHave (stream : Stream) (found : Option Token) : Prop :=
  ∀ token ∈ found, stream.HasToken token

/-- If there is a program, it is declared in the text. -/
def Declares (stream : Stream) (identity : Option ProgramIdentity) : Prop :=
  ∀ program ∈ identity, stream.text.HasRange program.declared

variable {stream : Stream} {cursor after : Cursor} {token : Token} {context : Context}

/-- The position where a part of the text ends is known from its byte offset alone. -/
theorem position_index_advance {before rest : Text} (split : stream.text = before ++ rest) :
    stream.position (Position.zero.advance before).index = Position.zero.advance before := by
  rw [Position.index_zero_advance, stream.position_eq split]

theorem reaches_start (stream : Stream) : stream.Reaches (.start stream.text) := ⟨[], rfl, rfl⟩

theorem Reaches.of_next? (h : stream.Reaches cursor)
    (read : cursor.next? context = some (token, after)) :
    stream.HasToken token ∧ stream.Reaches after := by
  obtain ⟨before, split, position⟩ := h
  obtain ⟨here, behind⟩ := Cursor.place_of_next? read
  rw [Cursor.rest_eq_of_next? read] at split
  constructor
  · exact ⟨before, after.rest, split, here.trans position⟩
  · refine ⟨before ++ token.text, by rw [split, List.append_assoc], ?_⟩
    rw [behind, position, Position.advance_append]

theorem Reaches.of_significant? (h : stream.Reaches cursor)
    (read : cursor.significant? context = some (token, after)) : stream.HasToken token := by
  fun_induction Cursor.significant? context cursor with
  | case1 => cases read
  | case2 cursor first behind next shorter trivial ih => exact ih (h.of_next? next).2 read
  | case3 cursor first behind next shorter carries =>
      cases read
      exact (h.of_next? next).1

theorem Reaches.mayHave (h : stream.Reaches cursor) (context : Context) :
    stream.MayHave ((cursor.significant? context).map (·.1)) := by
  intro token mem
  obtain ⟨⟨first, behind⟩, read, rfl⟩ := Option.map_eq_some_iff.mp mem
  exact h.of_significant? read

theorem HasToken.hasRange (h : stream.HasToken token) : stream.text.HasRange token.range := by
  obtain ⟨before, after, split, position⟩ := h
  rw [Text.HasRange, Token.range, position, Position.index_zero_advance, split]
  exact Option.isSome_of_eq_some (Text.slice?_append before token.text after)

theorem MayHave.or {first second : Option Token} (h : stream.MayHave first)
    (k : stream.MayHave second) : stream.MayHave (first.or second) := by
  cases first with
  | none => exact k
  | some token => exact h

theorem Declares.or {identity other : Option ProgramIdentity}
    (h : stream.Declares identity) (k : stream.Declares other) :
    stream.Declares (identity.or other) := by
  cases identity with
  | none => exact k
  | some program => exact h

end Stream

namespace Problem

variable {stream : Stream} {problem : Problem}

/-- The diagnostic of a problem with a token of the text points at the token. -/
theorem pointsInto_ofToken {token : Token} (h : stream.HasToken token)
    (related : ∀ other ∈ problem.related, stream.text.HasRange other.range) :
    (problem.ofToken token).PointsInto stream := by
  refine ⟨h.hasRange, ?_, related⟩
  obtain ⟨before, after, split, position⟩ := h
  change token.position = stream.position token.position.index
  rw [position, stream.position_index_advance split]

/-- Most problems bear on no other place. -/
theorem pointsInto_ofToken_alone {token : Token} (h : stream.HasToken token)
    (alone : problem.related = []) : (problem.ofToken token).PointsInto stream := by
  refine pointsInto_ofToken h ?_
  rw [alone]
  exact List.forall_mem_nil _

/-- The diagnostic of a problem where a cursor stands points at that place. -/
theorem pointsInto_atPosition {cursor : Cursor} (h : stream.Reaches cursor)
    (alone : problem.related = []) :
    (problem.atPosition cursor.position).PointsInto stream := by
  obtain ⟨before, split, position⟩ := h
  have empty := Text.slice?_append before [] cursor.rest
  constructor
  case range =>
    rw [atPosition, within, Text.HasRange, Range.empty, position, Position.index_zero_advance,
      split]
    exact Option.isSome_of_eq_some empty
  case position =>
    change cursor.position = stream.position cursor.position.index
    rw [position, stream.position_index_advance split]
  case related =>
    rw [atPosition, within, alone]
    exact List.forall_mem_nil _

end Problem

/-! ### Productions -/

/-- Whatever the outcome reports points into the text, its value is good, and its cursor stands in
the text. -/
structure Outcome.Points {α : Type} (stream : Stream) (good : α → Prop) (outcome : Outcome α) :
    Prop where
  reports : ∀ diagnostic ∈ outcome.reports, diagnostic.PointsInto stream
  value : good outcome.value
  next : stream.Reaches outcome.next

namespace Outcome.Points

variable {α β : Type} {stream : Stream} {good : α → Prop} {fine : β → Prop} {first : Outcome α}
  {second : Outcome β}

theorem still {value : α} {cursor : Cursor} (reached : stream.Reaches cursor) (h : good value) :
    (Outcome.still value cursor).Points stream good :=
  ⟨List.forall_mem_nil _, h, reached⟩

theorem withValue {value : β} (h : first.Points stream good) (k : fine value) :
    (first.withValue value).Points stream fine := ⟨h.reports, k, h.next⟩

theorem andThen (h : first.Points stream good) (k : second.Points stream fine) :
    (first.andThen second).Points stream fine :=
  ⟨List.forall_mem_append.mpr ⟨h.reports, k.reports⟩, k.value, k.next⟩

theorem under (kind : Kind) (h : first.Points stream good) :
    (first.under kind).Points stream good := ⟨h.reports, h.value, h.next⟩

end Outcome.Points

namespace Production

variable {α β σ : Type} {stream : Stream} {good : α → Prop} {fine : β → Prop}

/-- Read anywhere in the text of the stream, the production points into the text, and its value is
good. -/
def Points (stream : Stream) (good : α → Prop) (production : Production α) : Prop :=
  ∀ cursor, stream.Reaches cursor → (production cursor).Points stream good

/-- Nothing is asked of the value. -/
def Any (_ : α) : Prop := True

/-- The state that a round ends with is good, whether the loop goes on or not. -/
def Ends (good : σ → Prop) : ForInStep σ → Prop
  | .done state => good state
  | .yield state => good state

/-! ### Sequences and loops -/

theorem points_pure {value : α} (h : good value) : Points stream good (pure value) :=
  fun _ reached => .still reached h

theorem points_here : Points stream stream.Reaches here := fun _ reached => .still reached reached

theorem points_bind {first : Production α} {second : α → Production β}
    (h : Points stream good first) (k : ∀ value, good value → Points stream fine (second value)) :
    Points stream fine (first >>= second) := by
  intro cursor reached
  have one := h cursor reached
  exact one.andThen (k _ one.value _ one.next)

theorem points_ite {c : Prop} [Decidable c] {yes no : Production α} (h : Points stream good yes)
    (k : Points stream good no) : Points stream good (if c then yes else no) := by
  split
  · exact h
  · exact k

theorem points_node (kind : Kind) {body : Production α} (h : Points stream good body) :
    Points stream good (node kind body) := fun cursor reached => (h cursor reached).under kind

/-- A loop points if each of its rounds keeps its state good. -/
theorem points_repeating {good : σ → Prop} {round : σ → Production (ForInStep σ)}
    (h : ∀ state, good state → Points stream (Ends good) (round state)) {state : σ}
    (start : good state) : Points stream good (repeating round state) := by
  intro cursor reached
  fun_induction repeating round state cursor with
  | case1 state cursor first final ends =>
      have one := h state start cursor reached
      have last := one.value
      rw [ends] at last
      exact one.withValue last
  | case2 state cursor first next goesOn shorter ih =>
      have one := h state start cursor reached
      have later := one.value
      rw [goesOn] at later
      exact one.andThen (ih later one.next)
  | case3 state cursor first next goesOn same =>
      have one := h state start cursor reached
      have last := one.value
      rw [goesOn] at last
      exact one.withValue last

/-! ### Reports and tokens -/

theorem points_report {diagnostic : Diagnostic} (h : diagnostic.PointsInto stream) :
    Points stream Any (report diagnostic) :=
  fun _ reached => ⟨List.forall_mem_singleton.mpr h, trivial, reached⟩

theorem points_reportHere {problem : Problem} (alone : problem.related = []) :
    Points stream Any (reportHere problem) := by
  intro cursor reached
  unfold reportHere
  split
  · rename_i token after read
    have has := reached.of_significant? read
    exact points_report (Problem.pointsInto_ofToken_alone has alone) _ reached
  · exact points_report (Problem.pointsInto_atPosition reached alone) _ reached

theorem points_reportAt {token : Option Token} (h : stream.MayHave token) {problem : Problem}
    (alone : problem.related = []) : Points stream Any (reportAt token problem) := by
  unfold reportAt
  split
  · rename_i token
    exact points_report (Problem.pointsInto_ofToken_alone (h token rfl) alone)
  · exact points_reportHere alone

theorem related_ofOpaque (text : Text) : (Problem.ofOpaque text).related = [] := by
  unfold Problem.ofOpaque
  split
  · split <;> rfl
  · rfl

theorem points_bump (context : Context) : Points stream stream.MayHave (bump context) := by
  intro cursor reached
  unfold bump
  split
  · exact .still reached nofun
  · rename_i token after read
    obtain ⟨has, behind⟩ := reached.of_next? read
    refine ⟨?_, fun found same => Option.some.inj same ▸ has, behind⟩
    intro diagnostic mem
    by_cases isError : token.kind = .error
    · rw [if_pos isError, List.mem_singleton] at mem
      rw [mem]
      exact Problem.pointsInto_ofToken_alone has (related_ofOpaque token.text)
    · rw [if_neg isError] at mem
      cases mem

theorem points_triviaRound (context : Context) :
    Points stream (Ends Any) (triviaRound context) := by
  refine points_bind points_here fun cursor _ => ?_
  split
  · refine points_ite ?_ (points_pure trivial)
    exact points_bind (points_bump _) fun _ _ => points_pure trivial
  · exact points_pure trivial

theorem points_trivia (context : Context) : Points stream Any (trivia context) :=
  points_repeating (fun _ _ => points_triviaRound context) trivial

theorem points_bumpSignificant (context : Context) :
    Points stream stream.MayHave (bumpSignificant context) :=
  points_bind (points_trivia _) fun _ _ => points_bump _

theorem points_nextSignificant (context : Context) :
    Points stream stream.MayHave (nextSignificant context) :=
  fun _ reached => .still reached (reached.mayHave context)

theorem points_eatIf (context : Context) (test : Token → Bool) :
    Points stream stream.MayHave (eatIf context test) := by
  refine points_bind (points_nextSignificant _) fun next _ => ?_
  split
  · exact points_ite (points_bumpSignificant _) (points_pure nofun)
  · exact points_pure nofun

theorem points_eatWord (context : Context) (word : Text) :
    Points stream stream.MayHave (eatWord context word) := points_eatIf _ _

theorem points_expectPeriod (context : Context) (site : PeriodSite) :
    Points stream stream.MayHave (expectPeriod context site) := by
  refine points_bind (points_eatIf _ _) fun found has => ?_
  split
  · exact points_pure has
  · exact points_bind (points_reportHere rfl) fun _ _ => points_pure nofun

theorem points_ensureProgress (before : Position) (context : Context) :
    Points stream Any (ensureProgress before context) := by
  refine points_bind points_here fun cursor _ => points_ite ?_ (points_pure trivial)
  refine points_bind (points_reportHere rfl) fun _ _ => ?_
  exact points_bind (points_bump _) fun _ _ => points_pure trivial

theorem points_rounds (context : Context) {good : σ → Prop}
    {round : σ → Production (ForInStep σ)}
    (h : ∀ state, good state → Points stream (Ends good) (round state)) {state : σ}
    (start : good state) : Points stream good (rounds context round state) := by
  refine points_repeating (fun state kept => ?_) start
  refine points_bind points_here fun before _ => points_bind (h state kept) fun step ends => ?_
  split
  · exact points_pure ends
  · exact points_bind (points_ensureProgress _ _) fun _ _ => points_pure ends

/-! ### Sentences -/

theorem points_pictureOperand (context : Context) : Points stream Any (pictureOperand context) := by
  refine points_bind (points_eatWord _ _) fun _ _ => ?_
  refine points_bind (points_trivia _) fun _ _ => points_bind points_here fun cursor _ => ?_
  split
  · exact points_ite (points_bind (points_bump _) fun _ _ => points_pure trivial)
      (points_pure trivial)
  · exact points_pure trivial

theorem points_sentenceRound (context : Context) (pictures : Bool) (state : SentenceState) :
    Points stream (Ends Any) (sentenceRound context pictures state) := by
  refine points_bind points_here fun cursor _ => ?_
  split
  · exact points_pure trivial
  · refine points_ite (points_bind (points_bump _) fun _ _ => points_pure trivial) ?_
    refine points_ite (points_pure trivial) (points_bind (points_bump _) fun _ _ => ?_)
    refine points_ite (points_pure trivial) (points_ite ?_ (points_pure trivial))
    exact points_bind (points_pictureOperand _) fun _ _ => points_pure trivial

theorem points_sentence (context : Context) (kind : Kind) (pictures : Bool) :
    Points stream Any (sentence context kind pictures) := by
  have tokens : Points stream Any (repeating (sentenceRound context pictures) .empty) :=
    points_repeating (fun state _ => points_sentenceRound context pictures state) trivial
  refine points_node kind (points_bind tokens fun state _ => ?_)
  exact points_ite (points_reportHere rfl) (points_pure trivial)

theorem points_strayText (context : Context) : Points stream Any (strayText context) :=
  points_bind (points_reportHere rfl) fun _ _ => points_sentence _ _ _

/-- A round that reads one sentence, unless something else begins behind the blanks. -/
theorem points_sentencesRound (context : Context) (stops : Cursor → Bool) (pictures : Bool) :
    Points stream (Ends Any) (do
      trivia context
      if stops (← here) then return .done ()
      else do
        sentence .sentence .sentence pictures
        return .yield ()) := by
  refine points_bind (points_trivia _) fun _ _ => points_bind points_here fun cursor _ => ?_
  exact points_ite (points_pure trivial)
    (points_bind (points_sentence _ _ _) fun _ _ => points_pure trivial)

theorem points_entries (context : Context) (pictures : Bool) :
    Points stream Any (entries context pictures) :=
  points_rounds context (fun _ _ => points_sentencesRound context _ pictures) trivial

/-! ### The IDENTIFICATION DIVISION -/

theorem points_programAttributes (context : Context) :
    Points stream Any (programAttributes context) := by
  refine points_repeating (fun _ _ => points_bind (points_eatIf _ _) fun found _ => ?_) trivial
  split <;> exact points_pure trivial

/-- The program is declared where its name stands. -/
theorem points_programIdParagraph : Points stream stream.Declares programIdParagraph := by
  refine points_node _ (points_bind (points_bumpSignificant _) fun _ _ => ?_)
  refine points_bind (points_expectPeriod _ _) fun _ _ => points_bind points_here fun cursor _ => ?_
  refine points_bind (points_eatIf _ _) fun name has => ?_
  split
  · rename_i token
    refine points_bind (points_programAttributes _) fun _ _ => ?_
    refine points_bind (points_expectPeriod _ _) fun _ _ => points_pure ?_
    rintro program ⟨⟩
    exact (has token rfl).hasRange
  · exact points_bind (points_reportHere rfl) fun _ _ => points_pure nofun

theorem points_commentEntryParagraph : Points stream Any commentEntryParagraph := by
  refine points_node _ (points_bind (points_bumpSignificant _) fun _ _ => ?_)
  refine points_bind (points_expectPeriod _ _) fun _ _ => points_repeating (fun _ _ => ?_) trivial
  refine points_bind points_here fun cursor _ => ?_
  split
  · exact points_pure trivial
  · exact points_ite (points_pure trivial)
      (points_bind (points_bump _) fun _ _ => points_pure trivial)

theorem points_identificationRound {declared : Declared} (h : stream.Declares declared.identity) :
    Points stream (Ends fun declared => stream.Declares declared.identity)
      (identificationRound declared) := by
  refine points_bind (points_trivia _) fun _ _ => points_bind points_here fun cursor _ => ?_
  refine points_ite (points_pure h) (points_ite ?_ (points_ite ?_ ?_))
  · exact points_bind points_programIdParagraph fun _ declares =>
      points_pure (Stream.Declares.or declares h)
  · exact points_bind points_commentEntryParagraph fun _ _ => points_pure h
  · exact points_bind (points_strayText _) fun _ _ => points_pure h

theorem points_identificationBody {header : Option Token} (has : stream.MayHave header) :
    Points stream stream.Declares (identificationBody header) := by
  refine points_bind (points_rounds _ (fun _ => points_identificationRound) nofun)
    fun declared declares => ?_
  refine points_ite (points_pure declares) ?_
  exact points_bind (points_reportAt has rfl) fun _ _ => points_pure declares

/-! ### The PROCEDURE DIVISION -/

section Procedure

variable (settings : Settings)

theorem points_procedureSentences : Points stream Any (procedureSentences settings) :=
  points_rounds _ (fun _ _ => points_sentencesRound _ _ _) trivial

theorem points_sectionHeader : Points stream Any sectionHeader := by
  refine points_bind (points_bumpSignificant _) fun _ _ => ?_
  refine points_bind (points_eatWord _ _) fun _ _ => points_bind (points_eatIf _ _) fun _ _ => ?_
  exact points_bind (points_expectPeriod _ _) fun _ _ => points_pure trivial

theorem points_paragraphHeader : Points stream Any paragraphHeader := by
  refine points_bind (points_bumpSignificant _) fun _ _ => ?_
  exact points_bind (points_expectPeriod _ _) fun _ _ => points_pure trivial

theorem points_procedureSection : Points stream Any (procedureSection settings) :=
  points_node _ (points_bind points_sectionHeader fun _ _ => points_procedureSentences settings)

theorem points_procedureParagraph : Points stream Any (procedureParagraph settings) :=
  points_node _ (points_bind points_paragraphHeader fun _ _ => points_procedureSentences settings)

theorem points_procedureBody : Points stream Any (procedureBody settings) := by
  refine points_rounds _ (fun _ _ => ?_) trivial
  refine points_bind (points_trivia _) fun _ _ => points_bind points_here fun cursor _ => ?_
  refine points_ite (points_pure trivial) (points_ite ?_ (points_ite ?_ ?_))
  · exact points_bind (points_procedureSection settings) fun _ _ => points_pure trivial
  · exact points_bind (points_procedureParagraph settings) fun _ _ => points_pure trivial
  · exact points_bind (points_sentence _ _ _) fun _ _ => points_pure trivial

end Procedure

/-! ### Divisions -/

theorem points_headerPhrase (context : Context) : Points stream Any (headerPhrase context) := by
  refine points_bind (points_nextSignificant _) fun next _ => ?_
  split
  · refine points_ite (points_repeating (fun _ _ => ?_) trivial) (points_pure trivial)
    refine points_bind points_here fun cursor _ => points_ite (points_pure trivial) ?_
    exact points_bind (points_bumpSignificant _) fun _ _ => points_pure trivial
  · exact points_pure trivial

/-- The last token of a header is one of the text. -/
theorem points_divisionHeader (division : Division) :
    Points stream stream.MayHave (divisionHeader division) := by
  refine points_bind (points_bumpSignificant _) fun name first => ?_
  refine points_bind (points_eatWord _ _) fun word second => ?_
  have ending : Points stream stream.MayHave (do
      let period ← expectPeriod division.context (.divisionHeader division)
      return period.or (word.or name)) :=
    points_bind (points_expectPeriod _ _) fun period last =>
      points_pure (Stream.MayHave.or last (.or second first))
  refine points_ite ?_ ending
  exact points_bind (points_headerPhrase _) fun _ _ => ending

theorem points_divisionBody (settings : Settings) (division : Division) {header : Option Token}
    (has : stream.MayHave header) :
    Points stream stream.Declares (divisionBody settings division header) := by
  cases division with
  | identification => exact points_identificationBody has
  | environment => exact points_bind (points_entries _ _) fun _ _ => points_pure nofun
  | data => exact points_bind (points_entries _ _) fun _ _ => points_pure nofun
  | procedure => exact points_bind (points_procedureBody settings) fun _ _ => points_pure nofun

theorem points_division (settings : Settings) (division : Division) :
    Points stream stream.Declares (Production.division settings division) :=
  points_node _ (points_bind (points_divisionHeader division)
    fun _ has => points_divisionBody settings division has)

/-! ### Program units -/

/-- A trailer that names another program points at its own name, and at the declaration. -/
theorem points_checkTrailerName {current : Option ProgramIdentity} {name : Option Token}
    (declares : stream.Declares current) (has : stream.MayHave name) :
    Points stream Any (checkTrailerName current name) := by
  unfold checkTrailerName
  split
  · rename_i token program
    refine points_ite (points_pure trivial) (points_report ?_)
    refine Problem.pointsInto_ofToken (has token rfl) ?_
    exact List.forall_mem_singleton.mpr (declares program rfl)
  · exact points_pure trivial
  · exact points_reportHere rfl

theorem points_trailer {current : Option ProgramIdentity} (declares : stream.Declares current) :
    Points stream Any (trailer current) := by
  refine points_bind (points_bumpSignificant _) fun _ _ => ?_
  refine points_bind (points_eatWord _ _) fun _ _ => ?_
  refine points_bind (points_eatIf _ _) fun name has => ?_
  refine points_bind (points_checkTrailerName declares has) fun _ _ => ?_
  exact points_bind (points_expectPeriod _ _) fun _ _ => points_trivia _

theorem points_checkOrder (settings : Settings) (seen : List Division) (division : Division) :
    Points stream Any (checkOrder settings seen division) := by
  refine points_bind (points_nextSignificant _) fun next has => ?_
  split
  · exact points_pure trivial
  · rename_i token
    split
    · rename_i problem found
      have alone : problem.related = [] := by
        unfold orderProblem? at found
        split at found
        · cases found
          rfl
        · split at found <;> cases found
          rfl
      have points := Problem.pointsInto_ofToken_alone (has token rfl) alone
      exact points_report ⟨points.range, points.position, points.related⟩
    · exact points_pure trivial

/-- The program of the unit is declared in the text. -/
def DeclaredIn (stream : Stream) (state : UnitState) : Prop := stream.Declares state.identity

theorem declaredIn_fresh (stream : Stream) : DeclaredIn stream .fresh := by
  intro program mem
  cases mem

theorem points_unitPart (settings : Settings) {state : UnitState} (h : DeclaredIn stream state) :
    Points stream (DeclaredIn stream) (unitPart settings state) := by
  refine points_bind points_here fun cursor _ => ?_
  split
  · refine points_bind (points_checkOrder settings _ _) fun _ _ => ?_
    exact points_bind (points_division settings _) fun _ declares =>
      points_pure (Stream.Declares.or declares h)
  · exact points_bind (points_strayText _) fun _ _ => points_pure h

theorem points_closeUnit {start : Cursor} (reached : stream.Reaches start)
    {parts : Outcome UnitState} (h : parts.Points stream (DeclaredIn stream)) :
    (closeUnit start parts).Points stream Any := by
  refine (h.andThen ?_).under _
  split
  · exact points_pure trivial _ h.next
  · exact points_reportAt (reached.mayHave _) rfl _ h.next

/-- The parts of a unit point into the text, those of nested units included. -/
theorem points_unitRounds (settings : Settings) (enclosing : List ProgramIdentity)
    {state : UnitState} (h : DeclaredIn stream state) :
    Points stream (DeclaredIn stream) (unitRounds settings enclosing state) := by
  intro cursor reached
  refine unitRounds_induction_within settings enclosing (motive := fun _ state cursor outcome =>
    DeclaredIn stream state → stream.Reaches cursor → outcome.Points stream (DeclaredIn stream))
    ?ends ?leaves ?closes ?goesOn state cursor h reached
  case ends =>
    intro _ state cursor lead _ h reached
    exact (points_trivia _ cursor reached).withValue h
  case leaves =>
    intro _ state cursor lead _ _ h reached
    exact (points_trivia _ cursor reached).withValue h
  case closes =>
    intro _ state cursor lead _ _ h reached
    have blanks := points_trivia .programUnit cursor reached
    exact (blanks.andThen (points_trailer h _ blanks.next)).withValue h
  case goesOn =>
    intro enclosing state cursor lead part rest _ _ nested later h reached
    have blanks := points_trivia .programUnit cursor reached
    have here : part.Points stream (DeclaredIn stream) := by
      by_cases inner : lead.next.divisionHeader? = some .identification ∧ state.seen ≠ []
      · have unit := nested (state.identity.toList ++ enclosing) inner.2 (declaredIn_fresh stream)
          blanks.next
        simp only [part, unitStep_of_nested settings enclosing inner]
        exact (points_closeUnit blanks.next unit).withValue h
      · simp only [part, unitStep_of_not_nested settings enclosing inner]
        exact points_unitPart settings h _ blanks.next
    exact (blanks.andThen here).andThen (later here.value here.next)

theorem points_programUnit (settings : Settings) : Points stream Any (programUnit settings) :=
  fun cursor reached => points_closeUnit reached
    (points_unitRounds settings [] (declaredIn_fresh stream) cursor reached)

/-- Whatever is reported of the text of a stream points into it. -/
theorem points_programUnits (settings : Settings) : Points stream Any (programUnits settings) := by
  refine points_rounds _ (fun _ _ => ?_) trivial
  refine points_bind (points_trivia _) fun _ _ => points_bind points_here fun cursor _ => ?_
  exact points_ite (points_pure trivial)
    (points_bind (points_programUnit settings) fun _ _ => points_pure trivial)

end Production

end CobolTree
