import CobolTree.Proofs.Production.Diagnosis

/-!
A parse is clean exactly when the program is well-formed (`diagnostics_eq_nil_iff`). The parts of a
unit are read one after another, and what they tell depends on what stands before them: a division
is reported when it is out of order, and a trailer when it does not repeat the name that the unit
has by then. `UnitSpec` says what parts tell in a given state of their unit; it is closed under
putting parts behind each other (`UnitSpec.andThen`), and a unit is regular exactly when the parts
tell that they are and one of them is an IDENTIFICATION DIVISION (`tells_closeUnit`).
-/

namespace CobolTree

namespace SourceTree

/-! ### Order and names -/

theorem inOrder_append_single {seen : List Division} {division : Division} :
    InOrder (seen ++ [division]) ↔ InOrder seen ∧ ∀ other ∈ seen, other.rank < division.rank := by
  simp [InOrder, List.pairwise_append]

theorem InOrder.of_append {s t : List Division} (h : InOrder (s ++ t)) : InOrder s :=
  (List.pairwise_append.mp h).1

/-- Divisions in order begin with the IDENTIFICATION DIVISION if it is one of them, and have no
other. -/
theorem InOrder.identification {divisions : List Division} (ordered : InOrder divisions)
    (mem : .identification ∈ divisions) :
    divisions.count .identification = 1 ∧ divisions.head? = some .identification := by
  cases divisions with
  | nil => cases mem
  | cons first rest =>
      obtain ⟨behind, -⟩ := List.pairwise_cons.mp ordered
      have absent : .identification ∉ rest := by
        intro inside
        exact absurd (behind _ inside) (Nat.not_lt_zero _)
      have same : first = .identification := by
        rcases List.mem_cons.mp mem with same | inside
        · exact same.symm
        · exact absurd inside absent
      subst same
      exact ⟨by rw [List.count_cons_self, List.count_eq_zero.mpr absent], rfl⟩

/-- The trailer of a unit, if there is one, has a name and a period, and does not contradict the
name that the unit has, if it has one. -/
def TrailerAgrees (declared : Option Text) (lexemes : List Lexeme) : Prop :=
  lexemes ≠ [] → ∃ name, ReadsTrailer name lexemes ∧
    ∀ text ∈ declared, Text.sameWord (programName name.text) text = true

theorem trailerAgrees_nil (declared : Option Text) : TrailerAgrees declared [] :=
  fun some => absurd rfl some

/-- END PROGRAM agrees with the name of a unit when a name that does and a period follow. -/
theorem trailerAgrees_iff {first second : Lexeme} {name period : Option Lexeme}
    (isEnd : first.isWord "END".toList = true) (isProgram : second.isWord "PROGRAM".toList = true)
    (isName : ∀ lexeme ∈ name, lexeme.IsName) (isPeriod : ∀ lexeme ∈ period, lexeme.kind = .dot)
    (declared : Option Text) :
    TrailerAgrees declared (first :: second :: (name.toList ++ period.toList)) ↔
      (∃ lexeme ∈ name, ∀ text ∈ declared, Text.sameWord (programName lexeme.text) text = true) ∧
        period.isSome = true := by
  constructor
  · intro agrees
    obtain ⟨lexeme, ⟨f, s, p, same, -⟩, alike⟩ := agrees (List.cons_ne_nil _ _)
    have lengths := congrArg List.length same
    cases name with
    | none => cases period <;> simp at lengths
    | some name =>
        cases period with
        | none => simp at lengths
        | some period =>
            simp only [Option.toList_some, List.singleton_append, List.cons.injEq] at same
            obtain ⟨-, -, rfl, -⟩ := same
            exact ⟨⟨name, rfl, alike⟩, rfl⟩
  · rintro ⟨⟨lexeme, named, alike⟩, some⟩ -
    obtain ⟨period, rfl⟩ := Option.isSome_iff_exists.mp some
    obtain rfl := Option.mem_def.mp named
    exact ⟨lexeme, ⟨first, second, period, rfl, isEnd, isProgram, isName _ rfl, isPeriod _ rfl⟩,
      alike⟩

/-- What agrees with a name that is declared repeats it. -/
theorem trailerAgrees_some {declared : Option Text} (some : declared.isSome = true)
    {lexemes : List Lexeme} :
    TrailerAgrees declared lexemes ↔ (lexemes ≠ [] → RepeatsName declared lexemes) := by
  obtain ⟨text, rfl⟩ := Option.isSome_iff_exists.mp some
  simp [TrailerAgrees, RepeatsName]

end SourceTree

namespace Production

open SourceTree

variable {α : Type}

/-! ### Trailers -/

/-- A trailer without a name is reported, and so is one with another name than the unit has. -/
theorem quietWhen_checkTrailerName (current : Option ProgramIdentity) (name : Option Token)
    (cursor : Cursor) :
    (checkTrailerName current name cursor).QuietWhen
      (∃ lexeme ∈ name.map (·.toLexeme), ∀ text ∈ current.map (·.name),
        Text.sameWord (programName lexeme.text) text = true) := by
  cases name with
  | none => exact (quietWhen_reportHere .noEndProgramName cursor).congr (by simp)
  | some token =>
      cases current with
      | none => exact (Outcome.QuietWhen.still () cursor).congr (by simp)
      | some program =>
          by_cases same : Text.sameWord (programName token.text) program.name = true
          · have quiet :
                checkTrailerName (some program) (some token) cursor = .still () cursor := by
              simp [checkTrailerName, same]
            rw [quiet]
            exact (Outcome.QuietWhen.still () cursor).congr (by simp [same])
          · simp [Outcome.QuietWhen, checkTrailerName, same, report]

/-- A trailer tells whether it agrees with the name that the unit has. -/
theorem quietWhen_trailer {cursor : Cursor} (current : Option ProgramIdentity)
    (h : cursor.atEndProgram = true) :
    (trailer current cursor).QuietWhen
      (TrailerAgrees (current.map (·.name)) (trailer current cursor).significant) := by
  obtain ⟨first, second, isEnd, isProgram, reads⟩ := significant_trailer current h
  have reads : (trailer current cursor).significant = _ := reads
  rw [reads, trailerAgrees_iff isEnd isProgram isName_of_eatIf isPeriod_of_expectPeriod]
  refine ((quiet_bumpSignificant _ _).andThen ((quiet_eatWord _ _ _).andThen
    ((quiet_eatIf _ _ _).andThen ((quietWhen_checkTrailerName _ _ _).andThen
      ((quietWhen_expectPeriod _ _ _).andThen (quiet_trivia _ _)))))).congr ?_
  simp

/-! ### The order of divisions -/

theorem orderProblem?_eq_none_iff {seen : List Division} {division : Division} :
    orderProblem? seen division = none ↔ ∀ other ∈ seen, other.rank < division.rank := by
  unfold orderProblem?
  constructor
  · intro none other mem
    have absent : ¬seen.contains division = true := by
      intro twice
      rw [if_pos twice] at none
      cases none
    rw [if_neg absent] at none
    have ordered : ¬seen.any (division.rank < ·.rank) = true := by
      intro late
      rw [if_pos late] at none
      cases none
    have before : ¬division.rank < other.rank := by
      intro late
      exact ordered (List.any_eq_true.mpr ⟨other, mem, by simpa using late⟩)
    have differs : other.rank ≠ division.rank := by
      intro same
      rw [Division.rank_injective same] at mem
      exact absent (by simpa using mem)
    omega
  · intro before
    have absent : ¬seen.contains division = true := by
      intro twice
      exact Nat.lt_irrefl _ (before division (by simpa using twice))
    have ordered : ¬seen.any (division.rank < ·.rank) = true := by
      intro late
      obtain ⟨other, mem, later⟩ := List.any_eq_true.mp late
      have := before other mem
      simp only [decide_eq_true_eq] at later
      omega
    rw [if_neg absent, if_neg ordered]

/-- A division is reported exactly when it does not stand behind all others in the mandated
order. -/
theorem reports_checkOrder (settings : Settings) (seen : List Division) {division : Division}
    {cursor : Cursor} (h : cursor.divisionHeader? = some division) :
    (checkOrder settings seen division cursor).reports = [] ↔
      ∀ other ∈ seen, other.rank < division.rank := by
  obtain ⟨name, word, ahead, -⟩ := Cursor.divisionHeader?_eq_some_iff.mp h
  obtain ⟨middle, after, first, -⟩ := Cursor.ahead_two_eq_iff.mp ahead
  rw [← orderProblem?_eq_none_iff]
  unfold checkOrder
  simp only [bind_apply, nextSignificant, Outcome.still_andThen, Outcome.value_still,
    Outcome.next_still, first, Option.map_some]
  cases orderProblem? seen division with
  | none => simp
  | some problem => simp [report]

/-! ### Parts of a unit -/

/-- What parts of a unit tell, where the unit has come to a state: whether they are regular, the
divisions of the unit are in order, and its trailer agrees with its name. Behind them, the unit has
seen their divisions, and goes by their name. -/
structure UnitSpec (state : UnitState) (outcome : Outcome UnitState) : Prop where
  seen : outcome.value.seen = state.seen ++ divisionsOf outcome.trees
  named : RegularAll outcome.trees →
    outcome.value.identity.map (·.name) =
      nameBehind (state.identity.map (·.name)) (programIdsOf outcome.trees)
  tells : InOrder state.seen → (outcome.reports = [] ↔
    RegularAll outcome.trees ∧ InOrder outcome.value.seen ∧
      TrailerAgrees (nameBehind (state.identity.map (·.name)) (programIdsOf outcome.trees))
        (ownLexemesOf outcome.trees))

namespace UnitSpec

variable {state : UnitState} {first : Outcome UnitState} {second : Outcome UnitState}

/-- Parts without divisions and trailers leave the unit as it is. -/
theorem of_tells {outcome : Outcome α} (tells : outcome.Tells)
    (divisions : divisionsOf outcome.trees = []) (names : programIdsOf outcome.trees = [])
    (own : ownLexemesOf outcome.trees = []) (state : UnitState) :
    UnitSpec state (outcome.withValue state) where
  seen := by simp [divisions]
  named := by simp [names, nameBehind]
  tells := by
    intro ordered
    unfold Outcome.Tells at tells
    simp [tells, ordered, own, trailerAgrees_nil]

/-- Parts without a trailer before other parts. -/
theorem andThen (h : UnitSpec state first) (k : UnitSpec first.value second)
    (own : ownLexemesOf first.trees = []) : UnitSpec state (first.andThen second) where
  seen := by
    rw [Outcome.value_andThen, k.seen, h.seen, Outcome.trees_andThen, divisionsOf_append,
      List.append_assoc]
  named := by
    intro regular
    rw [Outcome.trees_andThen, regularAll_append] at regular
    rw [Outcome.value_andThen, k.named regular.2, h.named regular.1, Outcome.trees_andThen,
      programIdsOf_append, nameBehind_append]
  tells := by
    intro ordered
    have first_ := h.tells ordered
    rw [own] at first_
    rw [Outcome.reports_andThen, List.append_eq_nil_iff, Outcome.trees_andThen, regularAll_append,
      Outcome.value_andThen, programIdsOf_append, nameBehind_append, ownLexemesOf_append, own,
      List.nil_append]
    constructor
    · rintro ⟨none, others⟩
      obtain ⟨regular, inOrder, -⟩ := first_.mp none
      obtain ⟨rest, later, agrees⟩ := (k.tells inOrder).mp others
      rw [h.named regular] at agrees
      exact ⟨⟨regular, rest⟩, later, agrees⟩
    · rintro ⟨⟨regular, rest⟩, later, agrees⟩
      have inOrder : InOrder first.value.seen := (k.seen ▸ later).of_append
      rw [← h.named regular] at agrees
      exact ⟨first_.mpr ⟨regular, inOrder, trailerAgrees_nil _⟩,
        (k.tells inOrder).mpr ⟨rest, later, agrees⟩⟩

end UnitSpec

section Units

variable (settings : Settings)

theorem unitSpec_trivia (state : UnitState) (cursor : Cursor) :
    UnitSpec state ((trivia .programUnit cursor).withValue state) := by
  have flat := (flat_trivia .programUnit cursor).trees
  refine .of_tells (tells_trivia _ cursor) ?_ ?_ ?_ state
  · rw [flat, divisionsOf_row]
  · rw [flat, programIdsOf_row]
  · rw [flat, ownLexemesOf_row]
    exact significant_trivia _ _

/-- A unit goes on behind a trailer with what its name is then. -/
theorem unitSpec_trailer (state : UnitState) {cursor : Cursor} (h : cursor.atEndProgram = true) :
    UnitSpec state ((trailer state.identity cursor).withValue state) := by
  have flat := (flat_trailer state.identity cursor).trees
  have quiet := quietWhen_trailer state.identity h
  have own : ownLexemesOf (trailer state.identity cursor).trees =
      (trailer state.identity cursor).significant := by
    rw [flat, ownLexemesOf_row]
    rfl
  have names : programIdsOf (trailer state.identity cursor).trees = [] := by
    rw [flat, programIdsOf_row]
  refine ⟨?_, ?_, ?_⟩
  · simp [flat]
  · simp [names, nameBehind]
  · intro ordered
    unfold Outcome.QuietWhen at quiet
    rw [Outcome.reports_withValue, Outcome.trees_withValue, quiet, own, names, flat,
      regularAll_row]
    simp [ordered, nameBehind, Outcome.NoErrorTokens, Token.lexemes]

/-- A division is regular and in order exactly when nothing about it is reported. -/
theorem unitSpec_division (state : UnitState) {found : Division} {cursor : Cursor}
    (h : cursor.divisionHeader? = some found) :
    UnitSpec state (unitPart settings state cursor) := by
  have order := reports_checkOrder settings state.seen h
  have tells := tells_division settings h
  have named := named_division settings found cursor
  have trees : (division settings found cursor).trees = _ :=
    trees_headed found.kind (flat_divisionHeader found) (divisionBody settings found) cursor
  have divisions : divisionsOf (division settings found cursor).trees = [found] := by
    rw [trees, divisionsOf_node, Division.ofKind?_eq_some_iff.mpr rfl]
    rfl
  have own : ownLexemesOf (division settings found cursor).trees = [] := by
    rw [trees, ownLexemesOf_node]
  have same : (unitPart settings state cursor).trees = (division settings found cursor).trees := by
    rw [unitPart_of_header settings state h, Outcome.trees_withValue, Outcome.trees_andThen,
      (trees_checkOrder settings _ _ _).1, List.nil_append]
  refine ⟨?_, ?_, ?_⟩
  · rw [same, divisions, unitPart_of_header settings state h]
    rfl
  · intro regular
    rw [same] at regular ⊢
    rw [unitPart_of_header settings state h]
    exact named regular state.identity
  · intro ordered
    unfold Outcome.Tells at tells
    rw [same, own, unitPart_of_header settings state h]
    simp only [Outcome.reports_withValue, Outcome.reports_andThen, Outcome.value_withValue,
      List.append_eq_nil_iff, order, tells, inOrder_append_single, ordered, trailerAgrees_nil]
    simp [and_comm]

/-- A unit tells whether it is regular if its parts do. -/
theorem tells_closeUnit (start : Cursor) {parts : Outcome UnitState}
    (h : UnitSpec .fresh parts) : (closeUnit start parts).Tells := by
  have seen : parts.value.seen = divisionsOf parts.trees := h.seen
  have told := h.tells List.Pairwise.nil
  have regular (all : RegularAll parts.trees) : RegularUnit parts.trees ↔
      InOrder (divisionsOf parts.trees) ∧
        TrailerAgrees (unitName? parts.trees) (ownLexemesOf parts.trees) ∧
          .identification ∈ divisionsOf parts.trees := by
    constructor
    · rintro ⟨identified, -, ordered, repeats⟩
      have mem : .identification ∈ divisionsOf parts.trees := by
        rw [← List.count_pos_iff, identified]
        exact Nat.one_pos
      exact ⟨ordered, (trailerAgrees_some (isSome_unitName? all mem)).mpr repeats, mem⟩
    · rintro ⟨ordered, agrees, mem⟩
      obtain ⟨identified, first⟩ := ordered.identification mem
      exact ⟨identified, first, ordered, (trailerAgrees_some (isSome_unitName? all mem)).mp agrees⟩
  have ending : (closeUnit start parts).reports = [] ↔
      parts.reports = [] ∧ .identification ∈ divisionsOf parts.trees := by
    rw [← seen]
    unfold closeUnit
    split
    · rename_i contains
      simpa using fun _ => contains
    · rename_i missing
      have absent : .identification ∉ parts.value.seen := by simpa using missing
      simp [reports_reportAt_ne_nil, absent]
  unfold Outcome.Tells
  rw [ending, told, trees_closeUnit, regularAll_node, seen]
  constructor
  · rintro ⟨⟨all, ordered, agrees⟩, mem⟩
    exact ⟨(regular all).mpr ⟨ordered, agrees, mem⟩, all⟩
  · rintro ⟨unit, all⟩
    obtain ⟨ordered, agrees, mem⟩ := (regular all).mp unit
    exact ⟨⟨all, ordered, agrees⟩, mem⟩

/-- A part of a unit: a nested unit, a division, or stray text. -/
theorem unitSpec_unitStep (enclosing : List ProgramIdentity) (state : UnitState) {cursor : Cursor}
    (nested : ∀ inner, state.seen ≠ [] →
      UnitSpec .fresh (unitRounds settings inner .fresh cursor)) :
    UnitSpec state (unitStep settings enclosing state cursor) := by
  by_cases inside : cursor.divisionHeader? = some .identification ∧ state.seen ≠ []
  · rw [unitStep_of_nested settings enclosing inside]
    refine .of_tells (tells_closeUnit cursor (nested _ inside.2)) ?_ ?_ ?_ state
    · rw [trees_closeUnit, divisionsOf_node]
      rfl
    · rw [trees_closeUnit, programIdsOf_node _ (by decide)]
    · rw [trees_closeUnit, ownLexemesOf_node]
  · rw [unitStep_of_not_nested settings enclosing inside]
    cases header : cursor.divisionHeader? with
    | some found => exact unitSpec_division settings state header
    | none =>
        have trees := (gathered_strayText .programUnit cursor).trees
        rw [unitPart_of_stray settings state header]
        refine .of_tells (tells_strayText _ cursor) ?_ ?_ ?_ state
        · rw [trees, divisionsOf_node]
          rfl
        · rw [trees, programIdsOf_node _ (by decide)]
        · rw [trees, ownLexemesOf_node]

/-- No part of a unit but its trailer has tokens of its own in the unit. -/
theorem ownLexemesOf_unitStep (enclosing : List ProgramIdentity) (state : UnitState)
    (cursor : Cursor) : ownLexemesOf (unitStep settings enclosing state cursor).trees = [] := by
  obtain ⟨kind, children, trees⟩ := trees_unitStep settings enclosing state cursor
  rw [trees, ownLexemesOf_node]

/-- The parts of a unit tell whether they are regular, in whatever state the unit is: the induction
goes into a nested unit as well as on to the next part. -/
theorem unitSpec_unitRounds (enclosing : List ProgramIdentity) (state : UnitState)
    (cursor : Cursor) : UnitSpec state (unitRounds settings enclosing state cursor) := by
  have own (cursor : Cursor) : ownLexemesOf (trivia .programUnit cursor).trees = [] := by
    rw [(flat_trivia .programUnit cursor).trees, ownLexemesOf_row]
    exact significant_trivia _ _
  refine unitRounds_induction settings enclosing
    (motive := fun state _ outcome => UnitSpec state outcome) ?ends ?closes ?goesOn state cursor
  case ends => exact unitSpec_trivia
  case closes =>
    intro state cursor lead closing
    exact (unitSpec_trivia state cursor).andThen (unitSpec_trailer state closing) (own cursor)
  case goesOn =>
    intro enclosing state cursor outcome lead part _ _ nested later
    refine UnitSpec.andThen ?_ later ?_
    · exact (unitSpec_trivia state cursor).andThen
        (unitSpec_unitStep settings enclosing state nested) (own cursor)
    · rw [Outcome.trees_andThen, ownLexemesOf_append, own, ownLexemesOf_unitStep]
      rfl

theorem tells_programUnits (cursor : Cursor) : (programUnits settings cursor).Tells := by
  rw [programUnits, rounds_eq_repeating .programUnit (fun _ => faithful_programUnitRound settings)
    (advances_programUnitRound settings)]
  refine tells_repeating (fun _ cursor => ?_) () cursor
  rw [programUnitRound_apply]
  refine (tells_trivia .programUnit cursor).andThen ?_
  split
  · exact Outcome.tells_still _ _
  · exact (tells_closeUnit _ (unitSpec_unitRounds settings [] .fresh _)).withValue _

end Units

end Production

namespace Parsed

/-- Where no diagnostics are left out, a parse has none exactly when its tree is well-formed. -/
theorem diagnostics_eq_nil_iff (settings : Settings) (text : Text)
    (uncapped : settings.maxDiagnostics = none) :
    (ofText settings text).diagnostics = [] ↔ (ofText settings text).tree.WellFormed := by
  have tells := Production.tells_programUnits settings (Cursor.start text)
  unfold Outcome.Tells at tells
  simp only [ofText, uncapped, keep]
  rw [tells, SourceTree.wellFormed_sourceUnit]

/-- The standard settings leave no diagnostics out. -/
theorem diagnostics_eq_nil_iff_standard :
    Settings.standard.maxDiagnostics = none ∧
      ((ofText .standard "ID DIVISION. PROGRAM-ID. A.".toList).diagnostics = [] ↔
        (ofText .standard "ID DIVISION. PROGRAM-ID. A.".toList).tree.WellFormed) :=
  ⟨rfl, diagnostics_eq_nil_iff .standard _ rfl⟩

end Parsed

end CobolTree
