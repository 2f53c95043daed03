import CobolTree.Proofs.Lossless
import CobolTree.Proofs.Production.Local
import CobolTree.Proofs.Production.Lockstep
import Mathlib.Data.List.Induction

/-!
Settings about reports never change the parse. How grave a division out of order is, and how many
diagnostics are kept, has no part in what productions build and consume: runs under settings with
the same statement verbs go through the same states, and their reports differ only in how grave
those about the order of divisions are (`programUnits_regrade`). Diagnostics can be left out as they
come or once all are there (`Parsed.keep_eq_foldl`).
-/

namespace CobolTree

/-- The diagnostic with another severity, if it is about the order of divisions. -/
def Diagnostic.regrade (severity : Severity) (diagnostic : Diagnostic) : Diagnostic :=
  if diagnostic.code = .divisionOrder ∨ diagnostic.code = .duplicateDivision then
    diagnostic.withSeverity severity
  else diagnostic

theorem Diagnostic.IsLocal.regrade {diagnostic : Diagnostic} (h : diagnostic.IsLocal)
    (severity : Severity) : diagnostic.regrade severity = diagnostic := by
  obtain ⟨order, duplicate, -⟩ := h.code_ne
  exact if_neg (by simp [order, duplicate])

namespace Outcome

variable {α β : Type}

/-- The outcome with another severity for reports about the order of divisions. -/
def regrade (severity : Severity) (outcome : Outcome α) : Outcome α :=
  { outcome with reports := outcome.reports.map (Diagnostic.regrade severity) }

section Fields

variable (severity : Severity) (first : Outcome α) (second : Outcome β)

@[simp] theorem value_regrade : (first.regrade severity).value = first.value := rfl
@[simp] theorem trees_regrade : (first.regrade severity).trees = first.trees := rfl
@[simp] theorem tokens_regrade : (first.regrade severity).tokens = first.tokens := rfl
@[simp] theorem next_regrade : (first.regrade severity).next = first.next := rfl
@[simp] theorem reports_regrade :
    (first.regrade severity).reports = first.reports.map (Diagnostic.regrade severity) := rfl

theorem regrade_withValue (value : β) :
    (first.withValue value).regrade severity = (first.regrade severity).withValue value := rfl

theorem regrade_under (kind : Kind) :
    (first.under kind).regrade severity = (first.regrade severity).under kind := rfl

theorem regrade_andThen :
    (first.andThen second).regrade severity =
      (first.regrade severity).andThen (second.regrade severity) := by
  simp [regrade, andThen]

/-- What is graded by itself stays as it is. -/
theorem regrade_of_forall {outcome : Outcome α}
    (h : ∀ diagnostic ∈ outcome.reports, diagnostic.regrade severity = diagnostic) :
    outcome.regrade severity = outcome := by
  rw [regrade, List.map_congr_left h, List.map_id']

theorem Local.regrade {outcome : Outcome α} (h : outcome.Local) :
    outcome.regrade severity = outcome :=
  regrade_of_forall severity fun diagnostic mem => (h diagnostic mem).regrade severity

/-- What a report is graded has no part in what is read. -/
theorem lockstep_regrade :
    Lockstep fun _ first second => second = first.regrade severity where
  value h := by rw [h, value_regrade]
  next h := by rw [h, next_regrade]
  withValue value h := by rw [h, regrade_withValue]
  andThen h k := by rw [h, k, regrade_andThen]

end Fields

end Outcome

namespace Production

variable {settings other : Settings} (same : settings.statementVerbs = other.statementVerbs)

/-! ### What the settings are read for -/

include same in
theorem atParagraphHeader_congr :
    Cursor.atParagraphHeader other = Cursor.atParagraphHeader settings := by
  funext cursor
  simp only [Cursor.atParagraphHeader, Settings.isStatementVerb, same]

include same in
/-- A division asks the settings for statement verbs only. -/
theorem division_congr (found : Division) : division other found = division settings found := by
  have headers := atParagraphHeader_congr same
  have sentences : procedureSentences other = procedureSentences settings := by
    simp only [procedureSentences, procedureSentenceRound, headers]
  have body : procedureBody other = procedureBody settings := by
    simp only [procedureBody, procedureRound, procedureSection, procedureParagraph, headers,
      sentences]
  have bodies : divisionBody other found = divisionBody settings found := by
    funext header
    cases found with
    | procedure => simp only [divisionBody, body]
    | _ => rfl
  simp only [division, bodies]

theorem checkOrder_regrade (settings other : Settings) (seen : List Division)
    (division : Division) (cursor : Cursor) :
    checkOrder other seen division cursor =
      (checkOrder settings seen division cursor).regrade other.orderSeverity := by
  simp only [checkOrder, bind_apply, nextSignificant, Outcome.still_andThen, Outcome.value_still,
    Outcome.next_still]
  cases (cursor.significant? .programUnit).map (·.1) with
  | none => rfl
  | some token =>
      simp only [orderProblem?]
      split
      · rfl
      · split <;> rfl

theorem trailer_regrade (severity : Severity) (current : Option ProgramIdentity)
    (cursor : Cursor) :
    (trailer current cursor).regrade severity = trailer current cursor := by
  apply Outcome.regrade_of_forall
  intro diagnostic mem
  rcases (mem_reports_trailer current cursor).1 mem with isLocal | ⟨token, -, program, -, -, rfl⟩
  · exact isLocal.regrade severity
  · rfl

/-! ### Runs under other settings -/

include same in
theorem unitPart_regrade (state : UnitState) (cursor : Cursor) :
    unitPart other state cursor =
      (unitPart settings state cursor).regrade other.orderSeverity := by
  cases header : cursor.divisionHeader? with
  | some found =>
      have order := checkOrder_regrade settings other state.seen found cursor
      have unchanged := (local_division settings found cursor).regrade other.orderSeverity
      rw [unitPart_of_header other state header, unitPart_of_header settings state header, order,
        division_congr same, Outcome.regrade_withValue, Outcome.regrade_andThen, unchanged]
  | none =>
      have unchanged := (local_strayText .programUnit cursor).regrade other.orderSeverity
      rw [unitPart_of_stray other state header, unitPart_of_stray settings state header,
        Outcome.regrade_withValue, unchanged]

theorem closeUnit_regrade (severity : Severity) (start : Cursor) (parts : Outcome UnitState) :
    closeUnit start (parts.regrade severity) = (closeUnit start parts).regrade severity := by
  have ending (found : Bool) (token : Option Token) (cursor : Cursor) :
      ((if found then pure () else reportAt token .noIdentificationDivision : Production Unit)
        cursor).regrade severity =
      (if found then pure () else reportAt token .noIdentificationDivision : Production Unit)
        cursor :=
    Outcome.Local.regrade severity (local_ite (local_pure _) (local_reportAt _ rfl) cursor)
  simp only [closeUnit, Outcome.regrade_under, Outcome.regrade_andThen, ending]
  rfl

include same in
/-- Each step of a run is the same under both settings but for the severity of its reports. -/
theorem stepsRelated_regrade :
    StepsRelated (fun _ first second => second = first.regrade other.orderSeverity) settings
      other where
  blanks cursor := ((local_trivia .programUnit cursor).regrade other.orderSeverity).symm
  trailer current cursor := (trailer_regrade other.orderSeverity current cursor).symm
  part := unitPart_regrade same
  unit start parts others h := by rw [h, closeUnit_regrade]

include same in
theorem programUnits_regrade (cursor : Cursor) :
    programUnits other cursor = (programUnits settings cursor).regrade other.orderSeverity :=
  (Outcome.lockstep_regrade other.orderSeverity).programUnits (stepsRelated_regrade same) cursor

include same in
/-- Runs under settings that agree on how grave a division out of order is are the same. -/
theorem programUnits_congr (grave : settings.orderSeverity = other.orderSeverity)
    (cursor : Cursor) : programUnits other cursor = programUnits settings cursor := by
  have runs := programUnits_regrade same cursor
  have itself := programUnits_regrade (rfl : settings.statementVerbs = settings.statementVerbs)
    cursor
  rw [runs, ← grave]
  exact itself.symm

end Production

/-! ### How grave reports are -/

/-- Each report is an error, or as grave as the settings rate a division out of order. -/
def Outcome.Graded {α : Type} (settings : Settings) (outcome : Outcome α) : Prop :=
  ∀ diagnostic ∈ outcome.reports,
    diagnostic.isError = true ∨ diagnostic.severity = settings.orderSeverity

namespace Outcome

variable {α β : Type} {first : Outcome α} {second : Outcome β}

theorem Local.graded (settings : Settings) (h : first.Local) : first.Graded settings :=
  fun diagnostic mem => .inl (h diagnostic mem).isError

theorem Graded.andThen {settings : Settings} (h : first.Graded settings)
    (k : second.Graded settings) : (first.andThen second).Graded settings :=
  List.forall_mem_append.mpr ⟨h, k⟩

end Outcome

namespace Production

variable (settings : Settings)

theorem graded_checkOrder (seen : List Division) (division : Division) (cursor : Cursor) :
    (checkOrder settings seen division cursor).Graded settings := by
  simp only [checkOrder, bind_apply, nextSignificant, Outcome.still_andThen, Outcome.value_still,
    Outcome.next_still]
  cases (cursor.significant? .programUnit).map (·.1) with
  | none => exact (Outcome.Local.still () cursor).graded settings
  | some token =>
      simp only
      cases orderProblem? seen division with
      | none => exact (Outcome.Local.still () cursor).graded settings
      | some problem =>
          intro diagnostic mem
          rw [List.mem_singleton.mp mem]
          exact .inr rfl

theorem graded_trailer (current : Option ProgramIdentity) (cursor : Cursor) :
    (trailer current cursor).Graded settings := by
  intro diagnostic mem
  rcases (mem_reports_trailer current cursor).1 mem with isLocal | ⟨token, -, program, -, -, rfl⟩
  · exact .inl isLocal.isError
  · exact .inl rfl

theorem graded_unitPart (state : UnitState) (cursor : Cursor) :
    (unitPart settings state cursor).Graded settings := by
  cases header : cursor.divisionHeader? with
  | some found =>
      rw [unitPart_of_header settings state header]
      exact (graded_checkOrder settings _ _ _).andThen
        ((local_division settings found cursor).graded settings)
  | none =>
      rw [unitPart_of_stray settings state header]
      exact Outcome.Local.graded settings (local_strayText .programUnit cursor)

theorem graded_closeUnit (start : Cursor) {parts : Outcome UnitState}
    (h : parts.Graded settings) : (closeUnit start parts).Graded settings := by
  refine Outcome.Graded.andThen h (Outcome.Local.graded settings ?_)
  exact local_ite (local_pure _) (local_reportAt _ rfl) _

theorem graded_unitRounds (enclosing : List ProgramIdentity) (state : UnitState)
    (cursor : Cursor) : (unitRounds settings enclosing state cursor).Graded settings := by
  have blanks (cursor : Cursor) : (trivia .programUnit cursor).Graded settings :=
    (local_trivia .programUnit cursor).graded settings
  refine unitRounds_induction settings enclosing (motive := fun _ _ outcome =>
    outcome.Graded settings) ?ends ?closes ?goesOn state cursor
  case ends => exact fun _ cursor => blanks cursor
  case closes =>
    intro state cursor lead _
    exact (blanks cursor).andThen (graded_trailer settings _ lead.next)
  case goesOn =>
    intro enclosing state cursor outcome lead part _ _ nested later
    refine Outcome.Graded.andThen ((blanks cursor).andThen ?_) later
    by_cases inside : lead.next.divisionHeader? = some .identification ∧ state.seen ≠ []
    · simp only [part, unitStep_of_nested settings enclosing inside]
      exact graded_closeUnit settings lead.next (nested _ inside.2)
    · simp only [part, unitStep_of_not_nested settings enclosing inside]
      exact graded_unitPart settings state lead.next

theorem graded_programUnits (cursor : Cursor) :
    (programUnits settings cursor).Graded settings := by
  refine programUnits_of_unit settings
    (motive := fun _ outcome => outcome.Graded settings) ?_ ?_ ?_ ?_ cursor
  · exact fun _ h => h
  · exact fun _ _ h k => h.andThen k
  · exact fun cursor => (local_trivia .programUnit cursor).graded settings
  · exact fun cursor => graded_closeUnit settings _ (graded_unitRounds settings [] .fresh cursor)

end Production

/-! ### Whole texts -/

namespace Parsed

/-- All diagnostics of a text. -/
def allDiagnostics (settings : Settings) (text : Text) : List Diagnostic :=
  (ofText { settings with maxDiagnostics := none } text).diagnostics

/-- The remark, at the end of a text, that diagnostics have been left out. -/
def remark (text : Text) : Diagnostic := Problem.tooMany.atPosition (Position.zero.advance text)

theorem keep_some (most : Nat) (final : Position) (reports : List Diagnostic) :
    keep (some most) final reports =
      reports.take most ++
        if most < reports.length then [Problem.tooMany.atPosition final] else [] := by
  unfold keep
  simp only
  split
  · rename_i fits
    rw [List.take_of_length_le fits, if_neg (by omega), List.append_nil]
  · rename_i tooMany
    rw [if_pos (by omega)]

/-- The diagnostics that have been kept so far, and whether others have been left out. -/
structure Kept where
  diagnostics : List Diagnostic
  truncated : Bool

/-- One more diagnostic, which is left out if as many as may be are there. -/
def Kept.push (most : Option Nat) (kept : Kept) (diagnostic : Diagnostic) : Kept :=
  if most.any (· ≤ kept.diagnostics.length) then { kept with truncated := true }
  else { kept with diagnostics := kept.diagnostics ++ [diagnostic] }

/-- The diagnostics at the end of the text, with a remark if others have been left out. -/
def Kept.finish (final : Position) (kept : Kept) : List Diagnostic :=
  kept.diagnostics ++ if kept.truncated then [Problem.tooMany.atPosition final] else []

theorem foldl_push_none (reports : List Diagnostic) :
    reports.foldl (Kept.push none) ⟨[], false⟩ = ⟨reports, false⟩ := by
  induction reports using List.reverseRecOn with
  | nil => rfl
  | append_singleton before diagnostic ih =>
      rw [List.foldl_append, ih]
      rfl

theorem foldl_push_some (most : Nat) (reports : List Diagnostic) :
    reports.foldl (Kept.push (some most)) ⟨[], false⟩ =
      ⟨reports.take most, decide (most < reports.length)⟩ := by
  induction reports using List.reverseRecOn with
  | nil => simp
  | append_singleton before diagnostic ih =>
      rw [List.foldl_append, ih, List.foldl_cons, List.foldl_nil, List.length_append,
        List.length_singleton]
      by_cases full : most ≤ before.length
      · have taken : (before ++ [diagnostic]).take most = before.take most :=
          List.take_append_of_le_length full
        have more : most < before.length + 1 := by omega
        simp [Kept.push, full, taken, more]
      · have fits : (before ++ [diagnostic]).length ≤ most := by
          rw [List.length_append, List.length_singleton]
          omega
        have alone : before.length ≤ most := by omega
        have none : ¬most < before.length + 1 := by omega
        simp [Kept.push, full, List.take_of_length_le fits, List.take_of_length_le alone, alone, none]

/-- What is kept is what is there when the diagnostics have come one by one. -/
theorem keep_eq_foldl (most : Option Nat) (final : Position) (reports : List Diagnostic) :
    keep most final reports = (reports.foldl (Kept.push most) ⟨[], false⟩).finish final := by
  cases most with
  | none =>
      rw [foldl_push_none]
      exact (List.append_nil reports).symm
  | some most =>
      rw [foldl_push_some, keep_some]
      simp [Kept.finish]

/-- The parser ends where the text does. -/
theorem position_programUnits (settings : Settings) (text : Text) :
    (Production.programUnits settings (Cursor.start text)).next.position =
      Position.zero.advance text := by
  have reads := (Production.faithful_programUnits settings (Cursor.start text)).reads
  rw [reads.position_eq]
  exact congrArg _ (textOf_tokens_ofText settings text)

/-- The diagnostics that are kept are the first of all, and a remark if others are left out. -/
theorem diagnostics_capped (settings : Settings) (text : Text) (most : Nat) :
    (ofText { settings with maxDiagnostics := some most } text).diagnostics =
      (allDiagnostics settings text).take most ++
        if most < (allDiagnostics settings text).length then [remark text] else [] := by
  have same := @Production.programUnits_congr { settings with maxDiagnostics := none }
    { settings with maxDiagnostics := some most } rfl rfl (Cursor.start text)
  simp only [allDiagnostics, ofText, keep_some, position_programUnits, same]
  rfl

/-- Settings with the same statement verbs give the same tree and the same tokens. Where diagnostics
are capped, the first of all are kept, with one remark at the end of the text if there are more; and
all diagnostics are the same but for how grave those about the order of divisions are. -/
theorem ofText_reporting (settings other : Settings) (text : Text)
    (same : settings.statementVerbs = other.statementVerbs) :
    (ofText other text).tree = (ofText settings text).tree ∧
      (ofText other text).tokens = (ofText settings text).tokens ∧
      (∀ most, (ofText { settings with maxDiagnostics := some most } text).diagnostics =
        (allDiagnostics settings text).take most ++
          if most < (allDiagnostics settings text).length then [remark text] else []) ∧
      allDiagnostics other text =
        (allDiagnostics settings text).map (Diagnostic.regrade other.orderSeverity) := by
  have runs := Production.programUnits_regrade same (Cursor.start text)
  have uncapped := @Production.programUnits_regrade { settings with maxDiagnostics := none }
    { other with maxDiagnostics := none } same (Cursor.start text)
  refine ⟨?_, ?_, diagnostics_capped settings text, ?_⟩
  · simp only [ofText, runs, Outcome.trees_regrade]
  · simp only [ofText, runs, Outcome.tokens_regrade]
  · simp only [allDiagnostics, ofText, keep, uncapped, Outcome.reports_regrade]
    rfl

/-- Two sets of settings that agree on the statement verbs and on nothing else. -/
theorem ofText_reporting_lenient :
    let lenient : Settings := ⟨false, Settings.standard.statementVerbs, some 1⟩
    let text : Text := "DATA DIVISION. ID DIVISION. PROGRAM-ID. A.".toList
    Settings.standard.statementVerbs = lenient.statementVerbs ∧
      (ofText lenient text).tree = (ofText .standard text).tree ∧
      allDiagnostics lenient text =
        (allDiagnostics .standard text).map (Diagnostic.regrade .warning) := by
  intro lenient text
  obtain ⟨tree, -, -, graded⟩ := ofText_reporting .standard lenient text rfl
  exact ⟨rfl, tree, graded⟩

/-! ### Verdicts -/

theorem isOk_capped (settings : Settings) (text : Text) (most : Nat) :
    (ofText { settings with maxDiagnostics := some most } text).isOk =
      !((allDiagnostics settings text).take most).any (·.isError) := by
  have remarked : (remark text).isError = false := rfl
  rw [isOk, diagnostics_capped, List.any_append]
  split
  · simp [remarked]
  · simp

/-- Where a division out of order is an error, nothing else than errors is reported. -/
theorem isError_of_strict {settings : Settings} (strict : settings.strictDivisionOrder = true)
    (text : Text) : ∀ diagnostic ∈ allDiagnostics settings text, diagnostic.isError = true := by
  intro diagnostic mem
  have grave : settings.orderSeverity = .error := if_pos strict
  rcases Production.graded_programUnits { settings with maxDiagnostics := none }
    (Cursor.start text) diagnostic mem with isError | same
  · exact isError
  · rw [Diagnostic.isError, same]
    exact beq_iff_eq.mpr grave

/-- A capped parse is invalid exactly when one of the diagnostics that are kept is an error. So it
is valid if the whole parse is; the converse holds where divisions out of order are errors and at
least one diagnostic is kept. -/
theorem isOk_ofText_capped (settings : Settings) (text : Text) (most : Nat) :
    let capped := ofText { settings with maxDiagnostics := some most } text
    let whole := ofText { settings with maxDiagnostics := none } text
    (capped.isOk = false ↔ ∃ diagnostic ∈ whole.diagnostics.take most, diagnostic.isError = true) ∧
      (whole.isOk = true → capped.isOk = true) ∧
      (settings.strictDivisionOrder = true → 0 < most → capped.isOk = whole.isOk) := by
  intro capped whole
  have verdict : capped.isOk = !(whole.diagnostics.take most).any (·.isError) :=
    isOk_capped settings text most
  have all : whole.isOk = !whole.diagnostics.any (·.isError) := rfl
  refine ⟨?_, ?_, ?_⟩
  · rw [verdict, Bool.not_eq_false', List.any_eq_true]
  · rw [verdict, all, Bool.not_eq_true', Bool.not_eq_true']
    intro none
    rw [List.any_eq_false] at none ⊢
    exact fun diagnostic kept => none diagnostic (List.mem_of_mem_take kept)
  · intro strict kept
    have errors : ∀ diagnostic ∈ whole.diagnostics, diagnostic.isError = true :=
      isError_of_strict strict text
    rw [verdict, all]
    cases reports : whole.diagnostics with
    | nil => rw [List.take_nil]
    | cons first rest =>
        obtain ⟨fewer, rfl⟩ := Nat.exists_eq_succ_of_ne_zero (Nat.pos_iff_ne_zero.mp kept)
        have isError : first.isError = true := errors first (by simp [reports])
        simp [isError]

/-- Where a division that is repeated is a warning, the warning takes the only place, and the error
behind it is left out. -/
theorem isOk_differs :
    let settings : Settings := ⟨false, Settings.standard.statementVerbs, none⟩
    let text : Text := "ID DIVISION. PROGRAM-ID. A. DATA DIVISION. DATA DIVISION. X".toList
    (ofText settings text).isOk = false ∧
      (ofText { settings with maxDiagnostics := some 1 } text).isOk = true := by
  decide +kernel

end Parsed

end CobolTree
