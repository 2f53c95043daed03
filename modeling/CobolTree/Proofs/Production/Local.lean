import CobolTree.Proofs.Production.Reports

/-!
Which problems the parts of a program are to blame for. Some problems concern a program as a whole:
a division that stands out of order or for a second time, and a trailer that does not repeat the
name of the program. All others are local (`Problem.isLocal`): they can be seen in one part of a
program, whatever stands before that part. Below the parts of a unit every production reports local
problems only, each as grave as it is by itself (`local_division`, `local_strayText`).
-/

namespace CobolTree

/-- The problem can be seen without what stands before it in the program. -/
def Problem.isLocal : Problem → Bool
  | divisionOrder _ | duplicateDivision _ | endProgramMismatch _ _ | tooMany => false
  | _ => true

/-- The diagnostic tells of a local problem, as grave as the problem is by itself. -/
def Diagnostic.IsLocal (diagnostic : Diagnostic) : Prop :=
  ∃ (problem : Problem) (range : Range) (position : Position),
    problem.isLocal = true ∧ diagnostic = problem.within range position

namespace Diagnostic

theorem isLocal_within {problem : Problem} (h : problem.isLocal = true) (range : Range)
    (position : Position) : (problem.within range position).IsLocal :=
  ⟨problem, range, position, h, rfl⟩

theorem IsLocal.isError {diagnostic : Diagnostic} (h : diagnostic.IsLocal) :
    diagnostic.isError = true := by
  obtain ⟨problem, range, position, isLocal, rfl⟩ := h
  cases problem with
  | tooMany => cases isLocal
  | _ => rfl

/-- The code of a local problem is none of those that concern a program as a whole. -/
theorem IsLocal.code_ne {diagnostic : Diagnostic} (h : diagnostic.IsLocal) :
    diagnostic.code ≠ .divisionOrder ∧ diagnostic.code ≠ .duplicateDivision ∧
      diagnostic.code ≠ .endProgramMismatch := by
  obtain ⟨problem, range, position, isLocal, rfl⟩ := h
  cases problem with
  | divisionOrder => cases isLocal
  | duplicateDivision => cases isLocal
  | endProgramMismatch => cases isLocal
  | _ => refine ⟨?_, ?_, ?_⟩ <;> intro same <;> cases same

end Diagnostic

namespace Outcome

variable {α β : Type} {first : Outcome α} {second : Outcome β}

/-- All that the outcome reports is local. -/
def Local (outcome : Outcome α) : Prop := ∀ diagnostic ∈ outcome.reports, diagnostic.IsLocal

theorem Local.still (value : α) (cursor : Cursor) : (Outcome.still value cursor).Local := by
  intro diagnostic mem
  cases mem

theorem Local.withValue (value : β) (h : first.Local) : (first.withValue value).Local := h

theorem Local.andThen (h : first.Local) (k : second.Local) : (first.andThen second).Local :=
  List.forall_mem_append.mpr ⟨h, k⟩

theorem Local.under (kind : Kind) (h : first.Local) : (first.under kind).Local := h

end Outcome

namespace Production

variable {α β σ : Type}

/-- The production reports local problems only. -/
def Local (production : Production α) : Prop := ∀ cursor, (production cursor).Local

/-! ### Sequences and loops -/

theorem local_pure (value : α) : Local (pure value) := fun cursor => .still value cursor

theorem local_here : Local here := fun cursor => .still cursor cursor

theorem local_bind {first : Production α} {second : α → Production β} (h : Local first)
    (k : ∀ value, Local (second value)) : Local (first >>= second) :=
  fun cursor => (h cursor).andThen (k _ _)

theorem local_ite {c : Prop} [Decidable c] {yes no : Production α} (h : Local yes)
    (k : Local no) : Local (if c then yes else no) := by
  split
  · exact h
  · exact k

theorem local_node (kind : Kind) {body : Production α} (h : Local body) : Local (node kind body) :=
  fun cursor => (h cursor).under kind

/-- A loop of local rounds is local, however many rounds it takes. -/
theorem local_repeating {round : σ → Production (ForInStep σ)} (h : ∀ state, Local (round state))
    (state : σ) : Local (repeating round state) := by
  intro cursor
  fun_induction repeating round state cursor with
  | case1 state cursor first final _ => exact (h state cursor).withValue final
  | case2 state cursor first next _ shorter ih => exact (h state cursor).andThen ih
  | case3 state cursor first next _ same => exact (h state cursor).withValue next

/-! ### Reports and tokens -/

theorem local_report {problem : Problem} (h : problem.isLocal = true) (range : Range)
    (position : Position) : Local (report (problem.within range position)) := by
  intro cursor diagnostic mem
  rw [List.mem_singleton.mp mem]
  exact Diagnostic.isLocal_within h range position

theorem local_reportHere {problem : Problem} (h : problem.isLocal = true) :
    Local (reportHere problem) := by
  intro cursor
  unfold reportHere
  split
  · exact local_report h _ _ cursor
  · exact local_report h _ _ cursor

theorem local_reportAt (token : Option Token) {problem : Problem} (h : problem.isLocal = true) :
    Local (reportAt token problem) := by
  unfold reportAt
  split
  · exact local_report h _ _
  · exact local_reportHere h

theorem isLocal_ofOpaque (text : Text) : (Problem.ofOpaque text).isLocal = true := by
  unfold Problem.ofOpaque
  split
  · split <;> rfl
  · rfl

theorem local_bump (context : Context) : Local (bump context) := by
  intro cursor
  unfold bump
  split
  · exact .still none cursor
  · rename_i token after h
    intro diagnostic mem
    by_cases isError : token.kind = .error
    · rw [if_pos isError, List.mem_singleton] at mem
      rw [mem]
      exact Diagnostic.isLocal_within (isLocal_ofOpaque token.text) _ _
    · rw [if_neg isError] at mem
      cases mem

theorem local_triviaRound (context : Context) : Local (triviaRound context) := by
  refine local_bind local_here fun cursor => ?_
  split
  · refine local_ite ?_ (local_pure _)
    exact local_bind (local_bump _) fun _ => local_pure _
  · exact local_pure _

theorem local_trivia (context : Context) : Local (trivia context) :=
  local_repeating (fun _ => local_triviaRound context) ()

theorem local_bumpSignificant (context : Context) : Local (bumpSignificant context) :=
  local_bind (local_trivia _) fun _ => local_bump _

theorem local_nextSignificant (context : Context) : Local (nextSignificant context) :=
  fun cursor => .still _ cursor

theorem local_eatIf (context : Context) (test : Token → Bool) : Local (eatIf context test) := by
  refine local_bind (local_nextSignificant _) fun next => ?_
  split
  · exact local_ite (local_bumpSignificant _) (local_pure _)
  · exact local_pure _

theorem local_eatWord (context : Context) (word : Text) : Local (eatWord context word) :=
  local_eatIf _ _

theorem local_expectPeriod (context : Context) (site : PeriodSite) :
    Local (expectPeriod context site) := by
  refine local_bind (local_eatIf _ _) fun found => ?_
  split
  · exact local_pure _
  · exact local_bind (local_reportHere rfl) fun _ => local_pure _

theorem local_ensureProgress (before : Position) (context : Context) :
    Local (ensureProgress before context) := by
  refine local_bind local_here fun cursor => local_ite ?_ (local_pure _)
  refine local_bind (local_reportHere rfl) fun _ => ?_
  exact local_bind (local_bump _) fun _ => local_pure _

theorem local_rounds (context : Context) {round : σ → Production (ForInStep σ)}
    (h : ∀ state, Local (round state)) (state : σ) : Local (rounds context round state) := by
  refine local_repeating (fun state => ?_) state
  refine local_bind local_here fun before => local_bind (h state) fun step => ?_
  split
  · exact local_pure _
  · exact local_bind (local_ensureProgress _ _) fun _ => local_pure _

/-! ### Sentences -/

theorem local_pictureOperand (context : Context) : Local (pictureOperand context) := by
  refine local_bind (local_eatWord _ _) fun _ => ?_
  refine local_bind (local_trivia _) fun _ => local_bind local_here fun cursor => ?_
  split
  · exact local_ite (local_bind (local_bump _) fun _ => local_pure _) (local_pure _)
  · exact local_pure _

theorem local_sentenceRound (context : Context) (pictures : Bool) (state : SentenceState) :
    Local (sentenceRound context pictures state) := by
  refine local_bind local_here fun cursor => ?_
  split
  · exact local_pure _
  · refine local_ite (local_bind (local_bump _) fun _ => local_pure _) ?_
    refine local_ite (local_pure _) (local_bind (local_bump _) fun _ => ?_)
    refine local_ite (local_pure _) (local_ite ?_ (local_pure _))
    exact local_bind (local_pictureOperand _) fun _ => local_pure _

theorem local_sentence (context : Context) (kind : Kind) (pictures : Bool) :
    Local (sentence context kind pictures) := by
  refine local_node kind (local_bind ?_ fun state => ?_)
  · exact local_repeating (local_sentenceRound context pictures) .empty
  · exact local_ite (local_reportHere rfl) (local_pure _)

theorem local_strayText (context : Context) : Local (strayText context) :=
  local_bind (local_reportHere rfl) fun _ => local_sentence _ _ _

theorem local_entries (context : Context) (pictures : Bool) :
    Local (entries context pictures) := by
  refine local_rounds context (fun _ => ?_) ()
  refine local_bind (local_trivia _) fun _ => local_bind local_here fun cursor => ?_
  exact local_ite (local_pure _) (local_bind (local_sentence _ _ _) fun _ => local_pure _)

/-! ### The IDENTIFICATION DIVISION -/

theorem local_programAttributes (context : Context) : Local (programAttributes context) := by
  refine local_repeating (fun _ => local_bind (local_eatIf _ _) fun found => ?_) ()
  split <;> exact local_pure _

theorem local_programIdParagraph : Local programIdParagraph := by
  refine local_node _ (local_bind (local_bumpSignificant _) fun _ => ?_)
  refine local_bind (local_expectPeriod _ _) fun _ => local_bind local_here fun cursor => ?_
  refine local_bind (local_eatIf _ _) fun name => ?_
  split
  · refine local_bind (local_programAttributes _) fun _ => ?_
    exact local_bind (local_expectPeriod _ _) fun _ => local_pure _
  · exact local_bind (local_reportHere rfl) fun _ => local_pure _

theorem local_commentEntryRound : Local commentEntryRound := by
  refine local_bind local_here fun cursor => ?_
  split
  · exact local_pure _
  · exact local_ite (local_pure _) (local_bind (local_bump _) fun _ => local_pure _)

theorem local_commentEntryParagraph : Local commentEntryParagraph := by
  refine local_node _ (local_bind (local_bumpSignificant _) fun _ => ?_)
  refine local_bind (local_expectPeriod _ _) fun _ => ?_
  exact local_repeating (fun _ => local_commentEntryRound) ()

theorem local_identificationRound (declared : Declared) : Local (identificationRound declared) := by
  refine local_bind (local_trivia _) fun _ => local_bind local_here fun cursor => ?_
  refine local_ite (local_pure _) (local_ite ?_ (local_ite ?_ ?_))
  · exact local_bind local_programIdParagraph fun _ => local_pure _
  · exact local_bind local_commentEntryParagraph fun _ => local_pure _
  · exact local_bind (local_strayText _) fun _ => local_pure _

theorem local_identificationBody (header : Option Token) : Local (identificationBody header) := by
  refine local_bind (local_rounds _ local_identificationRound _) fun declared => ?_
  refine local_ite (local_pure _) ?_
  exact local_bind (local_reportAt _ rfl) fun _ => local_pure _

/-! ### The PROCEDURE DIVISION -/

section Procedure

variable (settings : Settings)

theorem local_procedureSentences : Local (procedureSentences settings) := by
  refine local_rounds _ (fun _ => ?_) ()
  refine local_bind (local_trivia _) fun _ => local_bind local_here fun cursor => ?_
  exact local_ite (local_pure _) (local_bind (local_sentence _ _ _) fun _ => local_pure _)

theorem local_sectionHeader : Local sectionHeader := by
  refine local_bind (local_bumpSignificant _) fun _ => local_bind (local_eatWord _ _) fun _ => ?_
  refine local_bind (local_eatIf _ _) fun _ => ?_
  exact local_bind (local_expectPeriod _ _) fun _ => local_pure _

theorem local_paragraphHeader : Local paragraphHeader :=
  local_bind (local_bumpSignificant _) fun _ =>
    local_bind (local_expectPeriod _ _) fun _ => local_pure _

theorem local_procedureBody : Local (procedureBody settings) := by
  refine local_rounds _ (fun _ => ?_) ()
  refine local_bind (local_trivia _) fun _ => local_bind local_here fun cursor => ?_
  refine local_ite (local_pure _) (local_ite ?_ (local_ite ?_ ?_))
  · refine local_bind (local_node _ ?_) fun _ => local_pure _
    exact local_bind local_sectionHeader fun _ => local_procedureSentences settings
  · refine local_bind (local_node _ ?_) fun _ => local_pure _
    exact local_bind local_paragraphHeader fun _ => local_procedureSentences settings
  · exact local_bind (local_sentence _ _ _) fun _ => local_pure _

end Procedure

/-! ### Divisions -/

theorem local_headerPhrase (context : Context) : Local (headerPhrase context) := by
  refine local_bind (local_nextSignificant _) fun next => ?_
  split
  · refine local_ite (local_repeating (fun _ => ?_) ()) (local_pure _)
    refine local_bind local_here fun cursor => local_ite (local_pure _) ?_
    exact local_bind (local_bumpSignificant _) fun _ => local_pure _
  · exact local_pure _

theorem local_divisionHeader (division : Division) : Local (divisionHeader division) := by
  refine local_bind (local_bumpSignificant _) fun _ => ?_
  refine local_bind (local_eatWord _ _) fun _ => local_ite ?_ ?_
  · refine local_bind (local_headerPhrase _) fun _ => ?_
    exact local_bind (local_expectPeriod _ _) fun _ => local_pure _
  · exact local_bind (local_expectPeriod _ _) fun _ => local_pure _

theorem local_divisionBody (settings : Settings) (division : Division) (header : Option Token) :
    Local (divisionBody settings division header) := by
  cases division with
  | identification => exact local_identificationBody header
  | environment => exact local_bind (local_entries _ _) fun _ => local_pure _
  | data => exact local_bind (local_entries _ _) fun _ => local_pure _
  | procedure => exact local_bind (local_procedureBody settings) fun _ => local_pure _

theorem local_division (settings : Settings) (division : Division) :
    Local (Production.division settings division) :=
  local_node _ (local_bind (local_divisionHeader division) fun _ => local_divisionBody _ _ _)

/-! ### The order of divisions -/

/-- Where a division stands is all that is reported before it is read. -/
theorem code_checkOrder (settings : Settings) (seen : List Division) (division : Division)
    (cursor : Cursor) :
    ∀ diagnostic ∈ (checkOrder settings seen division cursor).reports,
      diagnostic.code = .divisionOrder ∨ diagnostic.code = .duplicateDivision := by
  have cause {problem : Problem} (h : orderProblem? seen division = some problem) :
      problem.code = .divisionOrder ∨ problem.code = .duplicateDivision := by
    unfold orderProblem? at h
    split at h
    · cases h
      exact .inr rfl
    · split at h
      · cases h
        exact .inl rfl
      · cases h
  simp only [checkOrder, bind_apply, nextSignificant, Outcome.still_andThen, Outcome.value_still,
    Outcome.next_still]
  intro diagnostic mem
  cases read : (cursor.significant? .programUnit).map (·.1) with
  | none =>
      rw [read] at mem
      cases mem
  | some token =>
      simp only [read] at mem
      cases found : orderProblem? seen division with
      | none =>
          rw [found] at mem
          cases mem
      | some problem =>
          rw [found] at mem
          rw [List.mem_singleton.mp mem]
          exact cause found

/-! ### Trailers -/

/-- The name that a trailer has where END PROGRAM stands. -/
def trailerName? (cursor : Cursor) : Option Token :=
  (eatIf .endProgram namesProgram
    (eatWord .endProgram "PROGRAM".toList (bumpSignificant .endProgram cursor).next).next).value

/-- The diagnostic tells that a trailer has another name than the program. -/
def TellsMismatch (current : Option ProgramIdentity) (name : Option Token)
    (diagnostic : Diagnostic) : Prop :=
  ∃ token ∈ name, ∃ program ∈ current,
    Text.sameWord (programName token.text) program.name = false ∧
      diagnostic = (Problem.endProgramMismatch (programName token.text) program).ofToken token

theorem mem_reports_checkTrailerName (current : Option ProgramIdentity) (name : Option Token)
    (cursor : Cursor) {diagnostic : Diagnostic} :
    (diagnostic ∈ (checkTrailerName current name cursor).reports →
      diagnostic.IsLocal ∨ TellsMismatch current name diagnostic) ∧
    (TellsMismatch current name diagnostic →
      diagnostic ∈ (checkTrailerName current name cursor).reports) := by
  unfold checkTrailerName
  split
  · rename_i token program
    by_cases same : Text.sameWord (programName token.text) program.name = true
    · simp [TellsMismatch, same]
    · have tells : diagnostic ∈ (report ((Problem.endProgramMismatch (programName token.text)
          program).ofToken token) cursor).reports ↔
          TellsMismatch (some program) (some token) diagnostic := by
        simp [TellsMismatch, same, report]
      simp only [if_neg same]
      exact ⟨fun mem => .inr (tells.mp mem), tells.mpr⟩
  · rename_i token
    simp [TellsMismatch]
  · constructor
    · exact fun mem => .inl (local_reportHere rfl cursor diagnostic mem)
    · rintro ⟨token, ⟨⟩, -⟩

/-- What a trailer reports is local, but for the mismatch of its name, which it reports whenever
there is one. -/
theorem mem_reports_trailer (current : Option ProgramIdentity) (cursor : Cursor)
    {diagnostic : Diagnostic} :
    (diagnostic ∈ (trailer current cursor).reports →
      diagnostic.IsLocal ∨ TellsMismatch current (trailerName? cursor) diagnostic) ∧
    (TellsMismatch current (trailerName? cursor) diagnostic →
      diagnostic ∈ (trailer current cursor).reports) := by
  simp only [trailer, bind_apply, Outcome.reports_andThen, List.mem_append]
  constructor
  · rintro (keyword | word | name | check | period | blanks)
    · exact .inl (local_bumpSignificant _ _ _ keyword)
    · exact .inl (local_eatWord _ _ _ _ word)
    · exact .inl (local_eatIf _ _ _ _ name)
    · exact (mem_reports_checkTrailerName _ _ _).1 check
    · exact .inl (local_expectPeriod _ _ _ _ period)
    · exact .inl (local_trivia _ _ _ blanks)
  · intro mismatch
    exact .inr (.inr (.inr (.inl ((mem_reports_checkTrailerName _ _ _).2 mismatch))))

end Production

end CobolTree
