import CobolTree.Proofs.Production.Reports

/-!
The periods that sentences and headers end in. No period is eaten but by a round of a sentence, as
the last of its tokens, and where one is asked for; hence a sentence ends in a period exactly when
it is terminated (`sentenceSpec_repeating`), and a header exactly when its period has been found
(`TellsPeriod`). So sentences tell whether they are regular, and so do nodes that begin with a
header, if their bodies do (`tells_headed`).
-/

namespace CobolTree

namespace Outcome

variable {α β : Type}

/-- The tokens of an outcome, blanks and comments aside. -/
def significant (outcome : Outcome α) : List Lexeme :=
  Lexeme.significant (Token.lexemes outcome.tokens)

/-- None of the tokens of the outcome is a period. -/
def NoPeriods (outcome : Outcome α) : Prop := ∀ lexeme ∈ outcome.significant, lexeme.kind ≠ .dot

section Fields

variable (first : Outcome α) (second : Outcome β) (value : β) (cursor : Cursor) (kind : Kind)

@[simp] theorem significant_still : (still value cursor).significant = [] := rfl
@[simp] theorem significant_withValue : (first.withValue value).significant = first.significant :=
  rfl
@[simp] theorem significant_under : (first.under kind).significant = first.significant := rfl
@[simp] theorem significant_andThen :
    (first.andThen second).significant = first.significant ++ second.significant := by
  simp [significant]

end Fields

end Outcome

namespace Production

open Lexeme (EndInPeriod)
open SourceTree

variable {α β σ : Type}

/-! ### Tokens that are no periods -/

theorem noPeriods_of_significant {outcome : Outcome α} (none : outcome.significant = []) :
    outcome.NoPeriods := by
  intro lexeme mem
  rw [none] at mem
  cases mem

theorem noPeriods_still (value : α) (cursor : Cursor) :
    (Outcome.still value cursor).NoPeriods := noPeriods_of_significant rfl

theorem noPeriods_trivia (context : Context) (cursor : Cursor) :
    (trivia context cursor).NoPeriods := noPeriods_of_significant (significant_trivia _ _)

theorem noPeriods_andThen {first : Outcome α} {second : Outcome β} (h : first.NoPeriods)
    (k : second.NoPeriods) : (first.andThen second).NoPeriods := by
  unfold Outcome.NoPeriods at h k ⊢
  rw [Outcome.significant_andThen, List.forall_mem_append]
  exact ⟨h, k⟩

theorem noPeriods_ite {c : Prop} [Decidable c] {yes no : Production α} {cursor : Cursor}
    (h : (yes cursor).NoPeriods) (k : (no cursor).NoPeriods) :
    ((if c then yes else no) cursor).NoPeriods := by
  split
  · exact h
  · exact k

theorem noPeriods_bump {context : Context} {cursor after : Cursor} {token : Token}
    (h : cursor.next? context = some (token, after)) (other : token.kind ≠ .dot) :
    (bump context cursor).NoPeriods := by
  intro lexeme mem
  unfold Outcome.significant at mem
  rw [tokens_bump h] at mem
  obtain ⟨inside, -⟩ := List.mem_filter.mp mem
  rw [List.mem_singleton.mp inside]
  exact other

/-- What is eaten is no period if no token that passes the test is one. -/
theorem noPeriods_eatIf (context : Context) {test : Token → Bool}
    (other : ∀ token, test token = true → token.kind ≠ .dot) (cursor : Cursor) :
    (eatIf context test cursor).NoPeriods := by
  intro lexeme mem
  have eaten := significant_eatIf context test cursor
  rw [Outcome.significant, eaten, Option.mem_toList] at mem
  obtain ⟨token, found, rfl⟩ := Option.map_eq_some_iff.mp mem
  exact other token (test_of_eatIf found)

theorem kind_ne_dot_of_isWord {lexeme : Lexeme} {word : Text} (h : lexeme.isWord word = true) :
    lexeme.kind ≠ .dot := by
  rw [Lexeme.kind_of_isWord h]
  decide

theorem noPeriods_eatWord (context : Context) (word : Text) (cursor : Cursor) :
    (eatWord context word cursor).NoPeriods :=
  noPeriods_eatIf context (fun _ reads => kind_ne_dot_of_isWord reads) cursor

theorem noPeriods_pictureOperand (context : Context) (cursor : Cursor) :
    (pictureOperand context cursor).NoPeriods := by
  refine noPeriods_andThen (noPeriods_eatWord _ _ _) ?_
  refine noPeriods_andThen (noPeriods_trivia _ _) ?_
  refine noPeriods_andThen (noPeriods_still _ _) ?_
  simp only [here_apply, Outcome.value_still, Outcome.next_still]
  generalize (trivia .pictureString (eatWord context "IS".toList cursor).next).next = operand
  cases read : operand.peek? .pictureString with
  | none => exact noPeriods_still _ _
  | some token =>
      obtain ⟨⟨next, after⟩, found, rfl⟩ := Option.map_eq_some_iff.mp read
      by_cases isPicture : next.kind = .pictureString
      · simp only [isPicture, if_true]
        refine noPeriods_andThen (noPeriods_bump found ?_) (noPeriods_still _ _)
        rw [isPicture]
        decide
      · simp only [isPicture, if_false]
        exact noPeriods_still _ _

/-! ### Sentences -/

/-- What a round of a sentence can be: the end of the sentence, the period that ends it, a blank or
a comment, or a token that is no period, with its operand. -/
theorem periods_sentenceRound (context : Context) (pictures : Bool) (state : SentenceState)
    (cursor : Cursor) :
    let round := sentenceRound context pictures state cursor
    (round.value = .done state ∧ round.significant = []) ∨
      (round.value = .done .terminated ∧
        ∃ period, round.significant = [period] ∧ period.kind = .dot) ∨
      (round.value = .yield state ∧ round.significant = []) ∨
      (round.value = .yield .begun ∧ round.NoPeriods) := by
  intro round
  rcases sentenceRound_cases context pictures state cursor with
    same | ⟨token, after, read, ⟨trivial, same⟩ | ⟨carries, -, ⟨period, same⟩ | ⟨other, same⟩⟩⟩
  · rw [show round = _ from same]
    exact .inl ⟨rfl, rfl⟩
  · rw [show round = _ from same]
    refine .inr (.inr (.inl ⟨rfl, ?_⟩))
    simp [Outcome.significant, tokens_bump read, Lexeme.significant, trivial]
  · rw [show round = _ from same]
    refine .inr (.inl ⟨rfl, token.toLexeme, ?_, period⟩)
    simp [Outcome.significant, tokens_bump read, Lexeme.significant, carries]
  · rw [show round = _ from same]
    refine .inr (.inr (.inr ⟨rfl, noPeriods_andThen (noPeriods_bump read other) ?_⟩))
    split
    · exact noPeriods_pictureOperand context _
    · exact noPeriods_still _ _

/-- A sentence is terminated where its last token is a period, and empty where it has none. -/
structure SentenceSpec (state : SentenceState) (outcome : Outcome SentenceState) : Prop where
  terminated : outcome.value = .terminated ↔ EndInPeriod outcome.significant
  empty : outcome.value = .empty → state = .empty ∧ outcome.significant = []

/-- The last round of a sentence: it ends in a period exactly if that is what the round has read. -/
theorem sentenceSpec_last (context : Context) (pictures : Bool) {state final : SentenceState}
    (goesOn : state ≠ .terminated) {cursor : Cursor}
    (h : (sentenceRound context pictures state cursor).value = .done final) :
    SentenceSpec state ((sentenceRound context pictures state cursor).withValue final) := by
  rcases periods_sentenceRound context pictures state cursor with
    ⟨value, none⟩ | ⟨value, period, one, isPeriod⟩ | ⟨value, -⟩ | ⟨value, -⟩
  · rw [value] at h
    cases h
    constructor
    · simp [none, goesOn, Lexeme.not_endInPeriod_nil]
    · intro empty
      exact ⟨empty, none⟩
  · rw [value] at h
    cases h
    constructor
    · simp [one, EndInPeriod, isPeriod]
    · intro empty
      cases empty
  · rw [value] at h
    cases h
  · rw [value] at h
    cases h

/-- A round that goes on has read no period, so the rest of the sentence decides. -/
theorem sentenceSpec_andThen (context : Context) (pictures : Bool) {state next : SentenceState}
    (goesOn : state ≠ .terminated) {cursor : Cursor}
    (h : (sentenceRound context pictures state cursor).value = .yield next)
    {rest : Outcome SentenceState} (later : next ≠ .terminated → SentenceSpec next rest) :
    SentenceSpec state ((sentenceRound context pictures state cursor).andThen rest) := by
  have split := Outcome.significant_andThen (sentenceRound context pictures state cursor) rest
  rcases periods_sentenceRound context pictures state cursor with
    ⟨value, -⟩ | ⟨value, -⟩ | ⟨value, none⟩ | ⟨value, noPeriods⟩
  · rw [value] at h
    cases h
  · rw [value] at h
    cases h
  · rw [value] at h
    cases h
    obtain ⟨terminated, empty⟩ := later goesOn
    rw [none, List.nil_append] at split
    constructor
    · rw [split]
      exact terminated
    · rw [split]
      exact empty
  · rw [value] at h
    cases h
    obtain ⟨terminated, empty⟩ := later (by decide)
    constructor
    · rw [split]
      exact terminated.trans (Lexeme.endInPeriod_append noPeriods _).symm
    · intro none
      cases (empty none).1

/-- A sentence that is not terminated goes on until it is, or until it ends without a period. -/
theorem sentenceSpec_repeating (context : Context) (pictures : Bool) {state : SentenceState}
    (goesOn : state ≠ .terminated) (cursor : Cursor) :
    SentenceSpec state (repeating (sentenceRound context pictures) state cursor) := by
  apply repeating_induction_from
    (motive := fun state _ outcome => state ≠ .terminated → SentenceSpec state outcome)
    (fun state => (flat_sentenceRound context pictures state).faithful)
    (advances_sentenceRound context pictures) ?last ?goesOn state cursor goesOn
  case last =>
    intro state cursor final ends begins
    exact sentenceSpec_last context pictures begins ends
  case goesOn =>
    intro state cursor next outcome yields later begins
    exact sentenceSpec_andThen context pictures begins yields later

/-- A sentence lacks its period exactly where one is reported to be missing. -/
theorem tells_sentence {cursor : Cursor} (atToken : cursor.AtToken) (pictures : Bool) :
    (sentence .sentence .sentence pictures cursor).Tells := by
  let body := repeating (sentenceRound .sentence pictures) .empty cursor
  have quiet : body.QuietWhen True := quiet_repeating (quiet_sentenceRound _ _) .empty cursor
  have spec : SentenceSpec .empty body := sentenceSpec_repeating _ _ (by decide) cursor
  have gathered := gathered_sentence .sentence .sentence pictures cursor
  have carries : (sentence .sentence .sentence pictures cursor).Carries :=
    carries_sentence atToken (.inr rfl) _ _
  have whole : sentence .sentence .sentence pictures cursor =
      (body.andThen ((if body.value = .begun ∧ Kind.sentence = .sentence then
        reportHere (.missingPeriod .sentence) else pure () : Production Unit) body.next)).under
          .sentence := rfl
  cases state : body.value with
  | empty =>
      rw [whole, state] at carries
      refine absurd (spec.empty state).2 ?_
      simpa [Outcome.Carries, Outcome.significant] using carries
  | begun =>
      have noPeriod : ¬EndInPeriod body.significant := by
        rw [← spec.terminated, state]
        decide
      rw [whole, state] at gathered ⊢
      refine (quiet.andThen (quietWhen_reportHere _ _)).tells_gathered gathered ?_
      simpa [Regular, Outcome.significant] using noPeriod
  | terminated =>
      have period : EndInPeriod body.significant := spec.terminated.mp state
      rw [whole, state] at gathered ⊢
      refine (quiet.andThen (.still _ _)).tells_gathered gathered ?_
      simpa [Regular, Outcome.significant] using period

/-- Stray text is always reported, and never regular. -/
theorem tells_strayText (context : Context) (cursor : Cursor) :
    (strayText context cursor).Tells := by
  have reported : (strayText context cursor).reports ≠ [] :=
    List.append_ne_nil_of_left_ne_nil (reports_reportHere_ne_nil _ cursor) _
  unfold Outcome.Tells
  rw [(gathered_strayText context cursor).trees, regularAll_node]
  exact iff_of_false reported fun regular => regular.1

theorem tells_entries {context : Context} (word : context.mode = .word) (pictures : Bool)
    (cursor : Cursor) : (entries context pictures cursor).Tells := by
  rw [entries, rounds_eq_repeating context (fun _ => faithful_entryRound context pictures)
    (advances_entryRound word pictures)]
  refine tells_repeating (fun _ cursor => ?_) () cursor
  rw [entryRound_apply]
  refine (tells_trivia context cursor).andThen ?_
  split
  · exact Outcome.tells_still _ _
  · rename_i inside
    exact tells_sentence (atToken_of_not_atUnitBoundary word inside) pictures

/-! ### Headers -/

theorem noPeriods_bumpSignificant {context : Context} {cursor after : Cursor} {token : Token}
    (h : cursor.significant? context = some (token, after)) (other : token.kind ≠ .dot) :
    (bumpSignificant context cursor).NoPeriods :=
  noPeriods_andThen (noPeriods_trivia _ _) (noPeriods_bump ((next?_trivia _ _).trans h) other)

theorem noPeriods_headerPhraseRound (context : Context) (cursor : Cursor) :
    (headerPhraseRound context cursor).NoPeriods := by
  rw [headerPhraseRound_apply]
  split
  · exact noPeriods_still _ _
  · rename_i goesOn
    cases read : cursor.significant? context with
    | none =>
        have ends : (trivia context cursor).next.next? context = none :=
          (next?_trivia context cursor).trans read
        have still : (bump context (trivia context cursor).next).NoPeriods := by
          unfold bump
          rw [ends]
          exact noPeriods_still _ _
        exact noPeriods_andThen (noPeriods_trivia _ _) still
    | some found =>
        obtain ⟨token, after⟩ := found
        have other : token.kind ≠ .dot := by
          intro period
          exact goesOn (by simp [read, period])
        exact noPeriods_bumpSignificant read other

/-- A header phrase stops before a period. -/
theorem noPeriods_headerPhrase (context : Context) (cursor : Cursor) :
    (headerPhrase context cursor).NoPeriods := by
  have loop : (repeating (fun _ : Unit => headerPhraseRound context) () cursor).NoPeriods :=
    repeating_induction (motive := fun _ outcome => outcome.NoPeriods)
      (fun _ => flat_headerPhraseRound context |>.faithful)
      (advances_headerPhraseRound context)
      (fun _ cursor _ _ => noPeriods_headerPhraseRound context cursor)
      (fun _ cursor _ _ _ later => noPeriods_andThen (noPeriods_headerPhraseRound context cursor)
        later) () cursor
  unfold headerPhrase
  simp only [bind_apply, nextSignificant, Outcome.still_andThen, Outcome.value_still,
    Outcome.next_still]
  cases (cursor.significant? context).map (·.1) with
  | none => exact noPeriods_still _ _
  | some token => exact noPeriods_ite loop (noPeriods_still _ _)

/-- A header ends in a period exactly when none is reported to be missing. -/
def TellsPeriod (outcome : Outcome α) : Prop := outcome.QuietWhen (EndInPeriod outcome.significant)

theorem tellsPeriod_expectPeriod (context : Context) (site : PeriodSite) (cursor : Cursor) :
    TellsPeriod (expectPeriod context site cursor) := by
  refine (quietWhen_expectPeriod context site cursor).congr ?_
  have period : (expectPeriod context site cursor).significant = _ :=
    significant_expectPeriod context site cursor
  rw [period, ← List.nil_append (Option.toList _),
    Lexeme.endInPeriod_append_toList (List.forall_mem_nil _)
      isPeriod_of_expectPeriod, Option.isSome_map]

theorem tellsPeriod_ite {c : Prop} [Decidable c] {yes no : Production α} {cursor : Cursor}
    (h : TellsPeriod (yes cursor)) (k : TellsPeriod (no cursor)) :
    TellsPeriod ((if c then yes else no) cursor) := by
  split
  · exact h
  · exact k

/-- Nothing stands behind the period of a header. -/
theorem TellsPeriod.andThen_still {outcome : Outcome α} (h : TellsPeriod outcome) (value : β)
    (cursor : Cursor) : TellsPeriod (outcome.andThen (.still value cursor)) := by
  refine (h.andThen_quiet (.still value cursor)).congr ?_
  rw [Outcome.significant_andThen, Outcome.significant_still, List.append_nil]

/-- What is no period makes no difference in front of a header. -/
theorem TellsPeriod.behind {first : Outcome α} {second : Outcome β} (quiet : first.QuietWhen True)
    (noPeriods : first.NoPeriods) (h : TellsPeriod second) :
    TellsPeriod (first.andThen second) := by
  refine (quiet.quiet_andThen h).congr ?_
  rw [Outcome.significant_andThen, Lexeme.endInPeriod_append noPeriods]

/-- A header of a division, where one was seen from afar. -/
theorem tellsPeriod_divisionHeader {division : Division} {cursor : Cursor}
    (h : cursor.divisionHeader? = some division) :
    TellsPeriod (divisionHeader division cursor) := by
  obtain ⟨name, word, ahead, isName, -⟩ := Cursor.divisionHeader?_eq_some_iff.mp h
  obtain ⟨middle, after, first, -⟩ := Cursor.ahead_two_eq_iff.mp ahead
  have read := Cursor.significant?_of_mode first (mode_context division).symm
  have other : (name.inContext division.context).kind ≠ .dot := by
    rw [show (name.inContext division.context).kind = .word from isName]
    decide
  refine .behind (quiet_bumpSignificant _ _) (noPeriods_bumpSignificant read other) ?_
  refine .behind (quiet_eatWord _ _ _) (noPeriods_eatWord _ _ _) ?_
  refine tellsPeriod_ite (.behind (quiet_headerPhrase _ _) (noPeriods_headerPhrase _ _) ?_) ?_
  · exact (tellsPeriod_expectPeriod _ _ _).andThen_still _ _
  · exact (tellsPeriod_expectPeriod _ _ _).andThen_still _ _

theorem tellsPeriod_sectionHeader {cursor : Cursor} (h : cursor.atSectionHeader = true) :
    TellsPeriod (sectionHeader cursor) := by
  obtain ⟨name, word, ahead, words⟩ := Cursor.atSectionHeader_iff.mp h
  obtain ⟨middle, after, first, -⟩ := Cursor.ahead_two_eq_iff.mp ahead
  obtain ⟨isName, -⟩ := Bool.and_eq_true_iff.mp words
  have other : name.kind ≠ .dot := by
    rw [eq_of_beq isName]
    decide
  have priority (token : Token)
      (passes : (token.kind == .word && token.text.all Char.isDigit) = true) :
      token.kind ≠ .dot := by
    rw [eq_of_beq (Bool.and_eq_true_iff.mp passes).1]
    decide
  refine .behind (quiet_bumpSignificant _ _) (noPeriods_bumpSignificant first other) ?_
  refine .behind (quiet_eatWord _ _ _) (noPeriods_eatWord _ _ _) ?_
  refine .behind (quiet_eatIf _ _ _) (noPeriods_eatIf _ priority _) ?_
  exact (tellsPeriod_expectPeriod _ _ _).andThen_still _ _

theorem tellsPeriod_paragraphHeader {settings : Settings} {cursor : Cursor}
    (h : cursor.atParagraphHeader settings = true) : TellsPeriod (paragraphHeader cursor) := by
  obtain ⟨name, period, ahead, words⟩ := Cursor.atParagraphHeader_iff.mp h
  obtain ⟨middle, after, first, -⟩ := Cursor.ahead_two_eq_iff.mp ahead
  obtain ⟨kinds, -⟩ := Bool.and_eq_true_iff.mp words
  obtain ⟨isName, -⟩ := Bool.and_eq_true_iff.mp kinds
  have other : name.kind ≠ .dot := by
    rw [eq_of_beq isName]
    decide
  refine .behind (quiet_bumpSignificant _ _) (noPeriods_bumpSignificant first other) ?_
  exact (tellsPeriod_expectPeriod _ _ _).andThen_still _ _

/-- A node that begins with a header tells whether it is regular if its header does, and its body
tells of itself and of what else the node asks for. -/
theorem tells_headed {kind : Kind} {header : Production α} {body : α → Production β}
    {cursor : Cursor} {q : Prop} (flat : Flat header) (period : TellsPeriod (header cursor))
    (regular : Regular kind (row (Token.lexemes (header cursor).tokens) ++
        (body (header cursor).value (header cursor).next).trees) ↔
      EndInPeriod (header cursor).significant ∧ q)
    (tells : (body (header cursor).value (header cursor).next).reports = [] ↔
      RegularAll (body (header cursor).value (header cursor).next).trees ∧ q) :
    (node kind (header >>= body) cursor).Tells := by
  have errors : RegularAll (row (Token.lexemes (header cursor).tokens)) ↔
      (header cursor).NoErrorTokens := by
    simp [regularAll_row, Outcome.NoErrorTokens, Token.lexemes]
  unfold TellsPeriod Outcome.QuietWhen at period
  unfold Outcome.Tells
  rw [trees_headed kind flat, regularAll_node, regular, regularAll_append, errors]
  simp only [node, bind_apply, Outcome.reports_under, Outcome.reports_andThen,
    List.append_eq_nil_iff]
  rw [period, tells]
  constructor
  · rintro ⟨⟨noErrors, period⟩, regular, more⟩
    exact ⟨⟨period, more⟩, noErrors, regular⟩
  · rintro ⟨⟨period, more⟩, noErrors, regular⟩
    exact ⟨⟨noErrors, period⟩, regular, more⟩

/-- Where a node asks for nothing but the period of its header, its body tells of itself alone. -/
theorem tells_headed_of_tells {kind : Kind} {header : Production α} {body : α → Production β}
    {cursor : Cursor} (flat : Flat header) (period : TellsPeriod (header cursor))
    (regular : ∀ parts, Regular kind parts ↔ EndInPeriod (ownLexemesOf parts))
    (nodes : Among (fun tree => tree.isNode = true)
      (body (header cursor).value (header cursor).next).trees)
    (tells : (body (header cursor).value (header cursor).next).Tells) :
    (node kind (header >>= body) cursor).Tells := by
  refine tells_headed flat period (q := True) ?_ (tells.trans (and_iff_left trivial).symm)
  rw [regular, ownLexemesOf_headed _ nodes, and_iff_left trivial]
  rfl

end Production

end CobolTree
