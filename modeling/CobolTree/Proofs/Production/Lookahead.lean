import CobolTree.Production.Basic
import CobolTree.Production.Headers
import CobolTree.Proofs.Token.Reading

/-!
Tokens that carry meaning, as productions meet them. `trivia` moves a cursor to its next
token that is neither blank nor comment (`next?_trivia`), which leaves what stands there as
it was (`significant?_trivia`), and `bumpSignificant` moves it behind that token. Headers are
recognised by two such tokens, so blanks before them make no difference, and a cursor is
never at a division header and at END PROGRAM at once.
-/

namespace CobolTree

namespace Production

variable {context : Context} {cursor after : Cursor} {token : Token}

/-! ### Blanks and comments -/

theorem value_bump (h : cursor.next? context = some (token, after)) :
    (bump context cursor).value = some token := by
  unfold bump
  rw [h]

theorem tokens_bump (h : cursor.next? context = some (token, after)) :
    (bump context cursor).tokens = [token] := by
  unfold bump
  rw [h]

theorem next_bump (h : cursor.next? context = some (token, after)) :
    (bump context cursor).next = after := by
  unfold bump
  rw [h]

theorem triviaRound_of_end (h : cursor.next? context = none) :
    triviaRound context cursor = .still (.done ()) cursor := by
  simp [triviaRound, Cursor.peek?, h]

theorem triviaRound_of_carries (h : cursor.next? context = some (token, after))
    (carries : token.isTrivia = false) :
    triviaRound context cursor = .still (.done ()) cursor := by
  simp [triviaRound, Cursor.peek?, h, carries]

theorem triviaRound_of_trivia (h : cursor.next? context = some (token, after))
    (trivial : token.isTrivia = true) :
    triviaRound context cursor = (bump context cursor).withValue (.yield ()) := by
  simp [triviaRound, Cursor.peek?, h, trivial]

theorem trivia_of_end (h : cursor.next? context = none) :
    trivia context cursor = .still () cursor := by
  have round := triviaRound_of_end h
  have ends : ((fun _ : Unit => triviaRound context) () cursor).value = .done () := by simp [round]
  rw [trivia, repeating_of_done ends]
  simp [round]

theorem trivia_of_carries (h : cursor.next? context = some (token, after))
    (carries : token.isTrivia = false) : trivia context cursor = .still () cursor := by
  have round := triviaRound_of_carries h carries
  have ends : ((fun _ : Unit => triviaRound context) () cursor).value = .done () := by simp [round]
  rw [trivia, repeating_of_done ends]
  simp [round]

theorem trivia_of_trivia (h : cursor.next? context = some (token, after))
    (trivial : token.isTrivia = true) :
    trivia context cursor = (bump context cursor).andThen (trivia context after) := by
  have round := triviaRound_of_trivia h trivial
  have goesOn : ((fun _ : Unit => triviaRound context) () cursor).value = .yield () := by
    simp [round]
  have shorter : ((fun _ : Unit => triviaRound context) () cursor).next.rest.length <
      cursor.rest.length := by simpa [round, next_bump h] using Cursor.shorter_of_next? h
  rw [trivia, repeating_of_yield goesOn shorter]
  simp [round, next_bump h]

theorem isTrivia_of_mem_trivia (context : Context) (cursor : Cursor) :
    ∀ token ∈ (trivia context cursor).tokens, token.isTrivia = true := by
  fun_induction Cursor.significant? context cursor with
  | case1 cursor h => simp [trivia_of_end h]
  | case2 cursor token after h shorter trivial ih =>
      rw [trivia_of_trivia h trivial]
      simpa [tokens_bump h, trivial] using ih
  | case3 cursor token after h shorter carries =>
      simp [trivia_of_carries h (by simpa using carries)]

/-- Behind blanks and comments stands the next token that carries meaning, if there is one. -/
theorem next?_trivia (context : Context) (cursor : Cursor) :
    (trivia context cursor).next.next? context = cursor.significant? context := by
  fun_induction Cursor.significant? context cursor with
  | case1 cursor h => simp [trivia_of_end h, h]
  | case2 cursor token after h shorter trivial ih => simpa [trivia_of_trivia h trivial] using ih
  | case3 cursor token after h shorter carries =>
      simp [trivia_of_carries h (by simpa using carries), h]

/-- Blanks and comments do not matter to what stands behind them, in whatever context they are
read. -/
theorem significant?_trivia (context : Context) (cursor : Cursor) :
    (trivia context cursor).next.significant? .programUnit = cursor.significant? .programUnit := by
  fun_induction Cursor.significant? context cursor with
  | case1 cursor h => simp [trivia_of_end h]
  | case2 cursor token after h shorter trivial ih =>
      have alike := Cursor.next?_of_shared h (.inr trivial)
      rw [trivia_of_trivia h trivial, Cursor.significant?_of_trivia alike trivial]
      simpa using ih
  | case3 cursor token after h shorter carries =>
      simp [trivia_of_carries h (by simpa using carries)]

/-- Behind blanks and comments, the text ends or a token stands. -/
theorem atToken_trivia {context : Context} (word : context.mode = .word) {cursor : Cursor}
    (left : (trivia context cursor).next.rest ≠ []) : (trivia context cursor).next.AtToken := by
  cases h : cursor.significant? context with
  | none =>
      have ends := (next?_trivia context cursor).trans h
      exact absurd (Cursor.next?_eq_none_iff.mp ends) left
  | some read =>
      obtain ⟨token, after⟩ := read
      have next := (next?_trivia context cursor).trans h
      have carries : token.isTrivia = false := Cursor.isTrivia_of_significant? h
      exact ⟨_, _, Cursor.next?_of_mode next (by rw [word]; rfl), carries⟩

theorem tokens_significant_trivia (context : Context) (cursor : Cursor) :
    Token.significant (trivia context cursor).tokens = [] :=
  Token.significant_eq_nil (isTrivia_of_mem_trivia context cursor)

theorem significant_trivia (context : Context) (cursor : Cursor) :
    Lexeme.significant (Token.lexemes (trivia context cursor).tokens) = [] := by
  rw [← Token.lexemes_significant, tokens_significant_trivia]
  rfl

/-! ### Tokens that carry meaning -/

section Significant

variable (h : cursor.significant? context = some (token, after))

include h

theorem value_bumpSignificant : (bumpSignificant context cursor).value = some token := by
  simp [bumpSignificant, value_bump ((next?_trivia context cursor).trans h)]

theorem next_bumpSignificant : (bumpSignificant context cursor).next = after := by
  simp [bumpSignificant, next_bump ((next?_trivia context cursor).trans h)]

theorem tokens_bumpSignificant :
    (bumpSignificant context cursor).tokens = (trivia context cursor).tokens ++ [token] := by
  simp [bumpSignificant, tokens_bump ((next?_trivia context cursor).trans h)]

/-- The next token that carries meaning is the only such token consumed. -/
theorem tokens_significant_bumpSignificant :
    Token.significant (bumpSignificant context cursor).tokens = [token] := by
  rw [tokens_bumpSignificant h, Token.significant_append, tokens_significant_trivia]
  simp [Token.significant, Cursor.isTrivia_of_significant? h]

theorem significant_bumpSignificant :
    Lexeme.significant (Token.lexemes (bumpSignificant context cursor).tokens) =
      [token.toLexeme] := by
  rw [← Token.lexemes_significant, tokens_significant_bumpSignificant h]
  rfl

/-- Eating succeeds on a token that passes the test. -/
theorem eatIf_of_test {test : Token → Bool} (passes : test token = true) :
    eatIf context test cursor = bumpSignificant context cursor := by
  simp [eatIf, nextSignificant, h, passes]

theorem value_eatIf_of_test {test : Token → Bool} (passes : test token = true) :
    (eatIf context test cursor).value = some token := by
  rw [eatIf_of_test h passes, value_bumpSignificant h]

theorem eatIf_of_not_test {test : Token → Bool} (fails : test token = false) :
    eatIf context test cursor = .still none cursor := by
  simp [eatIf, nextSignificant, h, fails]

end Significant

theorem eatIf_of_end (h : cursor.significant? context = none) (test : Token → Bool) :
    eatIf context test cursor = .still none cursor := by
  simp [eatIf, nextSignificant, h]

/-- Eating takes the next token if that passes the test, and nothing otherwise. -/
theorem eatIf_cases (context : Context) (test : Token → Bool) (cursor : Cursor) :
    eatIf context test cursor = .still none cursor ∨
      ∃ token after, cursor.significant? context = some (token, after) ∧ test token = true ∧
        eatIf context test cursor = bumpSignificant context cursor := by
  cases read : cursor.significant? context with
  | none => exact .inl (eatIf_of_end read test)
  | some next =>
      cases passes : test next.1 with
      | true => exact .inr ⟨next.1, next.2, rfl, passes, eatIf_of_test read passes⟩
      | false => exact .inl (eatIf_of_not_test read passes)

theorem eatIf_of_fails {test : Token → Bool}
    (fails : ∀ token after, cursor.significant? context = some (token, after) →
      test token = false) : eatIf context test cursor = .still none cursor := by
  rcases eatIf_cases context test cursor with still | ⟨token, after, read, passes, -⟩
  · exact still
  · rw [fails token after read] at passes
    cases passes

/-- What eating consumes, blanks and comments aside, is the token it answers with. -/
theorem tokens_significant_eatIf (context : Context) (test : Token → Bool) (cursor : Cursor) :
    Token.significant (eatIf context test cursor).tokens =
      (eatIf context test cursor).value.toList := by
  rcases eatIf_cases context test cursor with still | ⟨token, after, read, -, eaten⟩
  · rw [still]
    rfl
  · rw [eaten, value_bumpSignificant read, tokens_significant_bumpSignificant read]
    rfl

theorem significant_eatIf (context : Context) (test : Token → Bool) (cursor : Cursor) :
    Lexeme.significant (Token.lexemes (eatIf context test cursor).tokens) =
      ((eatIf context test cursor).value.map (·.toLexeme)).toList := by
  rw [← Token.lexemes_significant, tokens_significant_eatIf]
  cases (eatIf context test cursor).value <;> rfl

/-- What is eaten was next, and it passes the test. -/
theorem exists_significant?_of_eatIf {test : Token → Bool}
    (h : (eatIf context test cursor).value = some token) :
    ∃ after, cursor.significant? context = some (token, after) ∧ test token = true := by
  rcases eatIf_cases context test cursor with still | ⟨next, after, read, passes, eaten⟩
  · rw [still] at h
    cases h
  · rw [eaten, value_bumpSignificant read] at h
    cases h
    exact ⟨after, read, passes⟩

theorem test_of_eatIf {test : Token → Bool}
    (h : (eatIf context test cursor).value = some token) : test token = true := by
  obtain ⟨-, -, passes⟩ := exists_significant?_of_eatIf h
  exact passes

/-- Where a given word is asked for and is next, some token is that word. -/
theorem exists_significant?_of_isWord {word : Text}
    (h : ((cursor.significant? context).map (·.1.isWord word)).getD false = true) :
    ∃ token after, cursor.significant? context = some (token, after) ∧
      token.isWord word = true := by
  cases read : cursor.significant? context with
  | none => simp [read] at h
  | some found => exact ⟨found.1, found.2, rfl, by simpa [read] using h⟩

section TwoWords

variable {middle : Cursor} {second : Token} {word : Text}
  (h : cursor.significant? context = some (token, middle))
  (k : middle.significant? context = some (second, after)) (reads : second.isWord word = true)
include h k reads

/-- Two tokens that are ahead, the second of them a given word, are consumed one by one. -/
theorem significant_bump_eatWord :
    Lexeme.significant (Token.lexemes ((bumpSignificant context cursor).tokens ++
      (eatWord context word (bumpSignificant context cursor).next).tokens)) =
        [token.toLexeme, second.toLexeme] := by
  have eaten : eatWord context word middle = bumpSignificant context middle :=
    eatIf_of_test k reads
  rw [next_bumpSignificant h, eaten, Token.lexemes_append, Lexeme.significant_append]
  rw [significant_bumpSignificant h, significant_bumpSignificant k]
  rfl

theorem next_bump_eatWord :
    (eatWord context word (bumpSignificant context cursor).next).next = after := by
  rw [next_bumpSignificant h, eatWord, eatIf_of_test k reads, next_bumpSignificant k]

end TwoWords

/-- What asking for a period consumes, blanks and comments aside, is the period it finds. -/
theorem tokens_significant_expectPeriod (context : Context) (site : PeriodSite) (cursor : Cursor) :
    Token.significant (expectPeriod context site cursor).tokens =
      (expectPeriod context site cursor).value.toList := by
  have eaten := tokens_significant_eatIf context (·.kind == .dot) cursor
  simp only [expectPeriod, bind_apply]
  cases found : (eatIf context (·.kind == .dot) cursor).value with
  | none => simp [eaten, found]
  | some period => simp [eaten, found]

theorem significant_expectPeriod (context : Context) (site : PeriodSite) (cursor : Cursor) :
    Lexeme.significant (Token.lexemes (expectPeriod context site cursor).tokens) =
      ((expectPeriod context site cursor).value.map (·.toLexeme)).toList := by
  rw [← Token.lexemes_significant, tokens_significant_expectPeriod]
  cases (expectPeriod context site cursor).value <;> rfl

/-- Asking for a period finds one that is next. -/
theorem value_expectPeriod {period : Token} (h : cursor.significant? context = some (period, after))
    (isPeriod : (period.kind == .dot) = true) (site : PeriodSite) :
    (expectPeriod context site cursor).value = some period := by
  have eaten : eatIf context (·.kind == .dot) cursor = bumpSignificant context cursor :=
    eatIf_of_test h isPeriod
  simp only [expectPeriod, bind_apply, eaten, value_bumpSignificant h]
  rfl

/-- The period that is found where one is asked for was next. -/
theorem exists_significant?_of_expectPeriod {site : PeriodSite} {period : Token}
    (h : (expectPeriod context site cursor).value = some period) :
    ∃ after, cursor.significant? context = some (period, after) ∧ period.kind = .dot := by
  simp only [expectPeriod, bind_apply] at h
  cases found : (eatIf context (·.kind == .dot) cursor).value with
  | none => simp [found] at h
  | some other =>
      obtain ⟨after, read, dot⟩ := exists_significant?_of_eatIf found
      rw [found] at h
      cases h
      exact ⟨after, read, by simpa using dot⟩

theorem kind_of_expectPeriod {site : PeriodSite} {period : Token}
    (h : (expectPeriod context site cursor).value = some period) : period.kind = .dot := by
  obtain ⟨-, -, dot⟩ := exists_significant?_of_expectPeriod h
  exact dot

theorem isPeriod_of_expectPeriod {site : PeriodSite} :
    ∀ lexeme ∈ (expectPeriod context site cursor).value.map (·.toLexeme), lexeme.kind = .dot := by
  intro lexeme mem
  obtain ⟨token, found, rfl⟩ := Option.map_eq_some_iff.mp mem
  exact kind_of_expectPeriod found

end Production

namespace Cursor

theorem atEnd_iff {cursor : Cursor} : cursor.atEnd = true ↔ cursor.rest = [] := List.isEmpty_iff

/-! ### Headers -/

section Ahead

variable {context : Context} {cursor : Cursor} {first second : Token}

/-- Two tokens are ahead when one is next and the other is next behind it. -/
theorem ahead_two_eq_iff :
    cursor.ahead context 2 = [first, second] ↔
      ∃ middle after, cursor.significant? context = some (first, middle) ∧
        middle.significant? context = some (second, after) := by
  cases h : cursor.significant? context with
  | none => simp [ahead, h]
  | some read =>
      obtain ⟨token, middle⟩ := read
      cases k : middle.significant? context with
      | none => simp [ahead, h, k]
      | some read =>
          obtain ⟨other, after⟩ := read
          simp only [ahead, h, k]
          constructor
          · intro same
            simp only [List.cons.injEq, and_true] at same
            obtain ⟨rfl, rfl⟩ := same
            exact ⟨middle, after, rfl, k⟩
          · rintro ⟨middle', after', same, behind⟩
            cases same
            rw [k] at behind
            cases behind
            rfl

/-- What is ahead depends on the next token that carries meaning alone. -/
theorem ahead_congr {other : Cursor}
    (same : cursor.significant? context = other.significant? context) (count : Nat) :
    cursor.ahead context count = other.ahead context count := by
  cases count with
  | zero => rfl
  | succ count => simp [ahead, same]

end Ahead

/-- A header word and the word DIVISION make a division header. -/
theorem divisionHeader?_eq_some_iff {cursor : Cursor} {division : Division} :
    cursor.divisionHeader? = some division ↔
      ∃ name word, cursor.ahead .programUnit 2 = [name, word] ∧ name.kind = .word ∧
        word.isWord "DIVISION".toList = true ∧
          Division.ofHeaderWord? name.text = some division := by
  unfold divisionHeader?
  split
  · rename_i name word h
    rw [h]
    constructor
    · intro found
      split at found
      · rename_i words
        exact ⟨name, word, rfl, words.1, words.2, found⟩
      · cases found
    · rintro ⟨name', word', same, kind, second, found⟩
      cases same
      rw [if_pos ⟨kind, second⟩, found]
  · rename_i other
    constructor
    · intro found
      cases found
    · rintro ⟨name, word, same, -⟩
      exact absurd same (other name word)

/-- A test of two tokens ahead holds when both are there and pass it. -/
theorem test_ahead_two_iff {context : Context} {cursor : Cursor} {test : Token → Token → Bool} :
    (match cursor.ahead context 2 with
      | [first, second] => test first second
      | _ => false) = true ↔
      ∃ first second, cursor.ahead context 2 = [first, second] ∧ test first second = true := by
  split
  · rename_i first second h
    rw [h]
    constructor
    · intro passes
      exact ⟨first, second, rfl, passes⟩
    · rintro ⟨first', second', same, passes⟩
      cases same
      exact passes
  · rename_i other
    simp only [Bool.false_eq_true, false_iff, not_exists, not_and]
    intro first second same
    exact absurd same (other first second)

theorem atEndProgram_iff {cursor : Cursor} :
    cursor.atEndProgram = true ↔
      ∃ first second, cursor.ahead .endProgram 2 = [first, second] ∧
        (first.isWord "END".toList && second.isWord "PROGRAM".toList) = true :=
  test_ahead_two_iff

theorem atSectionHeader_iff {cursor : Cursor} :
    cursor.atSectionHeader = true ↔
      ∃ name word, cursor.ahead .sectionHeader 2 = [name, word] ∧
        (name.kind == .word && word.isWord "SECTION".toList) = true :=
  test_ahead_two_iff

theorem atParagraphHeader_iff {settings : Settings} {cursor : Cursor} :
    cursor.atParagraphHeader settings = true ↔
      ∃ name period, cursor.ahead .paragraphHeader 2 = [name, period] ∧
        (name.kind == .word && period.kind == .dot &&
          !settings.isStatementVerb name.text) = true :=
  test_ahead_two_iff

theorem atIdentificationParagraph_iff {cursor : Cursor} :
    cursor.atIdentificationParagraph = true ↔
      ∃ name period, cursor.ahead .identificationDivision 2 = [name, period] ∧
        (period.kind == .dot && (name.isWord "PROGRAM-ID".toList ||
          commentEntryWords.any (name.isWord ·))) = true :=
  test_ahead_two_iff

/-- The word END opens no division. -/
theorem ofHeaderWord?_of_end {word : Text} (h : Text.sameWord word "END".toList = true) :
    Division.ofHeaderWord? word = none := by
  have same : word.upper = Text.upper "END".toList := by simpa [Text.sameWord] using h
  unfold Division.ofHeaderWord? Text.sameWord
  rw [same]
  decide

/-- A division header is not the end of a program. -/
theorem atEndProgram_of_divisionHeader? {cursor : Cursor} {division : Division}
    (h : cursor.divisionHeader? = some division) : cursor.atEndProgram = false := by
  obtain ⟨name, word, ahead, kind, -, found⟩ := divisionHeader?_eq_some_iff.mp h
  obtain ⟨middle, after, first, -⟩ := ahead_two_eq_iff.mp ahead
  have first' : cursor.significant? .endProgram = some (name.inContext .endProgram, middle) :=
    significant?_of_mode first rfl
  refine Bool.eq_false_iff.mpr fun ends => ?_
  obtain ⟨first, second, ahead, words⟩ := atEndProgram_iff.mp ends
  have reads := (Bool.and_eq_true_iff.mp words).1
  obtain ⟨middle', after', same, -⟩ := ahead_two_eq_iff.mp ahead
  rw [first'] at same
  cases same
  have : Text.sameWord name.text "END".toList = true := Lexeme.sameWord_of_isWord reads
  rw [ofHeaderWord?_of_end this] at found
  cases found

/-! ### What headers depend on -/

section Congr

variable {cursor other : Cursor}
  (same : cursor.significant? .programUnit = other.significant? .programUnit)

include same

/-- Headers depend on the next token that carries meaning alone. -/
theorem divisionHeader?_congr : cursor.divisionHeader? = other.divisionHeader? := by
  unfold divisionHeader?
  rw [ahead_congr same]

theorem atEndProgram_congr : cursor.atEndProgram = other.atEndProgram := by
  have modes : Context.programUnit.mode = Context.endProgram.mode := rfl
  have named := significant?_congr modes same
  unfold atEndProgram
  rw [ahead_congr named]

end Congr

end Cursor

end CobolTree
