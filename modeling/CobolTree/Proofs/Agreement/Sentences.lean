import CobolTree.Proofs.Agreement.Alignment
import CobolTree.Proofs.Production.Boundary
import CobolTree.Proofs.Token.Placement

/-!
The tokens of an ENVIRONMENT or a DATA DIVISION are tokens of sentences. Its header is read in word
mode, but it has no word of digits, and blanks and comments are the same in both modes; so all its
tokens, picture strings apart, are what sentence mode finds where they stand (`suits_division`).
-/

namespace CobolTree

open Scan

/-! ### Tokens that sentence mode finds -/

/-- The token is a picture string, or sentence mode finds it too. -/
def Token.SuitsSentence (token : Token) : Prop :=
  token.kind = .pictureString ∨ token.isTrivia = true ∨ token.context.mode = .sentence ∨
    token.context.mode = .word ∧ (token.kind = .word → token.text.all Char.isDigit = false)

namespace Cursor

variable {context : Context} {cursor after last : Cursor} {token : Token} {tokens : List Token}

/-- Sentence mode finds a token that suits it, picture strings apart. -/
theorem scan_sentence_of_suits (h : cursor.next? context = some (token, after))
    (suits : token.SuitsSentence) :
    token.kind = .pictureString ∨ scan .sentence cursor.rest = (token.kind, token.text.length) := by
  have found := scan_of_next? h
  rcases suits with picture | trivial | sentence | ⟨word, digits⟩
  · exact .inl picture
  · right
    have shared : (scan context.mode cursor.rest).1.isTrivia = true := by rwa [found]
    have word := scan_eq_of_shared (.inr shared)
    rw [word, ← isTrivia_scan_sentence] at shared
    rw [scan_eq_of_shared (.inr shared), ← word, found]
  · rw [context_of_next? h] at sentence
    rw [sentence] at found
    exact .inr found
  · right
    rw [context_of_next? h] at word
    rw [word] at found
    have text : token.text = cursor.rest.take token.text.length := by
      rw [rest_eq_of_next? h, List.take_left]
    have same : scan .sentence cursor.rest = scan .word cursor.rest := by
      refine scan_sentence_of_letters fun isWord => ?_
      rw [found] at isWord ⊢
      rw [← text]
      exact digits isWord
    rw [same, found]

/-- Tokens that suit sentences are tokens of sentences, whatever stands behind the last of them. -/
theorem Reads.inSentences (reads : cursor.Reads tokens last)
    (suits : ∀ token ∈ tokens, token.SuitsSentence) : InSentences (Token.lexemes tokens) := by
  induction reads with
  | nil => exact .nil
  | @cons context cursor after last token tokens read reads ih =>
      obtain ⟨first, others⟩ := List.forall_mem_cons.mp suits
      refine .cons (text_ne_nil_of_next? read) ?_ (ih others)
      refine (scan_sentence_of_suits read first).imp_right fun found => ?_
      have rest : cursor.rest =
          (token.text ++ Lexeme.textOf (Token.lexemes tokens)) ++ last.rest := by
        rw [rest_eq_of_next? read, reads.rest_eq, List.append_assoc]
      have cut : cursor.rest.take (token.text ++ Lexeme.textOf (Token.lexemes tokens)).length =
          token.text ++ Lexeme.textOf (Token.lexemes tokens) := by rw [rest, List.take_left]
      have within : (scan .sentence cursor.rest).2 ≤
          (token.text ++ Lexeme.textOf (Token.lexemes tokens)).length := by
        rw [found, List.length_append]
        exact Nat.le_add_right _ _
      have same := scan_take (.inr rfl) within
      rw [cut, found] at same
      exact same

end Cursor

/-! ### Productions -/

namespace Production

variable {α σ : Type} {context : Context} {cursor : Cursor}

theorem suits_trivia (context : Context) (cursor : Cursor) :
    ∀ token ∈ (trivia context cursor).tokens, token.SuitsSentence :=
  fun token mem => .inr (.inl (isTrivia_of_mem_trivia context cursor token mem))

theorem suits_bump
    (h : ∀ token after, cursor.next? context = some (token, after) → token.SuitsSentence) :
    ∀ token ∈ (bump context cursor).tokens, token.SuitsSentence := by
  intro token mem
  cases read : cursor.next? context with
  | none => simp [bump, read] at mem
  | some found =>
      rw [tokens_bump read, List.mem_singleton] at mem
      rw [mem]
      exact h found.1 found.2 read

theorem suits_bumpSignificant
    (h : ∀ token after, cursor.significant? context = some (token, after) →
      token.SuitsSentence) :
    ∀ token ∈ (bumpSignificant context cursor).tokens, token.SuitsSentence := by
  intro token mem
  rcases List.mem_append.mp mem with blank | behind
  · exact suits_trivia context cursor token blank
  · exact suits_bump (fun token after read => h token after (next?_trivia context cursor ▸ read))
      token behind

theorem suits_eatIf {test : Token → Bool}
    (h : ∀ token after, cursor.significant? context = some (token, after) → test token = true →
      token.SuitsSentence) :
    ∀ token ∈ (eatIf context test cursor).tokens, token.SuitsSentence := by
  intro token mem
  rcases eatIf_cases context test cursor with still | ⟨first, after, read, passes, eaten⟩
  · rw [still] at mem
    cases mem
  · rw [eaten] at mem
    refine suits_bumpSignificant (fun other behind again => ?_) token mem
    cases read.symm.trans again
    exact h first after read passes

theorem suits_repeating {round : σ → Production (ForInStep σ)}
    (each : ∀ state cursor, ∀ token ∈ (round state cursor).tokens, token.SuitsSentence) (state : σ)
    (cursor : Cursor) : ∀ token ∈ (repeating round state cursor).tokens, token.SuitsSentence := by
  fun_induction repeating round state cursor with
  | case1 state cursor first final h => exact each state cursor
  | case2 state cursor first next h shorter ih =>
      intro token mem
      exact (List.mem_append.mp mem).elim (each state cursor token) (ih token)
  | case3 state cursor first next h same => exact each state cursor

theorem suits_of_mode (mode : context.mode = .sentence) {token : Token} {after : Cursor}
    (read : cursor.next? context = some (token, after)) : token.SuitsSentence := by
  refine .inr (.inr (.inl ?_))
  rw [Cursor.context_of_next? read, mode]

theorem suits_of_word (mode : context.mode = .word) {token : Token} {after : Cursor}
    (read : cursor.significant? context = some (token, after))
    (digits : token.kind = .word → token.text.all Char.isDigit = false) :
    token.SuitsSentence := by
  refine .inr (.inr (.inr ⟨?_, digits⟩))
  rw [Cursor.context_of_next? ((next?_trivia context cursor).trans read), mode]

theorem suits_expectPeriod (mode : context.mode = .word) (site : PeriodSite) (cursor : Cursor) :
    ∀ token ∈ (expectPeriod context site cursor).tokens, token.SuitsSentence := by
  have eaten : ∀ token ∈ (eatIf context (·.kind == .dot) cursor).tokens, token.SuitsSentence := by
    refine suits_eatIf fun token after read period => suits_of_word mode read fun word => ?_
    rw [word] at period
    cases period
  intro token mem
  simp only [expectPeriod, bind_apply, Outcome.tokens_andThen] at mem
  rcases List.mem_append.mp mem with front | behind
  · exact eaten token front
  · revert behind
    cases (eatIf context (·.kind == .dot) cursor).value with
    | none => simp
    | some period => simp

theorem suits_pictureOperand (mode : context.mode = .sentence) (cursor : Cursor) :
    ∀ token ∈ (pictureOperand context cursor).tokens, token.SuitsSentence := by
  have word : ∀ token ∈ (eatWord context "IS".toList cursor).tokens, token.SuitsSentence :=
    suits_eatIf fun token after read _ =>
      suits_of_mode mode ((next?_trivia context cursor).trans read)
  intro token mem
  simp only [pictureOperand, bind_apply, Outcome.tokens_andThen, here_apply,
    Outcome.tokens_still, List.nil_append, Outcome.value_still, Outcome.next_still] at mem
  rcases List.mem_append.mp mem with front | behind
  · exact word token front
  · rcases List.mem_append.mp behind with blank | picture
    · exact suits_trivia .pictureString _ token blank
    · revert picture
      cases peeked : Cursor.peek? .pictureString _ with
      | none => simp
      | some found =>
          by_cases isPicture : found.kind = .pictureString
          · simp only [if_pos isPicture, bind_apply, Outcome.tokens_andThen, pure_apply,
              Outcome.tokens_still, List.append_nil]
            refine suits_bump (fun other after read => ?_) token
            simp only [Cursor.peek?, read, Option.map_some, Option.some.injEq] at peeked
            rw [peeked]
            exact .inl isPicture
          · simp [if_neg isPicture]

theorem suits_sentenceRound (mode : context.mode = .sentence) (pictures : Bool)
    (state : SentenceState) (cursor : Cursor) :
    ∀ token ∈ (sentenceRound context pictures state cursor).tokens, token.SuitsSentence := by
  have bumped : ∀ token ∈ (bump context cursor).tokens, token.SuitsSentence :=
    suits_bump fun token after read => suits_of_mode mode read
  rcases sentenceRound_cases context pictures state cursor with
    same | ⟨token, after, read, ⟨-, same⟩ | ⟨-, -, ⟨-, same⟩ | ⟨-, same⟩⟩⟩
  · rw [same]
    nofun
  · rw [same]
    exact bumped
  · rw [same]
    exact bumped
  · rw [same]
    intro other mem
    rcases List.mem_append.mp mem with front | behind
    · exact bumped other front
    · revert behind
      split
      · exact suits_pictureOperand mode _ other
      · nofun

theorem suits_sentence (mode : context.mode = .sentence) (kind : Kind) (pictures : Bool)
    (cursor : Cursor) :
    ∀ token ∈ (sentence context kind pictures cursor).tokens, token.SuitsSentence := by
  have rounds := suits_repeating (suits_sentenceRound mode pictures) .empty cursor
  intro token mem
  rcases List.mem_append.mp mem with front | behind
  · exact rounds token front
  · simp only [ite_apply] at behind
    split at behind <;> simp at behind

theorem suits_entries {context : Context} (mode : context.mode = .word) (pictures : Bool)
    (cursor : Cursor) :
    ∀ token ∈ (entries context pictures cursor).tokens, token.SuitsSentence := by
  rw [entries, rounds_eq_repeating context (fun _ => faithful_entryRound context pictures)
    (advances_entryRound mode pictures)]
  refine suits_repeating (fun _ cursor token mem => ?_) () cursor
  rw [entryRound_apply] at mem
  rcases List.mem_append.mp mem with blank | behind
  · exact suits_trivia context cursor token blank
  · revert behind
    split
    · intro none
      cases none
    · exact suits_sentence rfl .sentence pictures _ token

/-- Words that are the same in any case are words of digits together. -/
theorem all_isDigit_of_sameWord {s t : Text} (same : Text.sameWord s t = true) :
    s.all Char.isDigit = t.all Char.isDigit := by
  have digits := map_of_sameWord caseless_isDigit same
  have all (text : Text) : text.all Char.isDigit = (text.map Char.isDigit).all id := by
    rw [List.all_map]
    rfl
  rw [all, digits, ← all]

/-- A word that reads as a keyword is no word of digits. -/
theorem all_isDigit_of_isWord {lexeme : Lexeme} {word : Text} (h : lexeme.isWord word = true)
    (other : word.all Char.isDigit = false) : lexeme.text.all Char.isDigit = false :=
  (all_isDigit_of_sameWord (Bool.and_eq_true_iff.mp h).2).trans other

theorem suits_divisionHeader {division : Division} (other : division ≠ .procedure)
    (h : cursor.divisionHeader? = some division) :
    ∀ token ∈ (divisionHeader division cursor).tokens, token.SuitsSentence := by
  obtain ⟨name, word, ahead, isName, isDivision, found⟩ := Cursor.divisionHeader?_eq_some_iff.mp h
  obtain ⟨middle, after, first, second⟩ := Cursor.ahead_two_eq_iff.mp ahead
  have mode := mode_context division
  have named : ∀ token ∈ (bumpSignificant division.context cursor).tokens,
      token.SuitsSentence := by
    refine suits_bumpSignificant fun token after read => suits_of_word mode read fun _ => ?_
    have same := Cursor.significant?_of_mode first (mode_context division).symm
    cases same.symm.trans read
    by_contra digits
    have plain : name.isBoundaryWord = false :=
      Lexeme.isBoundaryWord_of_digits (Bool.not_eq_false _ ▸ digits)
    simp [Lexeme.isBoundaryWord, isName, found] at plain
  have worded (cursor : Cursor) : ∀ token ∈ (eatWord division.context "DIVISION".toList
      cursor).tokens, token.SuitsSentence :=
    suits_eatIf fun token after read isWord =>
      suits_of_word mode read fun _ => all_isDigit_of_isWord isWord (by decide)
  intro token mem
  simp only [divisionHeader, bind_apply, Outcome.tokens_andThen, if_neg other, pure_apply,
    Outcome.tokens_still, List.append_nil] at mem
  rcases List.mem_append.mp mem with front | behind
  · exact named token front
  · rcases List.mem_append.mp behind with middle | last
    · exact worded _ token middle
    · exact suits_expectPeriod mode _ _ token last

variable (settings : Settings)

/-- The divisions that are sentences behind a header. -/
theorem suits_division {division : Division}
    (sort : division = .environment ∨ division = .data)
    (h : cursor.divisionHeader? = some division) :
    ∀ token ∈ (Production.division settings division cursor).tokens, token.SuitsSentence := by
  intro token mem
  have other : division ≠ .procedure := by rcases sort with rfl | rfl <;> decide
  rcases List.mem_append.mp mem with front | behind
  · exact suits_divisionHeader other h token front
  · rcases sort with rfl | rfl
    · simp only [divisionBody, bind_apply, Outcome.tokens_andThen, pure_apply,
        Outcome.tokens_still, List.append_nil] at behind
      exact suits_entries rfl false _ token behind
    · simp only [divisionBody, bind_apply, Outcome.tokens_andThen, pure_apply,
        Outcome.tokens_still, List.append_nil] at behind
      exact suits_entries rfl true _ token behind

end Production

end CobolTree
