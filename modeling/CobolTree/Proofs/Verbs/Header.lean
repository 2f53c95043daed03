import CobolTree.Proofs.Agreement.Sentences
import CobolTree.Proofs.Production.Conformance

/-!
Another statement verb. Where the header of a paragraph stands whose name is made a verb, a sentence
is read: the name and the period behind it, which are the same tokens in either mode
(`retraces_sentence`), unless the name is a word of digits. So the sentence ends where the header
did, and neither reports anything.
-/

namespace CobolTree

open Scan

/-! ### Verbs -/

namespace Settings

variable {settings : Settings} {word : Text}

/-- The settings with another statement verb. -/
def addVerb (word : Text) (settings : Settings) : Settings :=
  { settings with statementVerbs := settings.statementVerbs ++ [word] }

theorem isStatementVerb_addVerb (name : Text) :
    (settings.addVerb word).isStatementVerb name =
      (settings.isStatementVerb name || Text.sameWord word name) := by
  simp [isStatementVerb, addVerb]

end Settings

namespace Cursor

variable {settings : Settings} {word : Text} {cursor : Cursor} {name period : Token}

/-- Another verb takes the headers of paragraphs that go by it, and no others. -/
theorem atParagraphHeader_addVerb (ahead : cursor.ahead .paragraphHeader 2 = [name, period]) :
    cursor.atParagraphHeader (settings.addVerb word) =
      (cursor.atParagraphHeader settings && !Text.sameWord word name.text) := by
  simp only [atParagraphHeader, ahead, Settings.isStatementVerb_addVerb, Bool.not_or,
    Bool.and_assoc]

/-- Another verb makes no header. -/
theorem atParagraphHeader_of_addVerb
    (h : cursor.atParagraphHeader (settings.addVerb word) = true) :
    cursor.atParagraphHeader settings = true := by
  obtain ⟨name, period, ahead, -⟩ := atParagraphHeader_iff.mp h
  rw [atParagraphHeader_addVerb ahead] at h
  exact (Bool.and_eq_true_iff.mp h).1

end Cursor

/-! ### Tokens in whatever context -/

/-- A token without the context it was read in. -/
def Token.placed (token : Token) : Lexeme × Position := (token.toLexeme, token.position)

@[simp] theorem Token.placed_inContext (token : Token) (context : Context) :
    (token.inContext context).placed = token.placed := rfl

theorem Token.lexemes_of_placed {tokens others : List Token}
    (same : others.map Token.placed = tokens.map Token.placed) :
    Token.lexemes others = Token.lexemes tokens := by
  have first := congrArg (List.map Prod.fst) same
  rw [List.map_map, List.map_map] at first
  exact first

/-- The second of two outcomes reads the same tokens, in whatever contexts, and reports the same. -/
structure Outcome.Retraces {α β : Type} (first : Outcome α) (second : Outcome β) : Prop where
  tokens : second.tokens.map Token.placed = first.tokens.map Token.placed
  reports : second.reports = first.reports
  next : second.next = first.next

namespace Outcome.Retraces

variable {α β γ δ : Type} {first : Outcome α} {second : Outcome β} {third : Outcome γ}
  {fourth : Outcome δ}

theorem refl (first : Outcome α) : first.Retraces first := ⟨rfl, rfl, rfl⟩

theorem symm (h : first.Retraces second) : second.Retraces first :=
  ⟨h.tokens.symm, h.reports.symm, h.next.symm⟩

theorem trans (h : first.Retraces second) (k : second.Retraces third) : first.Retraces third :=
  ⟨k.tokens.trans h.tokens, k.reports.trans h.reports, k.next.trans h.next⟩

theorem andThen (h : first.Retraces second) (k : third.Retraces fourth) :
    (first.andThen third).Retraces (second.andThen fourth) where
  tokens := by simp [h.tokens, k.tokens]
  reports := by simp [Outcome.andThen, h.reports, k.reports]
  next := k.next

theorem withValue (h : first.Retraces second) (value : γ) (other : δ) :
    (first.withValue value).Retraces (second.withValue other) :=
  ⟨h.tokens, h.reports, h.next⟩

theorem under (h : first.Retraces second) (kind other : Kind) :
    (first.under kind).Retraces (second.under other) :=
  ⟨h.tokens, h.reports, h.next⟩

end Outcome.Retraces

namespace Cursor

variable {context : Context} {cursor after : Cursor} {token : Token}

/-- Sentences read a token that suits them as it is. -/
theorem next?_sentence (h : cursor.next? context = some (token, after))
    (suits : token.SuitsSentence) (other : token.kind ≠ .pictureString) :
    cursor.next? .sentence = some (token.inContext .sentence, after) := by
  have found := (scan_sentence_of_suits h suits).resolve_left other
  have same : scan .sentence cursor.rest = scan context.mode cursor.rest := by
    rw [found, scan_of_next? h]
  have mode : Context.sentence.mode = .sentence := rfl
  unfold next? at h ⊢
  split at h
  · cases h
  · rename_i left
    rw [← same] at h
    simp only [Option.some.injEq, Prod.mk.injEq] at h
    obtain ⟨rfl, rfl⟩ := h
    rw [if_neg left]
    rfl

end Cursor

namespace Production

variable {context : Context} {cursor after : Cursor} {token : Token}

theorem retraces_bump (h : cursor.next? context = some (token, after))
    (suits : token.SuitsSentence) (other : token.kind ≠ .pictureString) :
    (bump context cursor).Retraces (bump .sentence cursor) := by
  have read := Cursor.next?_sentence h suits other
  constructor
  · simp [tokens_bump h, tokens_bump read]
  · simp only [bump, h, read]
    rfl
  · rw [next_bump h, next_bump read]

/-- Sentences read blanks and comments as they are. -/
theorem retraces_trivia (word : context.mode = .word) (cursor : Cursor) :
    (trivia context cursor).Retraces (trivia .sentence cursor) := by
  fun_induction Cursor.significant? context cursor with
  | case1 cursor h =>
      have ends : cursor.next? .sentence = none :=
        Cursor.next?_eq_none_iff.mpr (Cursor.next?_eq_none_iff.mp h)
      rw [trivia_of_end h, trivia_of_end ends]
      exact .refl _
  | case2 cursor token after h shorter trivial ih =>
      have other : token.kind ≠ .pictureString := by
        intro picture
        simp [Lexeme.isTrivia, picture, Kind.isTrivia] at trivial
      have suits : token.SuitsSentence := .inr (.inl trivial)
      have read := Cursor.next?_sentence h suits other
      rw [trivia_of_trivia h trivial, trivia_of_trivia read trivial]
      exact (retraces_bump h suits other).andThen ih
  | case3 cursor token after h shorter carries =>
      have carries : token.isTrivia = false := by simpa using carries
      have atToken : cursor.AtToken := ⟨_, _, Cursor.next?_of_mode h word, carries⟩
      obtain ⟨other, behind, read, also⟩ :
          ∃ token after, cursor.next? .sentence = some (token, after) ∧ token.isTrivia = false :=
        atToken.exists_next? (.inr rfl)
      rw [trivia_of_carries h carries, trivia_of_carries read also]
      exact .refl _

/-! ### Sentences -/

/-- A sentence takes the blanks and comments that it comes to, one by one. -/
theorem repeating_sentenceRound_of_trivia (context : Context) (pictures : Bool)
    (state : SentenceState) (cursor : Cursor) :
    repeating (sentenceRound context pictures) state cursor =
      (trivia context cursor).andThen
        (repeating (sentenceRound context pictures) state (trivia context cursor).next) := by
  fun_induction Cursor.significant? context cursor with
  | case1 cursor h => simp [trivia_of_end h]
  | case2 cursor token after h shorter trivial ih =>
      have round := sentenceRound_of_trivia h pictures state trivial
      have goesOn : (sentenceRound context pictures state cursor).value = .yield state := by
        simp [round]
      have less : (sentenceRound context pictures state cursor).next.rest.length <
          cursor.rest.length := by simpa [round, next_bump h] using shorter
      rw [repeating_of_yield goesOn less, trivia_of_trivia h trivial, round]
      simp only [Outcome.next_withValue, next_bump h, Outcome.next_andThen,
        Outcome.withValue_andThen]
      rw [ih]
      simp [Outcome.andThen]
  | case3 cursor token after h shorter carries =>
      simp [trivia_of_carries h (by simpa using carries)]

/-- A period begins no header. -/
theorem not_atHeader_of_period (found : cursor.significant? .programUnit = some (token, after))
    (isPeriod : token.kind = .dot) : cursor.atHeader = false := by
  apply Bool.eq_false_iff.mpr
  intro header
  obtain ⟨word, rest, first, boundary⟩ := Cursor.isBoundaryWord_of_atHeader header
  cases found.symm.trans first
  simp [Lexeme.isBoundaryWord, isPeriod] at boundary

/-! ### Headers of paragraphs -/

section Header

variable {middle : Cursor} {name period : Token}
  (read : cursor.next? .paragraphHeader = some (name, middle)) (carries : name.isTrivia = false)
  (behind : middle.significant? .paragraphHeader = some (period, after))
  (ends : (period.kind == .dot) = true)

include read carries behind ends

/-- The header of a paragraph is its name and its period, with blanks and comments between. -/
theorem paragraphHeader_eq :
    paragraphHeader cursor =
      ((bump .paragraphHeader cursor).andThen ((trivia .paragraphHeader middle).andThen
        (bump .paragraphHeader (trivia .paragraphHeader middle).next))).withValue () := by
  have eaten : eatIf .paragraphHeader (·.kind == .dot) middle =
      bumpSignificant .paragraphHeader middle := eatIf_of_test behind ends
  have first : bumpSignificant .paragraphHeader cursor = bump .paragraphHeader cursor := by
    simp only [bumpSignificant, bind_apply, trivia_of_carries read carries]
    rfl
  have second : expectPeriod .paragraphHeader .paragraphName middle =
      (bumpSignificant .paragraphHeader middle).withValue (some period) := by
    simp only [expectPeriod, bind_apply, eaten, value_bumpSignificant behind]
    exact Outcome.andThen_still _ _
  simp only [paragraphHeader, bind_apply, first, next_bump read, second]
  simp [bumpSignificant, Outcome.andThen, Outcome.withValue, Outcome.still]

/-- At a word other than one of digits with a period behind it, the rounds of a sentence take both. -/
theorem repeating_sentenceRound_of_name (isName : name.kind = .word)
    (named : name.text.all Char.isDigit = false) :
    repeating (sentenceRound .sentence false) .empty cursor =
      ((bump .sentence cursor).andThen ((trivia .sentence middle).andThen
        (bump .sentence (trivia .sentence middle).next))).withValue .terminated := by
  let blanks := (trivia .sentence middle).next
  have same : blanks = (trivia .paragraphHeader middle).next :=
    (retraces_trivia rfl middle).next
  have isPeriod : period.kind = .dot := eq_of_beq ends
  have notTrivial : period.isTrivia = false := Cursor.isTrivia_of_significant? behind
  have nameRead : cursor.next? .sentence = some (name.inContext .sentence, middle) := by
    have suits := suits_of_word rfl (Cursor.significant?_of_next? read carries) fun _ => named
    exact Cursor.next?_sentence read suits (by simp [isName])
  have periodRead : blanks.next? .sentence = some (period.inContext .sentence, after) := by
    have suits : period.SuitsSentence := suits_of_word rfl behind (by simp [isPeriod])
    rw [same]
    exact Cursor.next?_sentence ((next?_trivia _ middle).trans behind) suits (by simp [isPeriod])
  have free : blanks.atHeader = false := by
    have found : blanks.significant? .programUnit = some (period.inContext .programUnit, after) := by
      rw [same, significant?_trivia]
      exact Cursor.significant?_of_mode behind rfl
    exact not_atHeader_of_period found isPeriod
  have begins : sentenceRound .sentence false .empty cursor =
      (bump .sentence cursor).withValue (.yield .begun) := by
    rw [sentenceRound_of_token nameRead carries (by simp) (by simp [isName])]
    simp
  have stops : sentenceRound .sentence false .begun blanks =
      (bump .sentence blanks).withValue (.done .terminated) :=
    sentenceRound_of_period periodRead false notTrivial (by simp [free]) isPeriod
  have goesOn : (sentenceRound .sentence false .empty cursor).value = .yield .begun := by
    rw [begins]
    rfl
  have less : (sentenceRound .sentence false .empty cursor).next.rest.length <
      cursor.rest.length := by
    rw [begins, Outcome.next_withValue, next_bump nameRead]
    exact Cursor.shorter_of_next? nameRead
  have done : (sentenceRound .sentence false .begun blanks).value = .done .terminated := by
    rw [stops]
    rfl
  rw [repeating_of_yield goesOn less, begins, Outcome.next_withValue, next_bump nameRead,
    repeating_sentenceRound_of_trivia, repeating_of_done done, stops]
  rfl

/-- Such a word and its period are a whole sentence. -/
theorem sentence_eq (isName : name.kind = .word) (named : name.text.all Char.isDigit = false) :
    sentence .sentence .sentence false cursor =
      (((bump .sentence cursor).andThen ((trivia .sentence middle).andThen
        (bump .sentence (trivia .sentence middle).next))).withValue ()).under .sentence := by
  let rounds := repeating (sentenceRound .sentence false) .empty cursor
  have loop : rounds = _ := repeating_sentenceRound_of_name read carries behind ends isName named
  have whole : sentence .sentence .sentence false cursor =
      (rounds.andThen ((if rounds.value = .begun ∧ Kind.sentence = .sentence then
        reportHere (.missingPeriod .sentence) else pure () : Production Unit)
          rounds.next)).under .sentence := rfl
  rw [whole, loop]
  exact congrArg (Outcome.under .sentence) (Outcome.andThen_still _ ())

/-- Where the name of a paragraph is made a verb, the sentence that is read in place of the header
reads the same tokens. -/
theorem retraces_sentence (isName : name.kind = .word)
    (named : name.text.all Char.isDigit = false) :
    (paragraphHeader cursor).Retraces (sentence .sentence .sentence false cursor) := by
  have suits := suits_of_word rfl (Cursor.significant?_of_next? read carries) fun _ => named
  have first := retraces_bump read suits (by simp [isName])
  have isPeriod : period.kind = .dot := eq_of_beq ends
  have blanks : (trivia .paragraphHeader middle).Retraces (trivia .sentence middle) :=
    retraces_trivia rfl middle
  have second := retraces_bump ((next?_trivia .paragraphHeader middle).trans behind)
    (suits_of_word rfl behind (by simp [isPeriod])) (by simp [isPeriod])
  rw [paragraphHeader_eq read carries behind ends,
    sentence_eq read carries behind ends isName named, blanks.next]
  have both := first.andThen (blanks.andThen second)
  exact ⟨both.tokens, both.reports, both.next⟩

end Header

end Production

end CobolTree
