import CobolTree.Production.ProgramUnit
import CobolTree.Proofs.Token.Placement

/-!
What a text tells of itself inside another one. Where `Placement.Foresees` holds, all headers are
the same in the text and in the whole, since the two tokens that make a header stand in the text.
Foresight is handed back over whatever is read: over a token of word mode, over a number
(`Placement.Foresees.of_number`), and over a line of free text (`Placement.Foresees.of_line`), whose
words, read one by one, end where the line ends.
-/

namespace CobolTree

namespace Cursor

/-- A character that begins no filler begins a token that carries meaning. -/
theorem exists_significant?_of_isSolid (cursor : Cursor) {c : Char} {rest : Text}
    (text : cursor.rest = c :: rest) (solid : Input.isSolid c = true) :
    ∃ token after, cursor.significant? .programUnit = some (token, after) := by
  have left : cursor.rest ≠ [] := by simp [text]
  have read := next?_of_rest left .programUnit
  refine ⟨_, _, significant?_of_next? read (Bool.eq_false_iff.mpr fun trivial => ?_)⟩
  have filler : IsFiller (fun _ => True) 0 _ :=
    (legible_of_next? read).isFiller trivial fun _ => True.intro
  have split := rest_eq_of_next? read
  obtain ⟨d, others, same⟩ := List.exists_cons_of_ne_nil (text_ne_nil_of_next? read)
  rw [same] at filler split
  rw [text, List.cons_append] at split
  obtain ⟨rfl, -⟩ := List.cons.inj split
  simp [filler.not_isSolid] at solid

/-- A test of two tokens that the first one fails is failed whatever the second one is. -/
theorem ahead_two_of_fails {α : Type} {test : Token → Token → α} {otherwise : α}
    {context : Context} {cursor middle : Cursor} {first : Token}
    (h : cursor.significant? context = some (first, middle))
    (fails : ∀ second, test first second = otherwise) :
    (match cursor.ahead context 2 with
      | [first, second] => test first second
      | _ => otherwise) = otherwise := by
  cases k : middle.significant? context with
  | none => simp [ahead, h, k]
  | some second => simp [ahead, h, k, fails]

/-- Free text goes up to the end of the line. -/
theorem text_of_commentEntry {cursor after : Cursor} {token : Token}
    (h : cursor.next? .commentEntry = some (token, after)) (entry : token.kind = .commentEntry) :
    token.text = Scan.line cursor.rest := by
  unfold next? at h
  split at h
  · cases h
  · simp only [Option.some.injEq, Prod.mk.injEq] at h
    obtain ⟨rfl, -⟩ := h
    simp only [Scan.scan] at entry ⊢
    split at entry
    · cases entry
    · rename_i blanks
      rw [if_neg blanks]
      exact Scan.take_length_takeWhile _ _

end Cursor

/-- In sentence mode a number may go on behind the word of digits that word mode finds: with a
period. -/
theorem Scan.scan_sentence_cases (text : Text) :
    scan .sentence text = scan .word text ∨
      (scan .word text).1 = .word ∧
        ((scan .sentence text).2 = (scan .word text).2 ∨
          ∃ rest, text.drop (scan .word text).2 = '.' :: rest) := by
  unfold scan
  simp only
  split
  · exact .inl rfl
  · rcases Cursor.scanSentence_cases text with same | ⟨word, -⟩
    · exact .inl same
    · refine .inr ⟨word, ?_⟩
      simp only [scanSentence]
      split
      · simp only [fractionLength]
        split
        · rename_i rest point
          exact .inr ⟨rest, point⟩
        · exact .inl rfl
      · exact .inl rfl

theorem Lexeme.isWord_of_not_word {lexeme : Lexeme} (other : lexeme.kind ≠ .word) (word : Text) :
    lexeme.isWord word = false := by
  simp [Lexeme.isWord, other]

namespace Production

variable {token : Token} (picture : isPictureWord token = true)

include picture

theorem upper_of_isPictureWord :
    token.text.upper = Text.upper "PIC".toList ∨ token.text.upper = Text.upper "PICTURE".toList := by
  simp only [isPictureWord, Bool.or_eq_true, Lexeme.isWord, Bool.and_eq_true, Text.sameWord,
    beq_iff_eq] at picture
  exact picture.imp And.right And.right

/-- The word that asks for a picture string is no other word. -/
theorem isWord_of_isPictureWord {word : Text} (other : Text.sameWord "PIC".toList word = false ∧
    Text.sameWord "PICTURE".toList word = false) : token.isWord word = false := by
  unfold Text.sameWord at other
  rw [Lexeme.isWord, Text.sameWord]
  rcases upper_of_isPictureWord picture with same | same
  · rw [same, other.1, Bool.and_false]
  · rw [same, other.2, Bool.and_false]

theorem ofHeaderWord?_of_isPictureWord : Division.ofHeaderWord? token.text = none := by
  unfold Division.ofHeaderWord? Text.sameWord
  rcases upper_of_isPictureWord picture with same | same
  · rw [same]
    decide
  · rw [same]
    decide

end Production

namespace Placement

open Production

variable {place : Placement} {pictures : Bool} {cursor after : Cursor} {token : Token}
  {context : Context}

/-! ### Handing foresight back -/

/-- Two tokens that stand in the text are foreseen. -/
theorem Foresees.of_two {second : Token} {behind : Cursor} (apart : place.Apart cursor)
    (word : context.mode = .word) (first : cursor.significant? context = some (token, after))
    (next : after.significant? context = some (second, behind)) :
    place.Foresees pictures cursor := by
  have mode : context.mode = Context.programUnit.mode := word
  rcases apart with alone | ends
  · exact .inl alone
  · exact .inr ⟨ends, _, _, Cursor.significant?_of_mode first mode, fun _ =>
      .inr ⟨_, _, Cursor.significant?_of_mode next mode⟩⟩

/-- A token that is no word is foreseen by itself. -/
theorem Foresees.of_mark (apart : place.Apart cursor) (word : context.mode = .word)
    (first : cursor.significant? context = some (token, after)) (mark : token.kind ≠ .word) :
    place.Foresees pictures cursor := by
  rcases apart with alone | ends
  · exact .inl alone
  · exact .inr ⟨ends, _, _, Cursor.significant?_of_mode first word, fun named =>
      absurd named mark⟩

/-- A token of word mode hands foresight back: it is the next one, and another one is seen. -/
theorem Foresees.of_word (word : context.mode = .word)
    (h : cursor.next? context = some (token, after)) (foresees : place.Foresees pictures after) :
    place.Foresees pictures cursor := by
  rcases foresees with alone | ⟨ends, second, behind, found, more⟩
  · exact .inl alone
  · have line : Scan.EndsLine cursor.rest := ends.trans (Cursor.suffix_of_next? h)
    have mode : context.mode = Context.programUnit.mode := word
    have alike := Cursor.next?_of_mode h mode
    refine .inr ⟨line, ?_⟩
    cases trivial : token.isTrivia with
    | true =>
        have skipped := Cursor.significant?_of_trivia alike trivial
        exact ⟨second, behind, skipped.trans found, more⟩
    | false =>
        have first := Cursor.significant?_of_next? alike trivial
        exact ⟨_, after, first, fun _ => .inr ⟨second, behind, found⟩⟩

/-- A token of sentence mode does so, too. If it is a number with a fraction, the point is seen
behind its first digits. -/
theorem Foresees.of_number (sentence : context.mode = .sentence)
    (h : cursor.next? context = some (token, after)) (foresees : place.Foresees pictures after) :
    place.Foresees pictures cursor := by
  have left := Cursor.rest_ne_nil_of_next? h
  have read := Cursor.next?_of_rest left .programUnit
  rw [Cursor.next?_of_rest left, sentence] at h
  simp only [Option.some.injEq, Prod.mk.injEq] at h
  obtain ⟨-, rfl⟩ := h
  rcases Scan.scan_sentence_cases cursor.rest with same | ⟨word, same | ⟨rest, point⟩⟩
  · rw [same] at foresees
    exact foresees.of_word rfl read
  · rw [same] at foresees
    exact foresees.of_word rfl read
  · rcases foresees with alone | ⟨ends, -⟩
    · exact .inl alone
    · have carries : (Scan.scan .word cursor.rest).1.isTrivia = false := by
        rw [word]
        rfl
      obtain ⟨second, behind, found⟩ := Cursor.exists_significant?_of_isSolid
        ⟨cursor.position.advance (cursor.rest.take (Scan.scan .word cursor.rest).2),
          cursor.rest.drop (Scan.scan .word cursor.rest).2⟩ point rfl
      exact .inr ⟨ends.trans (List.drop_suffix _ _), _, _,
        Cursor.significant?_of_next? read carries, fun _ => .inr ⟨second, behind, found⟩⟩

/-- The words of a line, read one by one, end where the line ends, so free text hands foresight
back. -/
theorem Foresees.of_line {start stop : Cursor}
    (split : start.rest = Scan.line start.rest ++ stop.rest)
    (moved : stop.position = start.position.advance (Scan.line start.rest))
    (foresees : place.Foresees pictures stop) : place.Foresees pictures start := by
  by_cases inline : Scan.line start.rest = []
  · rw [inline] at split moved
    have same : start = stop := by
      cases start
      cases stop
      simp_all
    rwa [same]
  · have left : start.rest ≠ [] := by
      intro empty
      exact inline (by rw [empty]; rfl)
    have read := Cursor.next?_of_rest left .programUnit
    have within := Scan.scan_le_length_line .word inline
    have behind := Scan.line_drop within
    refine Foresees.of_word rfl read (Foresees.of_line ?_ ?_ foresees)
    · have cut : (Scan.line start.rest ++ stop.rest).drop (Scan.scan .word start.rest).2 =
          (Scan.line start.rest).drop (Scan.scan .word start.rest).2 ++ stop.rest :=
        List.drop_append_of_le_length within
      rw [← split, ← behind] at cut
      exact cut
    · have whole : start.rest.take (Scan.scan .word start.rest).2 ++
          Scan.line (start.rest.drop (Scan.scan .word start.rest).2) = Scan.line start.rest := by
        rw [behind, ← Scan.take_line within, List.take_append_drop]
      rw [moved, ← whole, Position.advance_append]
      rfl
termination_by (Scan.line start.rest).length
decreasing_by
  have some := Scan.scan_pos .word left
  have shorter : (Scan.line (start.rest.drop (Scan.scan .word start.rest).2)).length <
      (Scan.line start.rest).length := by
    rw [behind, List.length_drop]
    omega
  exact shorter

/-- Whatever is read, but for picture strings, hands foresight back. -/
theorem Foresees.of_next? (mode : context.mode ≠ .picture)
    (h : cursor.next? context = some (token, after)) (foresees : place.Foresees pictures after) :
    place.Foresees pictures cursor := by
  cases found : context.mode with
  | word => exact foresees.of_word found h
  | sentence => exact foresees.of_number found h
  | picture => exact absurd found mode
  | commentEntry =>
      have alike := Cursor.next?_of_mode h (found.trans (rfl : _ = Context.commentEntry.mode))
      rcases Cursor.kind_of_commentEntry alike with blank | entry
      · have trivial : token.isTrivia = true := by
          rw [Lexeme.isTrivia, show token.kind = .whitespace from blank]
          rfl
        exact foresees.of_word rfl (Cursor.next?_of_shared h (.inr trivial))
      · have line := Cursor.text_of_commentEntry alike entry
        refine foresees.of_line ?_ ?_
        · rw [← line]
          exact Cursor.rest_eq_of_next? alike
        · rw [← line]
          exact (Cursor.place_of_next? alike).2

/-! ### Headers -/

theorem ofHeaderWord?_text (word : Text) :
    Division.ofHeaderWord? (place.text word) = Division.ofHeaderWord? word := by
  simp only [Division.ofHeaderWord?, Recasing.sameWord_text_left]

@[simp] theorem isPictureWord_token (token : Token) :
    isPictureWord (place.token token) = isPictureWord token := by
  simp [isPictureWord]

theorem Apart.atEnd (apart : place.Apart cursor) : (place.cursor cursor).atEnd = cursor.atEnd :=
  apart.isEmpty

theorem significant?_map_cursor (sees : place.Sees cursor) (context : Context) :
    ((place.cursor cursor).significant? context).map (·.1) =
      ((cursor.significant? context).map (·.1)).map place.token := by
  rw [significant?_cursor sees, Option.map_map, Option.map_map]
  rfl

/-- Behind a word that is not to be seen beyond, the text ends or asks for a picture string. -/
theorem Foresees.second (foresees : place.Foresees pictures cursor) (word : context.mode = .word)
    (h : cursor.significant? context = some (token, after)) :
    place.Sees after ∨ token.kind ≠ .word ∨ pictures = true ∧ isPictureWord token = true := by
  rcases foresees with alone | ⟨ends, first, middle, found, others⟩
  · exact .inl (.inl alone)
  · have mode : context.mode = Context.programUnit.mode := word
    have alike := Cursor.significant?_of_mode h mode
    rw [found] at alike
    cases alike
    by_cases named : token.kind = .word
    · rcases others named with operand | ⟨second, behind, next⟩
      · exact .inr (.inr operand)
      · have left := Cursor.rest_ne_nil_of_significant? next
        have behind := ends.of_suffix (Cursor.suffix_of_significant? h) left
        exact .inl (Sees.of_significant? (.inr behind) next)
    · exact .inr (.inl named)

/-- A test of the next two tokens is the same in the text and in the whole, if it takes a word to
pass it, and one that asks for no picture string where picture strings are read. -/
theorem Foresees.ahead_two {α : Type} (foresees : place.Foresees pictures cursor)
    (test : Token → Token → α) (otherwise : α) (word : context.mode = .word)
    (alike : ∀ first second, test (place.token first) (place.token second) = test first second)
    (named : ∀ first second, first.kind ≠ .word → test first second = otherwise)
    (operand : pictures = true → ∀ first second, isPictureWord first = true →
      test first second = otherwise) :
    (match (place.cursor cursor).ahead context 2 with
      | [first, second] => test first second
      | _ => otherwise) =
    match cursor.ahead context 2 with
      | [first, second] => test first second
      | _ => otherwise := by
  cases h : cursor.significant? context with
  | none =>
      have whole := significant?_cursor_of_none foresees.sees h
      simp [Cursor.ahead, h, whole]
  | some read =>
      obtain ⟨first, middle⟩ := read
      have whole := significant?_cursor_of_some foresees.sees h
      rcases foresees.second word h with sees | notWord | ⟨reads, picture⟩
      · cases k : middle.significant? context with
        | none => simp [Cursor.ahead, h, whole, k, significant?_cursor_of_none sees k]
        | some second =>
            simp [Cursor.ahead, h, whole, k, significant?_cursor_of_some sees k, alike]
      · rw [Cursor.ahead_two_of_fails h fun second => named first second notWord]
        exact Cursor.ahead_two_of_fails whole fun second => named _ second notWord
      · have again : isPictureWord (place.token first) = true := by rwa [isPictureWord_token]
        rw [Cursor.ahead_two_of_fails h fun second => operand reads first second picture]
        exact Cursor.ahead_two_of_fails whole fun second => operand reads _ second again

section Headers

variable (foresees : place.Foresees pictures cursor)

include foresees

theorem divisionHeader?_cursor : (place.cursor cursor).divisionHeader? = cursor.divisionHeader? := by
  refine foresees.ahead_two (fun name division =>
      if name.kind = .word ∧ division.isWord "DIVISION".toList then
        Division.ofHeaderWord? name.text else none) none rfl ?_ ?_ ?_
  · intro name division
    simp only [toLexeme_token, kind_lexeme, text_lexeme, isWord_lexeme, ofHeaderWord?_text]
  · intro name division other
    rw [if_neg fun both => other both.1]
  · intro _ name division picture
    rw [ofHeaderWord?_of_isPictureWord picture, ite_self]

theorem atEndProgram_cursor : (place.cursor cursor).atEndProgram = cursor.atEndProgram := by
  refine foresees.ahead_two (fun first second =>
      first.isWord "END".toList && second.isWord "PROGRAM".toList) false rfl ?_ ?_ ?_
  · intro first second
    simp only [toLexeme_token, isWord_lexeme]
  · intro first second other
    rw [Lexeme.isWord_of_not_word other, Bool.false_and]
  · intro _ first second picture
    rw [isWord_of_isPictureWord picture (by decide), Bool.false_and]

theorem atHeader_cursor : (place.cursor cursor).atHeader = cursor.atHeader := by
  rw [Cursor.atHeader, divisionHeader?_cursor foresees, atEndProgram_cursor foresees,
    Cursor.atHeader]

theorem atUnitBoundary_cursor : (place.cursor cursor).atUnitBoundary = cursor.atUnitBoundary := by
  rw [Cursor.atUnitBoundary, foresees.apart.atEnd, atHeader_cursor foresees, Cursor.atUnitBoundary]

theorem atIdentificationParagraph_cursor :
    (place.cursor cursor).atIdentificationParagraph = cursor.atIdentificationParagraph := by
  refine foresees.ahead_two (fun name period => period.kind == .dot &&
      (name.isWord "PROGRAM-ID".toList || commentEntryWords.any (name.isWord ·))) false rfl ?_ ?_ ?_
  · intro name period
    simp only [toLexeme_token, kind_lexeme, isWord_lexeme]
  · intro name period other
    simp [Lexeme.isWord_of_not_word other]
  · intro _ name period picture
    have words : commentEntryWords.any (name.isWord ·) = false := by
      rw [List.any_eq_false]
      intro word mem
      have other : ∀ word ∈ commentEntryWords, Text.sameWord "PIC".toList word = false ∧
          Text.sameWord "PICTURE".toList word = false := by decide
      simp [isWord_of_isPictureWord picture (other word mem)]
    rw [isWord_of_isPictureWord picture (by decide), words, Bool.or_self, Bool.and_false]

end Headers

section Procedure

variable (foresees : place.Foresees false cursor)

include foresees

theorem atSectionHeader_cursor :
    (place.cursor cursor).atSectionHeader = cursor.atSectionHeader := by
  refine foresees.ahead_two (fun name second =>
      name.kind == .word && second.isWord "SECTION".toList) false rfl ?_ ?_ ?_
  · intro name second
    simp only [toLexeme_token, kind_lexeme, isWord_lexeme]
  · intro name second other
    simp [other]
  · intro never
    cases never

theorem atParagraphHeader_cursor (settings : Settings) :
    (place.cursor cursor).atParagraphHeader settings = cursor.atParagraphHeader settings := by
  refine foresees.ahead_two (fun name period =>
      name.kind == .word && period.kind == .dot && !settings.isStatementVerb name.text) false rfl ?_ ?_ ?_
  · intro name period
    simp only [toLexeme_token, kind_lexeme, text_lexeme, Settings.isStatementVerb,
      Recasing.sameWord_text_right]
  · intro name period other
    simp [other]
  · intro never
    cases never

end Procedure

end Placement

end CobolTree
