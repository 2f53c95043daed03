import CobolTree.Proofs.Mirror.Basic

/-!
Mirrors of sentences. A sentence reads picture strings in a mode of their own, and there the look
ahead, which is in word mode, can take for a comment what is read as a picture string. Where the
operand of a PICTURE clause ends in the text, it is the same in the whole
(`Placement.alike_pictureOperand`), unless the look ahead for the word IS went behind the text and
found the word there; that takes an operand from which on word mode finds nothing in the text, which
`Placement.Allows` speaks of.
-/

namespace CobolTree

namespace Scan

/-- What the patterns of word mode take for a comment begins like one. -/
theorem commentMark_of_scanWord {text : Text} (trivial : (scanWord text).1.isTrivia = true) :
    ['*', '>'] <+: text := by
  have comment : commentLength text ≠ 0 := by
    have pos := scanWord_pos text
    rw [scanWord_of_isTrivia trivial] at pos
    exact Nat.ne_of_gt pos
  unfold commentLength at comment
  split at comment
  · exact ⟨_, rfl⟩
  · exact absurd rfl comment

/-- What word mode skips begins with a blank, a line break or the mark of a comment. -/
theorem begins_of_trivia {text : Text} (trivial : (scan .word text).1.isTrivia = true) :
    (∃ c ∈ text.head?, isSpace c = true ∨ isLineBreak c = true) ∨ ['*', '>'] <+: text := by
  by_cases blanks : blankLength text ≠ 0
  · refine .inl ?_
    unfold blankLength at blanks
    split at blanks
    · exact ⟨'\r', rfl, .inr rfl⟩
    · rename_i c rest _
      refine ⟨c, rfl, ?_⟩
      split at blanks
      · rename_i lineBreak
        exact .inr lineBreak
      · cases space : isSpace c with
        | true => exact .inl rfl
        | false => simp [space] at blanks
    · exact absurd rfl blanks
  · have word : scan .word text = scanWord text := by simp only [scan, if_neg blanks]
    rw [word] at trivial
    exact .inr (commentMark_of_scanWord trivial)

end Scan

namespace Cursor

variable {context : Context} {cursor after : Cursor} {token : Token}

theorem significant?_eq_none_of_rest {other : Cursor} (h : cursor.significant? context = none)
    (same : other.rest = cursor.rest) : other.significant? context = none := by
  cases found : other.significant? context with
  | none => rfl
  | some read =>
      obtain ⟨second, behind, again, -⟩ := significant?_of_rest found cursor same
      rw [h] at again
      cases again

end Cursor

namespace Placement

open Production

variable {place : Placement} {pictures : Bool} {cursor : Cursor} {context : Context}

/-- Where nothing carries meaning up to the end of the text, what is next is next behind it. -/
theorem exists_significant?_behind (apart : cursor.rest ≠ [] → place.Apart cursor)
    (none : cursor.significant? context = none) :
    ∃ position, (place.cursor cursor).significant? context =
      Cursor.significant? context ⟨position, place.behind⟩ := by
  fun_induction Cursor.significant? context cursor with
  | case1 cursor h =>
      refine ⟨place.position cursor.position, ?_⟩
      rw [Placement.cursor, Cursor.next?_eq_none_iff.mp h]
      rfl
  | case2 cursor token after h shorter trivial ih =>
      have left := Cursor.rest_ne_nil_of_next? h
      rw [Cursor.significant?_of_trivia (next?_cursor_of_some (apart left) h) trivial]
      exact ih (fun some => (apart left).suffix (Cursor.suffix_of_next? h) some) none
  | case3 => cases none

/-- What a production leaves is part of what it began with. -/
theorem suffix_of_faithful {α : Type} {production : Production α} (h : Faithful production)
    (cursor : Cursor) : (production cursor).next.rest <:+ cursor.rest := by
  rw [(h cursor).reads.rest_eq]
  exact List.suffix_append _ _

/-! ### The operand of a PICTURE clause -/

/-- Blanks and comments are alike where the text is told from what is behind when they end. -/
theorem alike_trivia (context : Context) (cursor : Cursor)
    (apart : place.Apart (trivia context cursor).next) :
    place.Apart cursor ∧
      place.Alike id (trivia context cursor) (trivia context (place.cursor cursor)) := by
  fun_induction Cursor.significant? context cursor with
  | case1 cursor h =>
      rw [trivia_of_end h, Outcome.next_still] at apart
      rw [trivia_of_end h, trivia_of_end (next?_cursor_of_none apart h)]
      exact ⟨apart, .still rfl cursor⟩
  | case2 cursor token after h shorter trivial ih =>
      rw [trivia_of_trivia h trivial] at apart ⊢
      obtain ⟨behind, alike⟩ := ih apart
      have here := behind.of_suffix (Cursor.suffix_of_next? h)
      rw [trivia_of_trivia (next?_cursor_of_some here h) trivial]
      exact ⟨here, (alike_bump here context).andThen alike⟩
  | case3 cursor token after h shorter carries =>
      have carries : token.isTrivia = false := by simpa using carries
      rw [trivia_of_carries h carries, Outcome.next_still] at apart
      rw [trivia_of_carries h carries,
        trivia_of_carries (next?_cursor_of_some apart h) carries]
      exact ⟨apart, .still rfl cursor⟩

/-- A token that carries meaning is taken in the whole just as in the text, with the blanks before
it. -/
theorem alike_bumpSignificant {token : Token} {after : Cursor} (apart : place.Apart cursor)
    (h : cursor.significant? context = some (token, after)) :
    place.Alike (Option.map place.token) (bumpSignificant context cursor)
      (bumpSignificant context (place.cursor cursor)) := by
  have left : (trivia context cursor).next.rest ≠ [] := by
    intro empty
    have ends := next?_trivia context cursor
    rw [Cursor.next?_eq_none_iff.mpr empty, h] at ends
    cases ends
  have behind := apart.suffix (suffix_of_faithful (flat_trivia _).faithful cursor) left
  have alike := (alike_trivia context cursor behind).2
  simp only [bumpSignificant, bind_apply, alike.next]
  exact alike.andThen (alike_bump behind context)

/-- A token that is next in the text is eaten in the whole just as in the text. -/
theorem alike_eatIf (sees : place.Sees cursor) (context : Context) {test : Token → Bool}
    (same : ∀ token, test (place.token token) = test token) :
    place.Alike (Option.map place.token) (eatIf context test cursor)
      (eatIf context test (place.cursor cursor)) := by
  cases h : cursor.significant? context with
  | none =>
      have whole := significant?_cursor_of_none sees h
      rw [eatIf_of_end h, eatIf_of_end whole]
      exact .still rfl cursor
  | some read =>
      obtain ⟨token, after⟩ := read
      have whole := significant?_cursor_of_some sees h
      cases passes : test token with
      | false =>
          rw [eatIf_of_not_test h passes, eatIf_of_not_test whole (by rw [same, passes])]
          exact .still rfl cursor
      | true =>
          rw [eatIf_of_test h passes, eatIf_of_test whole (by rw [same, passes])]
          exact alike_bumpSignificant sees.apart h

theorem alike_readPicture (apart : place.Apart cursor) :
    place.Alike id (readPicture cursor) (readPicture (place.cursor cursor)) := by
  cases h : cursor.next? .pictureString with
  | none =>
      have whole := next?_cursor_of_none apart h
      have ends : readPicture cursor = .still () cursor := by simp [readPicture, Cursor.peek?, h]
      have others : readPicture (place.cursor cursor) = .still () (place.cursor cursor) := by
        simp [readPicture, Cursor.peek?, whole]
      rw [ends, others]
      exact .still rfl cursor
  | some read =>
      obtain ⟨token, after⟩ := read
      have whole := next?_cursor_of_some apart h
      by_cases picture : token.kind = .pictureString
      · have taken : readPicture cursor = (bump .pictureString cursor).withValue () := by
          simp [readPicture, Cursor.peek?, h, picture]
        have others : readPicture (place.cursor cursor) =
            (bump .pictureString (place.cursor cursor)).withValue () := by
          simp [readPicture, Cursor.peek?, whole, picture]
        rw [taken, others]
        exact (alike_bump apart .pictureString).withValue rfl
      · have left : readPicture cursor = .still () cursor := by
          simp [readPicture, Cursor.peek?, h, picture]
        have others : readPicture (place.cursor cursor) = .still () (place.cursor cursor) := by
          simp [readPicture, Cursor.peek?, whole, picture]
        rw [left, others]
        exact .still rfl cursor

/-- The look ahead for the word IS, where it goes behind the text, does not find the word there if
what hides the end of the text is allowed. -/
theorem eatWord_behind (apart : place.Apart cursor)
    (ends : cursor.significant? .programUnit = none)
    {tokens : List Token} {rest : Text} (hides : Token.HidesEnd rest tokens)
    (allowed : place.Allows tokens rest) (context : Context) :
    eatWord context "IS".toList (place.cursor cursor) = .still none (place.cursor cursor) := by
  refine eatIf_of_fails fun first behind found => Bool.eq_false_iff.mpr fun reads => ?_
  have word := Cursor.significant?_of_word found (Lexeme.kind_of_isWord reads)
  obtain ⟨position, same⟩ := exists_significant?_behind (fun _ => apart) ends
  rw [same] at word
  obtain ⟨other, rest, opens, lexeme⟩ :=
    Cursor.significant?_of_rest word (.start place.behind) rfl
  have differs := allowed hides other rest opens
  rw [lexeme, Token.toLexeme_inContext, reads] at differs
  cases differs

/-- Where the operand of a PICTURE clause ends in the text, it is the same in the whole. -/
theorem alike_pictureOperand {context : Context} {asking : Token}
    (asks : isPictureWord asking = true)
    (allowed : place.Allows (asking :: (pictureOperand context cursor).tokens)
      (pictureOperand context cursor).next.rest)
    (foresees : place.Foresees pictures (pictureOperand context cursor).next) :
    place.Apart cursor ∧
      place.Alike id (pictureOperand context cursor)
        (pictureOperand context (place.cursor cursor)) := by
  rw [pictureOperand_apply] at allowed foresees
  rw [pictureOperand_apply, pictureOperand_apply]
  dsimp only at allowed foresees ⊢
  generalize eaten : eatWord context "IS".toList cursor = word at allowed foresees ⊢
  have beforeBlanks : word.next.rest <:+ cursor.rest := by
    rw [← eaten]
    exact suffix_of_faithful (flat_eatWord _ _).faithful cursor
  -- foresight at the end tells the text from what is behind it all the way back
  have last : place.Apart (trivia .pictureString word.next).next :=
    foresees.apart.of_suffix (suffix_of_faithful faithful_readPicture _)
  obtain ⟨middle, blanks⟩ := alike_trivia .pictureString word.next last
  have apart : place.Apart cursor := middle.of_suffix beforeBlanks
  have first : place.Alike (Option.map place.token) word
      (eatWord context "IS".toList (place.cursor cursor)) := by
    by_cases sees : place.Sees cursor
    · rw [← eaten]
      exact alike_eatIf sees context fun token => by simp
    · have ends : cursor.significant? .programUnit = none := by
        cases found : cursor.significant? .programUnit with
        | none => rfl
        | some read => exact absurd (Sees.of_significant? apart found) sees
      have still : word = .still none cursor := by
        rw [← eaten]
        refine eatIf_of_fails fun token after found => Bool.eq_false_iff.mpr fun reads => ?_
        have next := Cursor.significant?_of_word found (Lexeme.kind_of_isWord reads)
        rw [ends] at next
        cases next
      subst still
      have skipped : (trivia .pictureString cursor).next.significant? .programUnit =
          cursor.significant? .programUnit := significant?_trivia _ cursor
      rcases readPicture_cases (trivia .pictureString cursor).next with
        same | ⟨token, after, read, picture, taken⟩
      · -- nothing of an operand was taken, so the text goes on where the cursor stands
        have there : place.Sees (trivia .pictureString cursor).next := by
          simpa [same] using foresees.sees
        rcases there with alone | ⟨-, token, after, found⟩
        · exact absurd (.inl alone) sees
        · rw [skipped, ends] at found
          cases found
      · -- the operand hides the end of the text, or the text would not end in word mode
        have none : (Cursor.start (token.text ++ after.rest)).significant? .programUnit = none :=
          Cursor.significant?_eq_none_of_rest (skipped.trans ends) (Cursor.rest_eq_of_next? read).symm
        have operand := operands_clause asks (isTrivia_of_mem_trivia .pictureString cursor) picture
        have hides : Token.HidesEnd after.rest
            (asking :: ((trivia .pictureString cursor).tokens ++ [token])) := by
          refine ⟨[token], operand ▸ List.mem_singleton_self _, ?_⟩
          simpa using none
        simp only [Outcome.tokens_andThen, Outcome.next_andThen, Outcome.tokens_still,
          Outcome.next_still, taken, Outcome.tokens_withValue, Outcome.next_withValue,
          tokens_bump read, next_bump read, List.nil_append] at allowed
        rw [eatWord_behind apart ends hides allowed context]
        exact .still rfl cursor
  rw [first.next, blanks.next]
  exact ⟨apart, first.andThen (blanks.andThen (alike_readPicture last))⟩

/-! ### Sentences -/

/-- A word that asks for a picture string is foreseen where what is behind it is told apart. -/
theorem Foresees.of_isPictureWord {token : Token} {after : Cursor}
    (h : cursor.next? context = some (token, after)) (picture : isPictureWord token = true)
    (apart : place.Apart after) : place.Foresees true cursor := by
  have word := kind_of_isPictureWord picture
  have first := Cursor.significant?_of_next? (Cursor.next?_of_shared h (.inl word))
    (Lexeme.isTrivia_of_word word)
  rcases apart.of_suffix (Cursor.suffix_of_next? h) with alone | ends
  · exact .inl alone
  · exact .inr ⟨ends, _, _, first, fun _ => .inl ⟨rfl, picture⟩⟩

/-- A token of a sentence, with its operand if it asks for a picture. -/
theorem mirrored_behindToken {context : Context} (mode : context.mode ≠ .picture)
    {token : Token} {after : Cursor} (h : cursor.next? context = some (token, after))
    {operands : Bool} (reads : operands = true → pictures = true) :
    place.Mirrored pictures id cursor
      ((bump context cursor).andThen
        (if operands && isPictureWord token then pictureOperand context (bump context cursor).next
        else .still () (bump context cursor).next))
      ((bump context (place.cursor cursor)).andThen
        (if operands && isPictureWord (place.token token) then
          pictureOperand context (bump context (place.cursor cursor)).next
        else .still () (bump context (place.cursor cursor)).next)) := by
  rw [isPictureWord_token]
  by_cases asks : (operands && isPictureWord token) = true
  · simp only [if_pos asks]
    rw [Bool.and_eq_true] at asks
    have clause := readsOperands_clause mode h asks.2
    rw [← List.singleton_append, ← tokens_bump h, ← next_bump h] at clause
    refine ⟨clause, fun allowed foresees => ?_⟩
    rw [Outcome.tokens_andThen, tokens_bump h, List.singleton_append] at allowed
    obtain ⟨apart, alike⟩ := alike_pictureOperand asks.2 allowed foresees
    rw [next_bump h] at apart
    have here := Foresees.of_isPictureWord h asks.2 apart
    have first := alike_bump here.apart context
    rw [reads asks.1, first.next]
    exact ⟨here, first.andThen alike⟩
  · simp only [if_neg asks]
    exact (mirrors_bump mode cursor).andThen (.still rfl _) fun _ next => by rw [next]

/-- A round of a sentence, whatever token it takes. -/
theorem mirrors_sentenceRound {context : Context} (mode : context.mode ≠ .picture)
    {operands : Bool} (reads : operands = true → pictures = true) (state : SentenceState) :
    place.Mirrors pictures (mapStep id) (sentenceRound context operands state)
      (sentenceRound context operands state) := by
  intro cursor
  cases h : cursor.next? context with
  | none =>
      rw [sentenceRound_of_end operands state h]
      refine (Mirrored.still rfl cursor).of_foresees fun foresees => ?_
      exact sentenceRound_of_end operands state (next?_cursor_of_none foresees.apart h)
  | some read =>
      obtain ⟨token, after⟩ := read
      cases trivial : token.isTrivia with
      | true =>
          rw [sentenceRound_of_trivia h operands state trivial]
          refine ((mirrors_bump mode cursor).withValue rfl).of_foresees fun foresees => ?_
          exact sentenceRound_of_trivia (next?_cursor_of_some foresees.apart h) operands state
            trivial
      | false =>
          by_cases ends : state ≠ .empty ∧ cursor.atHeader = true
          · rw [sentenceRound_of_header h operands trivial ends.1 ends.2]
            refine (Mirrored.still rfl cursor).of_foresees fun foresees => ?_
            exact sentenceRound_of_header (next?_cursor_of_some foresees.apart h) operands trivial
              ends.1 (by rw [atHeader_cursor foresees, ends.2])
          · have goesOn (foresees : place.Foresees pictures cursor) :
                ¬(state ≠ .empty ∧ (place.cursor cursor).atHeader = true) := by
              rwa [atHeader_cursor foresees]
            by_cases period : token.kind = .dot
            · rw [sentenceRound_of_period h operands trivial ends period]
              refine ((mirrors_bump mode cursor).withValue rfl).of_foresees fun foresees => ?_
              exact sentenceRound_of_period (next?_cursor_of_some foresees.apart h) operands
                trivial (goesOn foresees) period
            · rw [sentenceRound_of_token h trivial ends period]
              refine ((mirrored_behindToken mode h reads).withValue rfl).of_foresees fun foresees => ?_
              have whole := next?_cursor_of_some foresees.apart h
              exact sentenceRound_of_token whole trivial (goesOn foresees) period

section Sentences

variable {context : Context} (mode : context.mode ≠ .picture)

include mode

theorem mirrors_sentence (kind : Kind) {operands : Bool}
    (reads : operands = true → pictures = true) :
    place.Mirrors pictures id (sentence context kind operands)
      (sentence context kind operands) := by
  refine mirrors_node kind (mirrors_bind
    (mirrors_repeating (fun state => mirrors_sentenceRound mode reads state) .empty) fun state => ?_)
  exact mirrors_ite (mirrors_reportHere _) (mirrors_pure rfl)

theorem mirrors_plainSentence (kind : Kind) :
    place.Mirrors pictures id (sentence context kind false) (sentence context kind false) :=
  mirrors_sentence mode kind nofun

theorem mirrors_strayText :
    place.Mirrors pictures id (strayText context) (strayText context) :=
  mirrors_bind (mirrors_reportHere _) fun _ => mirrors_plainSentence mode .errorNode

end Sentences

theorem mirrors_entryRound {context : Context} (mode : context.mode ≠ .picture) {operands : Bool}
    (reads : operands = true → pictures = true) :
    place.Mirrors pictures (mapStep id) (entryRound context operands)
      (entryRound context operands) := by
  intro cursor
  rw [entryRound_apply, entryRound_apply]
  refine (mirrors_trivia mode cursor).andThen
    (.ite (fun foresees => ?_) ?_ ?_) fun _ next => by rw [next]
  · rw [atUnitBoundary_cursor foresees]
  · exact fun _ => .still rfl _
  · exact fun _ => (mirrors_sentence (by decide) .sentence reads _).withValue rfl

theorem mirrors_entries {context : Context} (word : context.mode = .word) {operands : Bool}
    (reads : operands = true → pictures = true) :
    place.Mirrors pictures id (entries context operands) (entries context operands) := by
  have mode : context.mode ≠ .picture := by simp [word]
  have faithful := fun _ : Unit => faithful_entryRound context operands
  have advances := advances_entryRound word operands
  exact mirrors_rounds context faithful advances faithful advances
    (fun _ => mirrors_entryRound mode reads) ()

end Placement

end CobolTree
