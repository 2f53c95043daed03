import CobolTree.Proofs.Agreement.Sentences
import CobolTree.Proofs.Mirror.Sentence
import CobolTree.Proofs.Production.Openings
import CobolTree.Proofs.Production.Periods

/-!
What a sentence takes, and where it stops. A sentence takes tokens up to its first period, and ends
without one only where the text ends or a boundary stands (`sentence_ends`). Where a boundary
stands, what is read is a word, or a token that has a mode of its own (`Cursor.kind_of_atHeader`).
A sentence reads no word there, and of the other tokens picture strings alone, each of them asked
for by PIC or PICTURE right before it, or before the IS that stands before it
(`Lexeme.PicturesAsked`).
-/

namespace CobolTree

/-! ### Tokens at boundaries -/

/-- The lexeme is found in a mode of its own alone: a picture string, or a line of free text. -/
def Lexeme.isModal (lexeme : Lexeme) : Bool :=
  lexeme.kind == .pictureString || lexeme.kind == .commentEntry

theorem Lexeme.isModal_of_isWord {lexeme : Lexeme} {word : Text} (h : lexeme.isWord word = true) :
    lexeme.isModal = false := by
  rw [isModal, kind_of_isWord h]
  rfl

namespace Cursor

variable {context : Context} {cursor after : Cursor} {token : Token}

/-- Words and sentences have neither picture strings nor lines of free text. -/
theorem isModal_of_next? (mode : context.mode = .word ∨ context.mode = .sentence)
    (h : cursor.next? context = some (token, after)) : token.isModal = false := by
  have plain : ∀ kind ∈ Scan.wordKinds, (kind == .pictureString || kind == .commentEntry) = false := by
    decide
  have word := plain _ (Scan.kind_scanWord_mem cursor.rest)
  rw [Lexeme.isModal, kind_of_next? h]
  unfold Scan.scan
  simp only
  split
  · rfl
  · rcases mode with mode | mode
    · rwa [mode]
    · rw [mode]
      rcases scanSentence_cases cursor.rest with same | ⟨-, number⟩
      · simpa only [same] using word
      · simp only [number]
        rfl

/-- What is read at a boundary in word mode is the word that the boundary begins with. -/
theorem isBoundaryWord_of_next? (word : context.mode = .word)
    (h : cursor.next? context = some (token, after)) (header : cursor.atHeader = true)
    (carries : token.isTrivia = false) : token.isBoundaryWord = true := by
  obtain ⟨first, middle, read, boundary⟩ := isBoundaryWord_of_atHeader header
  have next : cursor.significant? .programUnit = some (token.inContext .programUnit, after) :=
    significant?_of_next? (next?_of_mode h word) carries
  cases read.symm.trans next
  exact boundary

/-- Word mode reads something at a boundary too, which is the word that the boundary begins with
unless it is a blank or a comment. -/
theorem exists_next?_of_atHeader (h : cursor.next? context = some (token, after))
    (header : cursor.atHeader = true) : ∃ first middle,
      cursor.next? .programUnit = some (first, middle) ∧
        (first.isTrivia = false → first.isBoundaryWord = true) := by
  cases read : cursor.next? .programUnit with
  | none => cases (next?_eq_none_iff.mpr (next?_eq_none_iff.mp read)).symm.trans h
  | some found =>
      obtain ⟨first, middle⟩ := found
      exact ⟨first, middle, rfl, isBoundaryWord_of_next? rfl read header⟩

theorem kind_of_isBoundaryWord {lexeme : Lexeme} (h : lexeme.isBoundaryWord = true) :
    lexeme.kind = .word :=
  eq_of_beq (Bool.and_eq_true_iff.mp h).1

/-- Sentence mode reads a boundary as word mode does, since no boundary begins with a number. -/
theorem kind_of_atHeader_sentence (mode : context.mode = .sentence)
    (h : cursor.next? context = some (token, after)) (header : cursor.atHeader = true)
    (carries : token.isTrivia = false) : token.kind = .word := by
  obtain ⟨first, middle, read, begins⟩ := exists_next?_of_atHeader h header
  have kind := kind_of_next? h
  rw [mode] at kind
  have other : first.kind = (Scan.scan .word cursor.rest).1 := kind_of_next? read
  rw [Lexeme.isTrivia, kind, isTrivia_scan_sentence, ← other] at carries
  have boundary := begins carries
  have isWord := kind_of_isBoundaryWord boundary
  have digits : first.text.all Char.isDigit = false := by
    refine Bool.eq_false_iff.mpr fun all => ?_
    rw [Lexeme.isBoundaryWord_of_digits all] at boundary
    cases boundary
  have suits : first.SuitsSentence := by
    refine .inr (.inr (.inr ⟨?_, fun _ => digits⟩))
    rw [context_of_next? read]
    rfl
  rcases scan_sentence_of_suits read suits with picture | same
  · cases isWord.symm.trans picture
  · rw [same] at kind
    exact kind.trans isWord

/-- Picture mode reads what word mode does, or a picture string. -/
theorem kind_of_atHeader_picture (mode : context.mode = .picture)
    (h : cursor.next? context = some (token, after)) (header : cursor.atHeader = true)
    (carries : token.isTrivia = false) : token.kind = .word ∨ token.kind = .pictureString := by
  obtain ⟨first, middle, read, begins⟩ := exists_next?_of_atHeader h header
  have kind := kind_of_next? h
  have other : first.kind = (Scan.scan .word cursor.rest).1 := kind_of_next? read
  rw [mode] at kind
  unfold Scan.scan at kind other
  simp only at kind other
  split at kind
  · rw [Lexeme.isTrivia, kind] at carries
    cases carries
  · rename_i noBlanks
    rw [if_neg noBlanks] at other
    rcases scanPicture_cases cursor.rest with same | picture
    · rw [same, ← other] at kind
      rw [Lexeme.isTrivia, kind] at carries
      exact .inl (kind.trans (kind_of_isBoundaryWord (begins carries)))
    · exact .inr (kind.trans picture)

/-- At a boundary a word is read, or a token that has a mode of its own. -/
theorem kind_of_atHeader (h : cursor.next? context = some (token, after))
    (header : cursor.atHeader = true) (carries : token.isTrivia = false) :
    token.kind = .word ∨ token.isModal = true := by
  cases mode : context.mode with
  | word =>
      exact .inl (kind_of_isBoundaryWord (isBoundaryWord_of_next? mode h header carries))
  | sentence => exact .inl (kind_of_atHeader_sentence mode h header carries)
  | picture =>
      refine (kind_of_atHeader_picture mode h header carries).imp_right fun picture => ?_
      rw [Lexeme.isModal, picture]
      rfl
  | commentEntry =>
      have same : context = .commentEntry := by cases context <;> first | rfl | cases mode
      subst same
      rcases kind_of_commentEntry h with blank | line
      · rw [Lexeme.isTrivia, blank] at carries
        cases carries
      · exact .inr (by rw [Lexeme.isModal, line]; rfl)

end Cursor

namespace Outcome

variable {α : Type} {admits : Cursor → Token → Prop} {cursor : Cursor} {outcome : Outcome α}

/-- Words are read where they are admitted, and every token somewhere. -/
theorem Guarded.places (h : outcome.Guarded admits cursor) :
    outcome.Places (fun place token => (∃ context after,
      place.next? context = some (token, after)) ∧ (token.kind = .word → admits place token))
      cursor := by
  unfold Guarded at h
  unfold Places
  generalize outcome.tokens = tokens at h
  generalize outcome.next = last at h
  induction h with
  | nil => nofun
  | cons read admitted _ ih =>
      intro token mem
      rcases List.mem_cons.mp mem with rfl | behind
      · exact ⟨[], _, .nil, (Cursor.place_of_next? read).1.symm, ⟨_, _, read⟩, admitted⟩
      · obtain ⟨before, place, reads, rest⟩ := ih token behind
        exact ⟨_ :: before, place, .cons read reads, rest⟩

/-- An outcome that is clear reads nothing at a boundary but blanks and comments, and tokens that
have a mode of their own. -/
theorem Clear.places (h : outcome.Clear cursor) :
    outcome.Places (fun place token => token.isTrivia = true ∨ token.isModal = true ∨
      place.atHeader = false) cursor := by
  intro token mem
  obtain ⟨before, place, reads, position, ⟨context, after, read⟩, admitted⟩ :=
    Guarded.places h token mem
  refine ⟨before, place, reads, position, ?_⟩
  cases trivial : token.isTrivia with
  | true => exact .inl trivial
  | false =>
      right
      cases header : place.atHeader with
      | false => exact .inr rfl
      | true =>
          refine .inl ((Cursor.kind_of_atHeader read header trivial).resolve_left fun word => ?_)
          cases (admitted word).symm.trans header

end Outcome

/-! ### Picture strings -/

namespace Lexeme

/-- The lexemes end in PIC or PICTURE, perhaps with IS behind it. -/
def AskForPicture (lexemes : List Lexeme) : Prop :=
  ∃ front word, (word.isWord "PIC".toList || word.isWord "PICTURE".toList) = true ∧
    (lexemes = front ++ [word] ∨
      ∃ filler : Lexeme, filler.isWord "IS".toList = true ∧ lexemes = front ++ [word, filler])

/-- Of tokens that have a mode of their own there are picture strings alone among the lexemes, each
asked for by those before it. -/
def PicturesAsked (lexemes : List Lexeme) : Prop :=
  ∀ before lexeme after, lexemes = before ++ lexeme :: after → lexeme.isModal = true →
    lexeme.kind = .pictureString ∧ AskForPicture before

theorem AskForPicture.behind {lexemes : List Lexeme} (h : AskForPicture lexemes)
    (others : List Lexeme) : AskForPicture (others ++ lexemes) := by
  obtain ⟨front, word, isPicture, rfl | ⟨filler, isFiller, rfl⟩⟩ := h
  · exact ⟨others ++ front, word, isPicture, .inl (List.append_assoc _ _ _).symm⟩
  · exact ⟨others ++ front, word, isPicture, .inr ⟨filler, isFiller, (List.append_assoc _ _ _).symm⟩⟩

theorem picturesAsked_of_forall {lexemes : List Lexeme}
    (others : ∀ lexeme ∈ lexemes, lexeme.isModal = false) : PicturesAsked lexemes := by
  rintro before lexeme after rfl modal
  cases modal.symm.trans (others lexeme (List.mem_append_right _ List.mem_cons_self))

theorem PicturesAsked.append {s t : List Lexeme} (h : PicturesAsked s) (k : PicturesAsked t) :
    PicturesAsked (s ++ t) := by
  intro before lexeme after split modal
  rcases List.append_eq_append_iff.mp split with ⟨middle, rfl, rest⟩ | ⟨middle, rfl, rest⟩
  · obtain ⟨picture, asks⟩ := k middle lexeme after rest modal
    exact ⟨picture, asks.behind s⟩
  · cases middle with
    | nil =>
        obtain ⟨picture, asks⟩ := k [] lexeme after rest.symm modal
        exact ⟨picture, by simpa using asks.behind before⟩
    | cons first others =>
        obtain ⟨rfl, -⟩ := List.cons.inj rest
        exact h before lexeme others rfl modal

/-- A picture string behind what asks for it. -/
theorem PicturesAsked.snoc {front : List Lexeme} (h : PicturesAsked front)
    (asks : AskForPicture front) {lexeme : Lexeme} (picture : lexeme.kind = .pictureString) :
    PicturesAsked (front ++ [lexeme]) := by
  intro before other after split modal
  rcases List.append_eq_append_iff.mp split with ⟨middle, rfl, rest⟩ | ⟨middle, rfl, rest⟩
  · cases middle with
    | nil =>
        obtain ⟨rfl, -⟩ := List.cons.inj rest
        exact ⟨picture, by rwa [List.append_nil]⟩
    | cons first others => cases others <;> cases rest
  · cases middle with
    | nil =>
        obtain ⟨rfl, -⟩ := List.cons.inj rest
        exact ⟨picture, by rwa [List.append_nil] at asks⟩
    | cons first others =>
        obtain ⟨rfl, -⟩ := List.cons.inj rest
        exact h before other others rfl modal

/-- A PICTURE clause asks for the picture string in it. -/
theorem picturesAsked_clause {word : Lexeme} {filler picture : Option Lexeme}
    (asks : (word.isWord "PIC".toList || word.isWord "PICTURE".toList) = true)
    (isFiller : ∀ lexeme ∈ filler, lexeme.isWord "IS".toList = true)
    (isPicture : ∀ lexeme ∈ picture, lexeme.kind = .pictureString) :
    PicturesAsked (word :: (filler.toList ++ picture.toList)) := by
  have first : word.isModal = false :=
    (Bool.or_eq_true_iff.mp asks).elim isModal_of_isWord isModal_of_isWord
  have front : PicturesAsked (word :: filler.toList) := by
    refine picturesAsked_of_forall (List.forall_mem_cons.mpr ⟨first, fun lexeme mem => ?_⟩)
    exact isModal_of_isWord (isFiller lexeme (Option.mem_toList.mp mem))
  have asked : AskForPicture (word :: filler.toList) := by
    cases filler with
    | none => exact ⟨[], word, asks, .inl rfl⟩
    | some lexeme => exact ⟨[], word, asks, .inr ⟨lexeme, isFiller lexeme rfl, rfl⟩⟩
  cases picture with
  | none => simpa using front
  | some lexeme => exact front.snoc asked (isPicture lexeme rfl)

end Lexeme

namespace Production

open Lexeme (PicturesAsked)

variable {context : Context} {cursor : Cursor}

/-- The operand of a PICTURE clause has IS, perhaps, and a picture string, perhaps. -/
theorem significant_pictureOperand (context : Context) (cursor : Cursor) :
    ∃ filler picture : Option Lexeme,
      (pictureOperand context cursor).significant = filler.toList ++ picture.toList ∧
        (∀ lexeme ∈ filler, lexeme.isWord "IS".toList = true) ∧
          ∀ lexeme ∈ picture, lexeme.kind = .pictureString := by
  let word := eatWord context "IS".toList cursor
  have isFiller : ∀ lexeme ∈ word.value.map (·.toLexeme), lexeme.isWord "IS".toList = true := by
    intro lexeme mem
    obtain ⟨token, eaten, rfl⟩ := Option.map_eq_some_iff.mp mem
    exact test_of_eatIf eaten
  have eaten : word.significant = (word.value.map (·.toLexeme)).toList := significant_eatIf _ _ _
  have blanks : (trivia .pictureString word.next).significant = [] := significant_trivia _ _
  rw [pictureOperand_apply]
  simp only [Outcome.significant_andThen]
  rcases readPicture_cases (trivia .pictureString word.next).next with
    same | ⟨token, after, read, picture, same⟩
  · refine ⟨word.value.map (·.toLexeme), none, ?_, isFiller, nofun⟩
    rw [show (eatWord context "IS".toList cursor).significant = _ from eaten, same, blanks]
    rfl
  · have isPicture : ∀ lexeme ∈ some token.toLexeme, lexeme.kind = .pictureString := by
      rintro _ ⟨⟩
      exact picture
    refine ⟨word.value.map (·.toLexeme), some token.toLexeme, ?_, isFiller, isPicture⟩
    rw [show (eatWord context "IS".toList cursor).significant = _ from eaten, same, blanks,
      Outcome.significant_withValue, Outcome.significant, tokens_bump read]
    simp [Lexeme.significant, Lexeme.isTrivia, picture, Kind.isTrivia]

theorem picturesAsked_sentenceRound (mode : context.mode = .word ∨ context.mode = .sentence)
    (pictures : Bool) (state : SentenceState) (cursor : Cursor) :
    PicturesAsked (sentenceRound context pictures state cursor).significant := by
  rcases sentenceRound_cases context pictures state cursor with
    same | ⟨token, after, read, ⟨trivial, same⟩ | ⟨carries, -, ⟨period, same⟩ | ⟨other, same⟩⟩⟩
  all_goals rw [same]
  · exact Lexeme.picturesAsked_of_forall nofun
  · refine Lexeme.picturesAsked_of_forall fun lexeme mem => ?_
    simp [Outcome.significant, tokens_bump read, Lexeme.significant, trivial] at mem
  all_goals
    have plain := Cursor.isModal_of_next? mode read
    have bumped : (bump context cursor).significant = [token.toLexeme] := by
      simp [Outcome.significant, tokens_bump read, Lexeme.significant, carries]
    have alone : PicturesAsked [token.toLexeme] := Lexeme.picturesAsked_of_forall fun lexeme mem => by
      rwa [List.mem_singleton.mp mem]
  · rwa [Outcome.significant_withValue, bumped]
  · rw [Outcome.significant_withValue, Outcome.significant_andThen, bumped]
    split
    · rename_i asks
      obtain ⟨filler, picture, significant, isFiller, isPicture⟩ :=
        significant_pictureOperand context (bump context cursor).next
      rw [significant]
      exact Lexeme.picturesAsked_clause (Bool.and_eq_true_iff.mp asks).2 isFiller isPicture
    · rwa [Outcome.significant_still, List.append_nil]

/-! ### Where sentences end -/

/-- A sentence ends in a period, the only one that it has; or it has none, and the text ends behind
it, or a boundary stands there. -/
structure SentenceEnds (outcome : Outcome SentenceState) : Prop where
  terminated : outcome.value = .terminated → ∃ front period, outcome.tokens = front ++ [period] ∧
    period.kind = .dot ∧ ∀ token ∈ front, token.kind ≠ .dot
  left : outcome.value ≠ .terminated → (∀ token ∈ outcome.tokens, token.kind ≠ .dot) ∧
    (outcome.next.rest = [] ∨ outcome.next.atHeader = true)

theorem kind_ne_dot_of_noPeriods {α : Type} {outcome : Outcome α} (h : outcome.NoPeriods) :
    ∀ token ∈ outcome.tokens, token.kind ≠ .dot := by
  intro token mem period
  refine h token.toLexeme (List.mem_filter.mpr ⟨List.mem_map_of_mem mem, ?_⟩) period
  simp [Lexeme.isTrivia, period, Kind.isTrivia]

/-- The last round of a sentence takes nothing or a period, and nothing only where the text ends or
a boundary stands. -/
theorem sentenceEnds_last (pictures : Bool) {state final : SentenceState}
    (goesOn : state ≠ .terminated)
    (h : (sentenceRound context pictures state cursor).value = .done final) :
    SentenceEnds ((sentenceRound context pictures state cursor).withValue final) := by
  have still (stands : cursor.rest = [] ∨ cursor.atHeader = true) :
      SentenceEnds (.still state cursor) :=
    ⟨fun ends => absurd ends goesOn, fun _ => ⟨nofun, stands⟩⟩
  cases read : cursor.next? context with
  | none =>
      rw [sentenceRound_of_end pictures state read] at h ⊢
      cases h
      exact still (.inl (Cursor.next?_eq_none_iff.mp read))
  | some found =>
      obtain ⟨token, after⟩ := found
      cases trivial : token.isTrivia with
      | true =>
          rw [sentenceRound_of_trivia read pictures state trivial] at h
          cases h
      | false =>
          by_cases header : state ≠ .empty ∧ cursor.atHeader = true
          · rw [sentenceRound_of_header read pictures trivial header.1 header.2] at h ⊢
            cases h
            exact still (.inr header.2)
          · by_cases period : token.kind = .dot
            · rw [sentenceRound_of_period read pictures trivial header period] at h ⊢
              cases h
              exact ⟨fun _ => ⟨[], token, tokens_bump read, period, nofun⟩, fun ends => absurd rfl ends⟩
            · rw [sentenceRound_of_token read trivial header period] at h
              cases h

/-- A sentence ends as its last rounds do, since no round before them takes a period. -/
theorem sentenceEnds_andThen (pictures : Bool) {state next : SentenceState}
    (h : (sentenceRound context pictures state cursor).value = .yield next)
    {rest : Outcome SentenceState} (later : SentenceEnds rest) :
    SentenceEnds ((sentenceRound context pictures state cursor).andThen rest) := by
  have noPeriods : ∀ token ∈ (sentenceRound context pictures state cursor).tokens,
      token.kind ≠ .dot := by
    apply kind_ne_dot_of_noPeriods
    rcases periods_sentenceRound context pictures state cursor with
      ⟨value, -⟩ | ⟨value, -⟩ | ⟨-, none⟩ | ⟨-, noPeriods⟩
    · cases value.symm.trans h
    · cases value.symm.trans h
    · exact noPeriods_of_significant none
    · exact noPeriods
  constructor
  · intro ends
    obtain ⟨front, period, tokens, dot, others⟩ := later.terminated ends
    refine ⟨_ ++ front, period, ?_, dot, List.forall_mem_append.mpr ⟨noPeriods, others⟩⟩
    rw [Outcome.tokens_andThen, tokens, List.append_assoc]
  · intro goesOn
    obtain ⟨others, stands⟩ := later.left goesOn
    exact ⟨List.forall_mem_append.mpr ⟨noPeriods, others⟩, stands⟩

/-- A sentence that has just begun comes to its end. -/
theorem sentenceEnds_repeating (context : Context) (pictures : Bool) (cursor : Cursor) :
    SentenceEnds (repeating (sentenceRound context pictures) .empty cursor) := by
  refine repeating_induction_from
    (motive := fun state _ outcome => state ≠ .terminated → SentenceEnds outcome)
    (fun state => (flat_sentenceRound context pictures state).faithful)
    (advances_sentenceRound context pictures) ?last ?goesOn .empty cursor (by decide)
  case last =>
    intro state cursor final ends goesOn
    exact sentenceEnds_last pictures goesOn ends
  case goesOn =>
    intro state cursor next outcome yields later goesOn
    refine sentenceEnds_andThen pictures yields (later ?_)
    rcases periods_sentenceRound context pictures state cursor with
      ⟨value, -⟩ | ⟨value, -⟩ | ⟨value, -⟩ | ⟨value, -⟩
    · cases value.symm.trans yields
    · cases value.symm.trans yields
    · cases value.symm.trans yields
      exact goesOn
    · cases value.symm.trans yields
      decide

theorem picturesAsked_repeating (mode : context.mode = .word ∨ context.mode = .sentence)
    (pictures : Bool) (state : SentenceState) (cursor : Cursor) :
    PicturesAsked (repeating (sentenceRound context pictures) state cursor).significant := by
  refine repeating_induction (motive := fun _ outcome => PicturesAsked outcome.significant)
    (fun state => (flat_sentenceRound context pictures state).faithful)
    (advances_sentenceRound context pictures) ?last ?goesOn state cursor
  case last => exact fun state cursor _ _ => picturesAsked_sentenceRound mode pictures state cursor
  case goesOn =>
    intro state cursor next outcome _ later
    rw [Outcome.significant_andThen]
    exact (picturesAsked_sentenceRound mode pictures state cursor).append later

/-! ### Whole sentences -/

/-- The rounds of a sentence, and a report at their end if a period is missing there. -/
theorem sentence_apply (context : Context) (kind : Kind) (pictures : Bool) (cursor : Cursor) :
    sentence context kind pictures cursor =
      let body := repeating (sentenceRound context pictures) .empty cursor
      (body.andThen ((if body.value = .begun ∧ kind = .sentence then
        reportHere (.missingPeriod .sentence) else pure () : Production Unit) body.next)).under
          kind := rfl

theorem tokens_sentence (context : Context) (kind : Kind) (pictures : Bool) (cursor : Cursor) :
    (sentence context kind pictures cursor).tokens =
      (repeating (sentenceRound context pictures) .empty cursor).tokens := by
  rw [sentence_apply]
  simp only [ite_apply]
  split <;> simp

theorem next_sentence (context : Context) (kind : Kind) (pictures : Bool) (cursor : Cursor) :
    (sentence context kind pictures cursor).next =
      (repeating (sentenceRound context pictures) .empty cursor).next := by
  rw [sentence_apply]
  simp only [ite_apply]
  split <;> simp

/-- A sentence of some kind has one period, its last token, or none, and then it goes as far as it
can. -/
theorem sentence_ends (context : Context) (kind : Kind) (pictures : Bool) (cursor : Cursor) :
    let outcome := sentence context kind pictures cursor
    (∃ front period, outcome.tokens = front ++ [period] ∧ period.kind = .dot ∧
        ∀ token ∈ front, token.kind ≠ .dot) ∨
      (∀ token ∈ outcome.tokens, token.kind ≠ .dot) ∧
        (outcome.next.rest = [] ∨ outcome.next.atHeader = true) := by
  obtain ⟨terminated, left⟩ := sentenceEnds_repeating context pictures cursor
  simp only [tokens_sentence, next_sentence]
  by_cases ends :
      (repeating (sentenceRound context pictures) .empty cursor).value = .terminated
  · exact .inl (terminated ends)
  · exact .inr (left ends)

/-- A sentence without a period is reported where it ends. -/
theorem mem_reports_sentence (pictures : Bool) (atToken : cursor.AtToken)
    (mode : context.mode = .word ∨ context.mode = .sentence)
    (noPeriod : ∀ token ∈ (sentence context .sentence pictures cursor).tokens,
      token.kind ≠ .dot) :
    (reportHere (.missingPeriod .sentence)
        (sentence context .sentence pictures cursor).next).reports ⊆
      (sentence context .sentence pictures cursor).reports := by
  have spec := sentenceSpec_repeating context pictures (nofun : SentenceState.empty ≠ .terminated) cursor
  have carries := carries_sentence atToken mode .sentence pictures
  have ends := sentenceEnds_repeating context pictures cursor
  rw [tokens_sentence] at noPeriod
  rw [Outcome.Carries, tokens_sentence] at carries
  rw [next_sentence, sentence_apply]
  simp only
  cases state : (repeating (sentenceRound context pictures) .empty cursor).value with
  | empty => exact absurd (spec.empty state).2 carries
  | begun => exact List.subset_append_right _ _
  | terminated =>
      obtain ⟨front, period, tokens, dot, -⟩ := ends.terminated state
      rw [tokens] at noPeriod
      exact absurd dot (noPeriod period (List.mem_append_right _ List.mem_cons_self))

end Production

end CobolTree
