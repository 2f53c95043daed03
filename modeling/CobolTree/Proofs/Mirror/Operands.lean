import CobolTree.Proofs.Mirror.Foresight
import CobolTree.Proofs.Production.Boundary

/-!
The operands of PICTURE clauses. A word that asks for a picture string can have the word IS behind
it and then the picture string, or the picture string at once. Which of the two it is, is told by a
look ahead that takes for a comment what could be the picture string as well. So tokens that are
read have no picture string but behind a word that asks for one, and where it stands right behind
this word, the look ahead has not found the word IS, however far it went (`Cursor.ReadsOperands`).
The tokens of a PICTURE clause are read so (`Production.readsOperands_clause`), and so are tokens
one behind another (`Cursor.ReadsOperands.append`).
-/

namespace CobolTree

namespace Token

open Production

/-! ### Operands in a row of tokens -/

/-- A picture string stands there, behind blanks and comments if there are any. -/
def beginsWithPicture (tokens : List Token) : Bool :=
  (tokens.dropWhile (·.isTrivia)).head?.any (·.kind == .pictureString)

/-- The picture strings that stand right behind the words that ask for them, each one with all that
follows it. -/
def operands : List Token → List (List Token)
  | [] => []
  | word :: later =>
      if isPictureWord word && beginsWithPicture later then
        later.dropWhile (·.isTrivia) :: operands later
      else operands later

/-- The patterns of word mode find nothing but blanks and comments from some picture string up to
the end of the text, though the word IS could stand before the picture string. -/
def HidesEnd (rest : Text) (tokens : List Token) : Prop :=
  ∃ operand ∈ operands tokens,
    (Cursor.start (Lexeme.textOf (lexemes operand) ++ rest)).significant? .programUnit = none

instance (rest : Text) (tokens : List Token) : Decidable (HidesEnd rest tokens) :=
  inferInstanceAs (Decidable (∃ _ ∈ _, _))

variable {tokens later operand : List Token} {word : Token}

theorem dropWhile_append_of_beginsWithPicture (begins : beginsWithPicture tokens = true) :
    (tokens ++ later).dropWhile (·.isTrivia) = tokens.dropWhile (·.isTrivia) ++ later := by
  have some : (tokens.dropWhile (·.isTrivia)).isEmpty = false := by
    cases found : tokens.dropWhile (·.isTrivia) with
    | nil => simp [beginsWithPicture, found] at begins
    | cons => rfl
  rw [List.dropWhile_append, some]
  rfl

theorem beginsWithPicture_append_left (begins : beginsWithPicture tokens = true) :
    beginsWithPicture (tokens ++ later) = true := by
  have same : (tokens ++ later).dropWhile (·.isTrivia) = tokens.dropWhile (·.isTrivia) ++ later :=
    dropWhile_append_of_beginsWithPicture begins
  unfold beginsWithPicture at begins ⊢
  rw [same, List.head?_append]
  cases found : (tokens.dropWhile (·.isTrivia)).head? with
  | none => simp [found] at begins
  | some => simpa [found] using begins

/-- Where no picture string stands at the front of the tokens behind, one stands at the front of all
if it stands at the front of the tokens before. -/
theorem beginsWithPicture_append (front : beginsWithPicture later = false) :
    beginsWithPicture (tokens ++ later) = beginsWithPicture tokens := by
  cases begins : beginsWithPicture tokens with
  | true => exact beginsWithPicture_append_left begins
  | false =>
      unfold beginsWithPicture at front begins ⊢
      rw [List.dropWhile_append]
      cases found : tokens.dropWhile (·.isTrivia) with
      | nil => exact front
      | cons => simpa [found] using begins

theorem beginsWithPicture_of_trivia {blanks : List Token}
    (trivial : ∀ blank ∈ blanks, blank.isTrivia = true) :
    beginsWithPicture (blanks ++ later) = beginsWithPicture later := by
  rw [beginsWithPicture, List.dropWhile_append_of_pos trivial]
  rfl

theorem beginsWithPicture_of_word (isWord : word.kind = .word) :
    beginsWithPicture (word :: later) = false := by
  simp [beginsWithPicture, Lexeme.isTrivia_of_word isWord, isWord]

theorem beginsWithPicture_of_plain (plain : ∀ token ∈ tokens, token.kind ≠ .pictureString) :
    beginsWithPicture tokens = false := by
  unfold beginsWithPicture
  cases found : tokens.dropWhile (·.isTrivia) with
  | nil => rfl
  | cons picture others =>
      have mem : picture ∈ tokens.dropWhile (·.isTrivia) := found ▸ List.mem_cons_self
      simpa using plain picture ((List.dropWhile_sublist _).subset mem)

theorem append_mem_operands (mem : operand ∈ operands tokens) :
    operand ++ later ∈ operands (tokens ++ later) := by
  induction tokens with
  | nil => cases mem
  | cons word behind ih =>
      rw [operands] at mem
      rw [List.cons_append, operands]
      by_cases asks : (isPictureWord word && beginsWithPicture behind) = true
      · have ⟨isAsking, begins⟩ := Bool.and_eq_true_iff.mp asks
        have asksAll : (isPictureWord word && beginsWithPicture (behind ++ later)) = true := by
          rw [isAsking, beginsWithPicture_append_left begins, Bool.and_true]
        rw [if_pos asks] at mem
        rw [if_pos asksAll, dropWhile_append_of_beginsWithPicture begins]
        rcases List.mem_cons.mp mem with rfl | others
        · exact List.mem_cons_self
        · exact List.mem_cons_of_mem _ (ih others)
      · rw [if_neg asks] at mem
        split
        · exact List.mem_cons_of_mem _ (ih mem)
        · exact ih mem

theorem mem_operands_behind (mem : operand ∈ operands later) :
    operand ∈ operands (tokens ++ later) := by
  induction tokens with
  | nil => exact mem
  | cons word behind ih =>
      rw [List.cons_append, operands]
      split
      · exact List.mem_cons_of_mem _ ih
      · exact ih

/-- No word asks for a picture string across the two rows if none stands at the front of the second
one. -/
theorem operands_append (front : beginsWithPicture later = false) :
    operands (tokens ++ later) = (operands tokens).map (· ++ later) ++ operands later := by
  induction tokens with
  | nil => rfl
  | cons word behind ih =>
      rw [List.cons_append, operands, operands, beginsWithPicture_append front, ih]
      split
      · rename_i asks
        rw [dropWhile_append_of_beginsWithPicture (Bool.and_eq_true_iff.mp asks).2]
        rfl
      · rfl

theorem operands_eq_nil (none : ∀ token ∈ tokens, isPictureWord token = false) :
    operands tokens = [] := by
  induction tokens with
  | nil => rfl
  | cons word behind ih =>
      obtain ⟨first, others⟩ := List.forall_mem_cons.mp none
      rw [operands, first, ih others]
      rfl

theorem operands_of_plain (plain : ∀ token ∈ tokens, token.kind ≠ .pictureString) :
    operands tokens = [] := by
  induction tokens with
  | nil => rfl
  | cons word behind ih =>
      have others := (List.forall_mem_cons.mp plain).2
      rw [operands, beginsWithPicture_of_plain others, ih others, Bool.and_false]
      rfl

theorem suffix_of_mem_operands (mem : operand ∈ operands tokens) : operand <:+ tokens := by
  induction tokens with
  | nil => cases mem
  | cons word behind ih =>
      rw [operands] at mem
      split at mem
      · rcases List.mem_cons.mp mem with rfl | others
        · exact (List.dropWhile_suffix _).trans (List.suffix_cons _ _)
        · exact (ih others).trans (List.suffix_cons _ _)
      · exact (ih mem).trans (List.suffix_cons _ _)

/-! ### What is hidden -/

variable {rest : Text}

theorem HidesEnd.behind (hides : HidesEnd rest later) : HidesEnd rest (tokens ++ later) := by
  obtain ⟨operand, mem, none⟩ := hides
  exact ⟨operand, mem_operands_behind mem, none⟩

theorem HidesEnd.before (hides : HidesEnd (Lexeme.textOf (lexemes later) ++ rest) tokens) :
    HidesEnd rest (tokens ++ later) := by
  obtain ⟨operand, mem, none⟩ := hides
  exact ⟨_, append_mem_operands mem, by simpa using none⟩

end Token

/-! ### The operand of a PICTURE clause -/

namespace Cursor

variable {context : Context} {cursor after : Cursor} {token : Token}

/-- A word that is next in any mode is next in word mode. -/
theorem significant?_of_word (h : cursor.significant? context = some (token, after))
    (word : token.kind = .word) :
    cursor.significant? .programUnit = some (token.inContext .programUnit, after) := by
  fun_induction significant? context cursor with
  | case1 => cases h
  | case2 cursor first behind read shorter trivial ih =>
      rw [significant?_of_trivia (next?_of_shared read (.inr trivial)) trivial]
      exact ih h
  | case3 cursor first behind read shorter carries =>
      cases h
      exact significant?_of_next? (next?_of_shared read (.inl word)) (by simpa using carries)

/-- Which lexeme is next is a matter of the text alone, and not of where it stands. -/
theorem significant?_of_rest (h : cursor.significant? context = some (token, after))
    (other : Cursor) (same : cursor.rest = other.rest) :
    ∃ second behind, other.significant? context = some (second, behind) ∧
      second.toLexeme = token.toLexeme := by
  fun_induction significant? context cursor generalizing other with
  | case1 => cases h
  | case2 cursor first rest read shorter trivial ih =>
      have left := rest_ne_nil_of_next? read
      have there := next?_of_rest (same ▸ left) context
      rw [next?_of_rest left context] at read
      simp only [Option.some.injEq, Prod.mk.injEq] at read
      obtain ⟨rfl, rfl⟩ := read
      rw [same] at trivial
      rw [significant?_of_trivia there trivial]
      exact ih h _ (by simp only [same])
  | case3 cursor first rest read shorter carries =>
      have left := rest_ne_nil_of_next? read
      have there := next?_of_rest (same ▸ left) context
      rw [next?_of_rest left context] at read
      simp only [Option.some.injEq, Prod.mk.injEq] at read
      obtain ⟨rfl, rfl⟩ := read
      cases h
      rw [same] at carries ⊢
      exact ⟨_, _, significant?_of_next? there (by simpa using carries), rfl⟩

/-- Words are read in two modes, of those that do not read picture strings. -/
theorem mode_of_word (mode : context.mode ≠ .picture)
    (h : cursor.next? context = some (token, after)) (word : token.kind = .word) :
    context.mode = .word ∨ context.mode = .sentence := by
  cases found : context.mode with
  | word => exact .inl rfl
  | sentence => exact .inr rfl
  | picture => exact absurd found mode
  | commentEntry =>
      have free := next?_of_mode h (found.trans (rfl : _ = Context.commentEntry.mode))
      rcases kind_of_commentEntry free with kind | kind
      · cases word.symm.trans kind
      · cases word.symm.trans kind

/-- Picture strings are read in a mode of their own. -/
theorem kind_ne_pictureString (mode : context.mode ≠ .picture)
    (h : cursor.next? context = some (token, after)) : token.kind ≠ .pictureString := by
  have plain : ∀ kind ∈ Scan.wordKinds, kind ≠ .pictureString := by decide
  have word := plain _ (Scan.kind_scanWord_mem cursor.rest)
  rw [kind_of_next? h]
  unfold Scan.scan
  simp only
  split
  · nofun
  · cases found : context.mode with
    | word => exact word
    | sentence =>
        rcases scanSentence_cases cursor.rest with same | ⟨-, number⟩
        · simpa only [same] using word
        · simp [number]
    | commentEntry => nofun
    | picture => exact absurd found mode

/-- What word mode finds is found in sentences, too, unless it is a word of digits. -/
theorem next?_of_letters (mode : context.mode = .word ∨ context.mode = .sentence)
    (h : cursor.next? .programUnit = some (token, after))
    (letters : token.kind = .word → token.text.all Char.isDigit = false) :
    cursor.next? context = some (token.inContext context, after) := by
  rcases mode with word | sentence
  · exact next?_of_mode h word.symm
  · have left := rest_ne_nil_of_next? h
    rw [next?_of_rest left, Option.some.injEq, Prod.mk.injEq] at h
    obtain ⟨rfl, rfl⟩ := h
    have same : Scan.scan .sentence cursor.rest = Scan.scan .word cursor.rest :=
      scan_sentence_of_letters letters
    rw [next?_of_rest left, sentence, same]
    rfl

theorem significant?_of_letters (mode : context.mode = .word ∨ context.mode = .sentence)
    (h : cursor.significant? .programUnit = some (token, after))
    (letters : token.kind = .word → token.text.all Char.isDigit = false) :
    cursor.significant? context = some (token.inContext context, after) := by
  fun_induction significant? .programUnit cursor with
  | case1 => cases h
  | case2 cursor first behind read shorter trivial ih =>
      have other (word : first.kind = .word) : first.text.all Char.isDigit = false :=
        absurd word (Lexeme.kind_ne_word trivial)
      rw [significant?_of_trivia (next?_of_letters mode read other) trivial]
      exact ih h
  | case3 cursor first behind read shorter carries =>
      cases h
      exact significant?_of_next? (next?_of_letters mode read letters) (by simpa using carries)

end Cursor

namespace Production

variable {context : Context} {cursor after : Cursor} {token : Token}

/-- A picture string, if one is next. -/
def readPicture : Production Unit := do
  match (← here).peek? .pictureString with
  | some token =>
      if token.kind = .pictureString then do
        let _ ← bump .pictureString
        return ()
      else return ()
  | none => return ()

theorem pictureOperand_apply (context : Context) (cursor : Cursor) :
    pictureOperand context cursor =
      let word := eatWord context "IS".toList cursor
      let blanks := trivia .pictureString word.next
      word.andThen (blanks.andThen (readPicture blanks.next)) := rfl

/-- A picture string is taken, or nothing is. -/
theorem readPicture_cases (cursor : Cursor) :
    readPicture cursor = .still () cursor ∨
      ∃ token after, cursor.next? .pictureString = some (token, after) ∧
        token.kind = .pictureString ∧
          readPicture cursor = (bump .pictureString cursor).withValue () := by
  cases h : cursor.next? .pictureString with
  | none => exact .inl (by simp [readPicture, Cursor.peek?, h])
  | some read =>
      obtain ⟨token, after⟩ := read
      by_cases picture : token.kind = .pictureString
      · exact .inr ⟨token, after, rfl, picture, by simp [readPicture, Cursor.peek?, h, picture]⟩
      · exact .inl (by simp [readPicture, Cursor.peek?, h, picture])

theorem faithful_readPicture : Faithful readPicture := by
  intro cursor
  rcases readPicture_cases cursor with same | ⟨token, after, read, picture, same⟩
  · rw [same]
    exact .still () cursor
  · rw [same]
    exact ((flat_bump _).faithful cursor).withValue ()

/-- Where the word IS is not eaten, word mode does not find it, however far it looks. -/
theorem not_isWord_of_eatWord (mode : context.mode = .word ∨ context.mode = .sentence)
    {word : Text} (letters : word.upper.all Char.isDigit = false)
    (still : eatWord context word cursor = .still none cursor)
    (found : cursor.significant? .programUnit = some (token, after)) :
    token.isWord word = false := by
  refine Bool.eq_false_iff.mpr fun reads => ?_
  have digits : token.text.all Char.isDigit = false := Bool.eq_false_iff.mpr fun all => by
    have same := (Bool.and_eq_true_iff.mp reads).2
    rw [Text.sameWord_of_digits all letters] at same
    cases same
  have next := Cursor.significant?_of_letters mode found fun _ => digits
  have eaten : (eatWord context word cursor).value = some (token.inContext context) :=
    value_eatIf_of_test next reads
  rw [still] at eaten
  cases eaten

theorem isPictureWord_of_not_word (other : token.kind ≠ .word) : isPictureWord token = false := by
  rw [isPictureWord, Lexeme.isWord_of_not_word other, Lexeme.isWord_of_not_word other]
  rfl

theorem isPictureWord_of_isTrivia (trivial : token.isTrivia = true) :
    isPictureWord token = false := isPictureWord_of_not_word (Lexeme.kind_ne_word trivial)

theorem kind_of_isPictureWord (asks : isPictureWord token = true) : token.kind = .word := by
  by_contra other
  rw [isPictureWord_of_not_word other] at asks
  cases asks

/-- The word IS asks for no picture string. -/
theorem isPictureWord_of_isWord (isFiller : token.isWord "IS".toList = true) :
    isPictureWord token = false := by
  refine Bool.eq_false_iff.mpr fun asks => ?_
  have other : token.isWord "IS".toList = false := isWord_of_isPictureWord asks (by decide)
  rw [isFiller] at other
  cases other

theorem isPictureWord_of_mem_readPicture :
    ∀ token ∈ (readPicture cursor).tokens, isPictureWord token = false := by
  intro token mem
  rcases readPicture_cases cursor with same | ⟨picture, last, read, kind, same⟩
  · rw [same] at mem
    cases mem
  · rw [same, Outcome.tokens_withValue, tokens_bump read] at mem
    rw [List.mem_singleton.mp mem]
    exact isPictureWord_of_not_word (by simp [kind])

end Production

/-! ### Tokens that are read -/

namespace Cursor

/-- Tokens that lie one after another between two cursors. No picture string stands at their front,
and where one stands right behind the word that asks for it, the word IS is not ahead. -/
structure ReadsOperands (cursor : Cursor) (tokens : List Token) (last : Cursor) : Prop where
  reads : cursor.Reads tokens last
  front : Token.beginsWithPicture tokens = false
  ahead : ∀ operand ∈ Token.operands tokens, ∀ token after,
    (Cursor.start (Lexeme.textOf (Token.lexemes operand) ++ last.rest)).significant? .programUnit =
      some (token, after) → token.isWord "IS".toList = false

namespace ReadsOperands

variable {cursor middle last : Cursor} {tokens others : List Token}

theorem of_plain (reads : cursor.Reads tokens last)
    (plain : ∀ token ∈ tokens, token.kind ≠ .pictureString) :
    cursor.ReadsOperands tokens last where
  reads := reads
  front := Token.beginsWithPicture_of_plain plain
  ahead operand mem := by
    rw [Token.operands_of_plain plain] at mem
    cases mem

theorem nil (cursor : Cursor) : cursor.ReadsOperands [] cursor := .of_plain .nil nofun

theorem append (first : cursor.ReadsOperands tokens middle)
    (second : middle.ReadsOperands others last) :
    cursor.ReadsOperands (tokens ++ others) last where
  reads := first.reads.append second.reads
  front := (Token.beginsWithPicture_append second.front).trans first.front
  ahead operand mem token after found := by
    rw [Token.operands_append second.front, List.mem_append] at mem
    rcases mem with before | behind
    · obtain ⟨operand, mem, rfl⟩ := List.mem_map.mp before
      refine first.ahead operand mem token after ?_
      rw [second.reads.rest_eq]
      simpa using found
    · exact second.ahead operand behind token after found

end ReadsOperands

end Cursor

namespace Production

variable {context : Context} {cursor after : Cursor} {asking : Token}

theorem readsOperands_bump (mode : context.mode ≠ .picture) (cursor : Cursor) :
    cursor.ReadsOperands (bump context cursor).tokens (bump context cursor).next := by
  refine .of_plain (flat_bump context cursor).reads ?_
  cases h : cursor.next? context with
  | none => simp [bump, h]
  | some read =>
      rw [tokens_bump h]
      exact List.forall_mem_singleton.mpr (Cursor.kind_ne_pictureString mode h)

/-- Behind the word that asks for a picture string, with blanks before it, the picture string is an
operand that has nothing behind it. -/
theorem operands_clause {picture : Token} {blanks : List Token} (asks : isPictureWord asking = true)
    (trivial : ∀ blank ∈ blanks, blank.isTrivia = true) (kind : picture.kind = .pictureString) :
    Token.operands (asking :: (blanks ++ [picture])) = [[picture]] := by
  have carries : picture.isTrivia = false := by
    rw [Lexeme.isTrivia, kind]
    rfl
  have dropped : (blanks ++ [picture]).dropWhile (·.isTrivia) = [picture] := by
    rw [List.dropWhile_append_of_pos trivial]
    simp [carries]
  have front : Token.beginsWithPicture (blanks ++ [picture]) = true := by
    simp [Token.beginsWithPicture, dropped, kind]
  have others : Token.operands (blanks ++ [picture]) = [] := by
    refine Token.operands_eq_nil fun token mem => ?_
    rcases List.mem_append.mp mem with blank | last
    · exact isPictureWord_of_isTrivia (trivial token blank)
    · rw [List.mem_singleton.mp last]
      exact isPictureWord_of_not_word (by simp [kind])
  rw [Token.operands, asks, front, dropped, others]
  rfl

/-- Behind the word IS, a picture string is no operand that the word could stand before. -/
theorem operands_filler {filler : Token} {blanks others : List Token}
    (trivial : ∀ blank ∈ blanks, blank.isTrivia = true)
    (isFiller : filler.isWord "IS".toList = true)
    (none : ∀ token ∈ others, isPictureWord token = false) :
    Token.operands (asking :: (blanks ++ filler :: others)) = [] := by
  have front : Token.beginsWithPicture (blanks ++ filler :: others) = false := by
    rw [Token.beginsWithPicture_of_trivia trivial]
    exact Token.beginsWithPicture_of_word (Lexeme.kind_of_isWord isFiller)
  have later : Token.operands (blanks ++ filler :: others) = [] := by
    refine Token.operands_eq_nil fun token mem => ?_
    rcases List.mem_append.mp mem with blank | behind
    · exact isPictureWord_of_isTrivia (trivial token blank)
    · rcases List.mem_cons.mp behind with rfl | other
      · exact isPictureWord_of_isWord isFiller
      · exact none token other
  rw [Token.operands, front, later, Bool.and_false]
  rfl

section Clause

variable (mode : context.mode ≠ .picture) (h : cursor.next? context = some (asking, after))
  (asks : isPictureWord asking = true)

include mode h asks

/-- A PICTURE clause without the word IS has it not ahead of the picture string. -/
theorem readsOperands_unfilled (still : eatWord context "IS".toList after = .still none after) :
    cursor.ReadsOperands (asking :: (pictureOperand context after).tokens)
      (pictureOperand context after).next := by
  have isWord := kind_of_isPictureWord asks
  have reads := Cursor.Reads.cons h (flat_pictureOperand context after).reads
  have same : pictureOperand context after =
      (trivia .pictureString after).andThen (readPicture (trivia .pictureString after).next) := by
    rw [pictureOperand_apply, still]
    rfl
  rw [same] at reads ⊢
  rcases readPicture_cases (trivia .pictureString after).next with
    nothing | ⟨picture, last, read, kind, taken⟩
  · rw [nothing] at reads ⊢
    refine .of_plain reads fun token mem kind => ?_
    rcases List.mem_cons.mp mem with rfl | blank
    · cases isWord.symm.trans kind
    · have trivial := isTrivia_of_mem_trivia .pictureString after token (by simpa using blank)
      rw [Lexeme.isTrivia, kind] at trivial
      cases trivial
  · rw [taken] at reads ⊢
    simp only [Outcome.tokens_andThen, Outcome.next_andThen, Outcome.tokens_withValue,
      Outcome.next_withValue, tokens_bump read, next_bump read] at reads ⊢
    refine ⟨reads, Token.beginsWithPicture_of_word isWord, fun operand mem token behind ahead => ?_⟩
    rw [operands_clause asks (isTrivia_of_mem_trivia _ _) kind, List.mem_singleton] at mem
    subst mem
    -- the look ahead from the picture string is the one for the word, which was not eaten
    have rest : Lexeme.textOf (Token.lexemes [picture]) ++ last.rest =
        (trivia .pictureString after).next.rest := by simp [Cursor.rest_eq_of_next? read]
    obtain ⟨other, place, again, lexeme⟩ :=
      Cursor.significant?_of_rest ahead (trivia .pictureString after).next rest
    rw [significant?_trivia] at again
    have absent := not_isWord_of_eatWord (Cursor.mode_of_word mode h isWord) (by decide) still again
    rwa [lexeme] at absent

/-- The tokens of a PICTURE clause are read with the word IS before the picture string, or where it
is not ahead. -/
theorem readsOperands_clause :
    cursor.ReadsOperands (asking :: (pictureOperand context after).tokens)
      (pictureOperand context after).next := by
  rcases eatIf_cases context (·.isWord "IS".toList) after with
    still | ⟨filler, middle, found, isFiller, eaten⟩
  · exact readsOperands_unfilled mode h asks still
  · have tokens : (pictureOperand context after).tokens =
        (trivia context after).tokens ++ filler ::
          ((trivia .pictureString middle).tokens ++
            (readPicture (trivia .pictureString middle).next).tokens) := by
      have eaten : eatWord context "IS".toList after = bumpSignificant context after := eaten
      rw [pictureOperand_apply, eaten]
      simp [tokens_bumpSignificant found, next_bumpSignificant found]
    have none : Token.operands (asking :: (pictureOperand context after).tokens) = [] := by
      rw [tokens]
      refine operands_filler (isTrivia_of_mem_trivia context after) isFiller fun token mem => ?_
      rcases List.mem_append.mp mem with blank | picture
      · exact isPictureWord_of_isTrivia (isTrivia_of_mem_trivia _ _ token blank)
      · exact isPictureWord_of_mem_readPicture token picture
    refine ⟨.cons h (flat_pictureOperand context after).reads,
      Token.beginsWithPicture_of_word (kind_of_isPictureWord asks), fun operand mem => ?_⟩
    rw [none] at mem
    cases mem

end Clause

end Production

end CobolTree
