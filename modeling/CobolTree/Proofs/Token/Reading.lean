import CobolTree.Token.Lexer

/-!
What reading does to a cursor. `Reads` says that some tokens lie one after another between
two cursors, whatever contexts they were read in; from it follow the text between the
cursors (`Reads.rest_eq`) and the position behind it (`Reads.position_eq`).

A context matters to the lexer through its mode alone: contexts of one mode read the same
lexemes (`next?_of_mode`, `significant?_of_mode`). Words, blanks and comments are the same in all
modes (`next?_of_shared`), and word mode and sentence mode find blanks and comments in the same
places (`isTrivia_scan_sentence`), so a cursor stands at a token for both or for neither
(`AtToken.exists_next?`).
-/

namespace CobolTree

namespace Lexeme

/-- The text of a row of lexemes. -/
def textOf (lexemes : List Lexeme) : Text := lexemes.flatMap (·.text)

/-- The lexemes that are neither blanks nor comments. -/
def significant (lexemes : List Lexeme) : List Lexeme := lexemes.filter (!·.isTrivia)

@[simp] theorem textOf_nil : textOf [] = [] := rfl

@[simp] theorem textOf_cons (lexeme : Lexeme) (rest : List Lexeme) :
    textOf (lexeme :: rest) = lexeme.text ++ textOf rest := rfl

@[simp] theorem textOf_append (s t : List Lexeme) : textOf (s ++ t) = textOf s ++ textOf t := by
  simp [textOf]

@[simp] theorem significant_nil : significant [] = [] := rfl

@[simp] theorem significant_append (s t : List Lexeme) :
    significant (s ++ t) = significant s ++ significant t := by
  simp [significant]

theorem significant_cons_of_trivia {lexeme : Lexeme} (h : lexeme.isTrivia = true)
    (rest : List Lexeme) : significant (lexeme :: rest) = significant rest := by
  simp [significant, h]

theorem significant_cons_of_not_trivia {lexeme : Lexeme} (h : lexeme.isTrivia = false)
    (rest : List Lexeme) : significant (lexeme :: rest) = lexeme :: significant rest := by
  simp [significant, h]

end Lexeme

namespace Token

/-- The same token, read in another context. -/
def inContext (context : Context) (token : Token) : Token := { token with context := context }

@[simp] theorem toLexeme_inContext (context : Context) (token : Token) :
    (token.inContext context).toLexeme = token.toLexeme := rfl

/-- The tokens as lexemes, without their places. -/
def lexemes (tokens : List Token) : List Lexeme := tokens.map (·.toLexeme)

@[simp] theorem lexemes_nil : lexemes [] = [] := rfl

@[simp] theorem lexemes_cons (token : Token) (rest : List Token) :
    lexemes (token :: rest) = token.toLexeme :: lexemes rest := rfl

@[simp] theorem lexemes_append (s t : List Token) : lexemes (s ++ t) = lexemes s ++ lexemes t := by
  simp [lexemes]

/-- The tokens that are neither blanks nor comments. -/
def significant (tokens : List Token) : List Token := tokens.filter (!·.isTrivia)

@[simp] theorem significant_append (s t : List Token) :
    significant (s ++ t) = significant s ++ significant t := by
  simp [significant]

theorem significant_eq_nil {tokens : List Token}
    (trivial : ∀ token ∈ tokens, token.isTrivia = true) : significant tokens = [] := by
  simpa [significant] using trivial

theorem lexemes_significant (tokens : List Token) :
    lexemes (significant tokens) = Lexeme.significant (lexemes tokens) := by
  rw [lexemes, lexemes, Lexeme.significant, List.filter_map]
  rfl

end Token

namespace Cursor

/-! ### One token -/

theorem next?_eq_none_iff {context : Context} {cursor : Cursor} :
    cursor.next? context = none ↔ cursor.rest = [] := by
  unfold next?
  split <;> simp_all

theorem rest_ne_nil_of_next? {context : Context} {cursor after : Cursor} {token : Token}
    (h : cursor.next? context = some (token, after)) : cursor.rest ≠ [] := by
  intro empty
  rw [next?_eq_none_iff.mpr empty] at h
  cases h

/-- The token and the cursor behind it, as the scanner finds them. -/
theorem next?_of_rest {cursor : Cursor} (left : cursor.rest ≠ []) (context : Context) :
    let size := (Scan.scan context.mode cursor.rest).2
    cursor.next? context =
      some (⟨⟨(Scan.scan context.mode cursor.rest).1, cursor.rest.take size⟩, cursor.position,
          context⟩,
        ⟨cursor.position.advance (cursor.rest.take size), cursor.rest.drop size⟩) := by
  unfold next?
  rw [if_neg (by simpa using left)]

/-- A token is placed where the cursor stands, and the cursor moves over its text. -/
theorem place_of_next? {context : Context} {cursor after : Cursor} {token : Token}
    (h : cursor.next? context = some (token, after)) :
    token.position = cursor.position ∧ after.position = cursor.position.advance token.text := by
  unfold next? at h
  split at h
  · cases h
  · simp only [Option.some.injEq, Prod.mk.injEq] at h
    obtain ⟨rfl, rfl⟩ := h
    exact ⟨rfl, rfl⟩

/-- The lexeme of a token that is read is what the scanner finds in the mode of the context. -/
theorem kind_of_next? {context : Context} {cursor after : Cursor} {token : Token}
    (h : cursor.next? context = some (token, after)) :
    token.kind = (Scan.scan context.mode cursor.rest).1 := by
  unfold next? at h
  split at h
  · cases h
  · simp only [Option.some.injEq, Prod.mk.injEq] at h
    obtain ⟨rfl, rfl⟩ := h
    rfl

/-! ### Rows of tokens -/

/-- Tokens that lie one after another between two cursors, each read in some context. -/
inductive Reads : Cursor → List Token → Cursor → Prop where
  | nil {cursor : Cursor} : Reads cursor [] cursor
  | cons {context : Context} {cursor after last : Cursor} {token : Token} {tokens : List Token} :
      cursor.next? context = some (token, after) → Reads after tokens last →
        Reads cursor (token :: tokens) last

namespace Reads

variable {cursor middle last : Cursor} {tokens others : List Token}

theorem append (first : Reads cursor tokens middle) (second : Reads middle others last) :
    Reads cursor (tokens ++ others) last := by
  induction first with
  | nil => exact second
  | cons h _ ih => exact .cons h (ih second)

/-- The text at the first cursor is that of the tokens and then that at the second. -/
theorem rest_eq (reads : Reads cursor tokens last) :
    cursor.rest = Lexeme.textOf (Token.lexemes tokens) ++ last.rest := by
  induction reads with
  | nil => simp
  | cons h _ ih => rw [rest_eq_of_next? h, ih]; simp

/-- The second cursor stands behind the text of the tokens. -/
theorem position_eq (reads : Reads cursor tokens last) :
    last.position = cursor.position.advance (Lexeme.textOf (Token.lexemes tokens)) := by
  induction reads with
  | nil => rfl
  | cons h _ ih => rw [ih, (place_of_next? h).2]; simp [Position.advance_append]

theorem text_ne_nil (reads : Reads cursor tokens last) (some : tokens ≠ []) :
    Lexeme.textOf (Token.lexemes tokens) ≠ [] := by
  cases reads with
  | nil => exact absurd rfl some
  | cons h _ => simp [text_ne_nil_of_next? h]

theorem length_le (reads : Reads cursor tokens last) :
    last.rest.length ≤ cursor.rest.length := by
  rw [reads.rest_eq, List.length_append]
  omega

/-- Where a token was read, less text is left. -/
theorem shorter (reads : Reads cursor tokens last) (some : tokens ≠ []) :
    last.rest.length < cursor.rest.length := by
  have := List.length_pos_iff.mpr (reads.text_ne_nil some)
  rw [reads.rest_eq, List.length_append]
  omega

/-- Where a token was read, the cursor has moved. -/
theorem position_ne (reads : Reads cursor tokens last) (some : tokens ≠ []) :
    last.position ≠ cursor.position := by
  intro same
  have size := Text.length_le_byteLength (Lexeme.textOf (Token.lexemes tokens))
  have := List.length_pos_iff.mpr (reads.text_ne_nil some)
  have index := congrArg Position.index reads.position_eq
  rw [same, Position.index_advance] at index
  omega

end Reads

/-! ### Tokens that carry meaning -/

section Significant

variable {context : Context} {cursor after : Cursor} {token : Token}

theorem significant?_of_trivia (h : cursor.next? context = some (token, after))
    (trivial : token.isTrivia = true) :
    cursor.significant? context = after.significant? context := by
  rw [significant?]
  split
  · rename_i found
    rw [h] at found
    cases found
  · rename_i found
    rw [h] at found
    cases found
    simp [trivial]

theorem significant?_of_next? (h : cursor.next? context = some (token, after))
    (carries : token.isTrivia = false) :
    cursor.significant? context = some (token, after) := by
  rw [significant?]
  split
  · rename_i found
    rw [h] at found
    cases found
  · rename_i found
    rw [h] at found
    cases found
    simp [carries]

theorem isTrivia_of_significant? (h : cursor.significant? context = some (token, after)) :
    token.isTrivia = false := by
  fun_induction significant? context cursor with
  | case1 => cases h
  | case2 cursor first behind read shorter trivial ih => exact ih h
  | case3 cursor first behind read shorter carries =>
      cases h
      simpa using carries

/-- A token that carries meaning leaves less text behind it. -/
theorem shorter_of_significant? (h : cursor.significant? context = some (token, after)) :
    after.rest.length < cursor.rest.length := by
  fun_induction significant? context cursor with
  | case1 => cases h
  | case2 cursor first behind read shorter trivial ih => exact Nat.lt_trans (ih h) shorter
  | case3 cursor first behind read shorter carries =>
      cases h
      exact shorter

end Significant

/-! ### Contexts of one mode -/

section Mode

variable {c₁ c₂ : Context}

/-- Contexts of one mode read the same token, marked with the context. -/
theorem next?_of_mode {cursor after : Cursor} {token : Token}
    (h : cursor.next? c₁ = some (token, after)) (same : c₁.mode = c₂.mode) :
    cursor.next? c₂ = some (token.inContext c₂, after) := by
  unfold next? at h ⊢
  rw [← same]
  split at h
  · cases h
  · rename_i left
    simp only [Option.some.injEq, Prod.mk.injEq] at h
    obtain ⟨rfl, rfl⟩ := h
    rw [if_neg left]
    rfl

theorem significant?_of_mode {cursor after : Cursor} {token : Token}
    (h : cursor.significant? c₁ = some (token, after)) (same : c₁.mode = c₂.mode) :
    cursor.significant? c₂ = some (token.inContext c₂, after) := by
  fun_induction significant? c₁ cursor with
  | case1 => cases h
  | case2 cursor first behind read shorter trivial ih =>
      rw [significant?_of_trivia (next?_of_mode read same) trivial, ih h]
  | case3 cursor first behind read shorter carries =>
      cases h
      exact significant?_of_next? (next?_of_mode read same) (by simpa using carries)

/-- What is next for two cursors alike is so in every context of the mode. -/
theorem significant?_congr {cursor other : Cursor} (same : c₁.mode = c₂.mode)
    (h : cursor.significant? c₁ = other.significant? c₁) :
    cursor.significant? c₂ = other.significant? c₂ := by
  cases found : cursor.significant? c₁ with
  | some read =>
      have here := significant?_of_mode found same
      have there := significant?_of_mode (h.symm.trans found) same
      rw [here, there]
  | none =>
      have absent {place : Cursor} (ends : place.significant? c₁ = none) :
          place.significant? c₂ = none := by
        cases back : place.significant? c₂ with
        | none => rfl
        | some read => cases ends.symm.trans (significant?_of_mode back same.symm)
      rw [absent found, absent (h.symm.trans found)]

end Mode

/-- Sentence mode makes numbers of words of digits, and finds what word mode finds otherwise. -/
theorem scanSentence_cases (text : Text) : Scan.scanSentence text = Scan.scanWord text ∨
    (Scan.scanWord text).1 = .word ∧ (Scan.scanSentence text).1 = .numericLiteral := by
  unfold Scan.scanSentence
  simp only
  split
  · rename_i digits
    exact .inr ⟨digits.1, rfl⟩
  · exact .inl rfl

/-- Picture mode finds a picture string, or what word mode finds. -/
theorem scanPicture_cases (text : Text) : Scan.scanPicture text = Scan.scanWord text ∨
    (Scan.scanPicture text).1 = .pictureString := by
  unfold Scan.scanPicture
  simp only
  split
  · exact .inl rfl
  · exact .inr rfl

/-- Words, blanks and comments are what word mode finds, in whatever mode they are read. -/
theorem scan_eq_of_shared {mode : Mode} {text : Text}
    (shared : (Scan.scan mode text).1 = .word ∨ (Scan.scan mode text).1.isTrivia = true) :
    Scan.scan mode text = Scan.scan .word text := by
  unfold Scan.scan at shared ⊢
  by_cases blanks : Scan.blankLength text ≠ 0
  · simp only [if_pos blanks]
  · simp only [if_neg blanks] at shared ⊢
    cases mode with
    | word => rfl
    | sentence =>
        rcases scanSentence_cases text with same | ⟨-, number⟩
        · exact same
        · simp [number, Kind.isTrivia] at shared
    | commentEntry => simp [Kind.isTrivia] at shared
    | picture =>
        rcases scanPicture_cases text with same | picture
        · exact same
        · simp [picture, Kind.isTrivia] at shared

/-- A word, a blank or a comment that is read stands there in word mode. -/
theorem next?_of_shared {context : Context} {cursor after : Cursor} {token : Token}
    (h : cursor.next? context = some (token, after))
    (shared : token.kind = .word ∨ token.isTrivia = true) :
    cursor.next? .programUnit = some (token.inContext .programUnit, after) := by
  rw [Lexeme.isTrivia, kind_of_next? h] at shared
  have same : Scan.scan context.mode cursor.rest = Scan.scan .word cursor.rest :=
    scan_eq_of_shared shared
  unfold next? at h ⊢
  split at h
  · cases h
  · rename_i left
    rw [same] at h
    simp only [Option.some.injEq, Prod.mk.injEq] at h
    obtain ⟨rfl, rfl⟩ := h
    rw [if_neg left]
    rfl

/-- Free text is blanks and lines, and has no words. -/
theorem kind_of_commentEntry {cursor after : Cursor} {token : Token}
    (h : cursor.next? .commentEntry = some (token, after)) :
    token.kind = .whitespace ∨ token.kind = .commentEntry := by
  have kind : token.kind = (Scan.scan .commentEntry cursor.rest).1 := kind_of_next? h
  rw [kind]
  unfold Scan.scan
  simp only
  split
  · exact .inl rfl
  · exact .inr rfl

/-- A word of digits becomes a number in sentence mode, and neither is a blank or a comment. -/
theorem isTrivia_scan_sentence (text : Text) :
    (Scan.scan .sentence text).1.isTrivia = (Scan.scan .word text).1.isTrivia := by
  unfold Scan.scan
  simp only
  split
  · rfl
  · rcases scanSentence_cases text with same | ⟨word, number⟩
    · rw [same]
    · rw [word, number]
      rfl

/-- Sentence mode finds what word mode finds, unless that is a word of digits. -/
theorem scan_sentence_of_letters {text : Text}
    (letters : (Scan.scan .word text).1 = .word →
      (text.take (Scan.scan .word text).2).all Char.isDigit = false) :
    Scan.scan .sentence text = Scan.scan .word text := by
  unfold Scan.scan at letters ⊢
  simp only at letters ⊢
  split
  · rfl
  · rename_i noBlanks
    rw [if_neg noBlanks] at letters
    simp only [Scan.scanSentence]
    split
    · rename_i digits
      cases (letters digits.1).symm.trans digits.2
    · rfl

/-! ### Standing at a token -/

/-- A token that is neither blank nor comment is next. -/
def AtToken (cursor : Cursor) : Prop :=
  ∃ token after, cursor.next? .programUnit = some (token, after) ∧ token.isTrivia = false

/-- Words and sentences begin at the same tokens. -/
theorem AtToken.exists_next? {cursor : Cursor} (h : cursor.AtToken) {context : Context}
    (mode : context.mode = .word ∨ context.mode = .sentence) :
    ∃ token after, cursor.next? context = some (token, after) ∧ token.isTrivia = false := by
  obtain ⟨token, after, read, carries⟩ := h
  cases found : cursor.next? context with
  | none =>
      rw [next?_eq_none_iff.mpr (next?_eq_none_iff.mp found)] at read
      cases read
  | some other =>
      refine ⟨other.1, other.2, rfl, ?_⟩
      have kind : token.kind = (Scan.scan .word cursor.rest).1 := kind_of_next? read
      have same := kind_of_next? found
      unfold Lexeme.isTrivia at carries ⊢
      rw [kind] at carries
      rw [same]
      rcases mode with word | sentence
      · rw [word]
        exact carries
      · rw [sentence, isTrivia_scan_sentence]
        exact carries

theorem AtToken.exists_significant? {cursor : Cursor} (h : cursor.AtToken) {context : Context}
    (mode : context.mode = .word ∨ context.mode = .sentence) :
    ∃ token after, cursor.significant? context = some (token, after) := by
  obtain ⟨token, after, read, carries⟩ := h.exists_next? mode
  exact ⟨token, after, significant?_of_next? read carries⟩

/-- At a token, the next token that carries meaning is the next one. -/
theorem AtToken.next?_of_significant? {cursor after : Cursor} (h : cursor.AtToken)
    {context : Context} (mode : context.mode = .word ∨ context.mode = .sentence) {token : Token}
    (found : cursor.significant? context = some (token, after)) :
    cursor.next? context = some (token, after) := by
  obtain ⟨other, behind, read, carries⟩ := h.exists_next? mode
  rw [read, ← found, significant?_of_next? read carries]

theorem AtToken.rest_ne_nil {cursor : Cursor} (h : cursor.AtToken) : cursor.rest ≠ [] := by
  obtain ⟨token, after, read, -⟩ := h
  intro empty
  rw [next?_eq_none_iff.mpr empty] at read
  cases read

end Cursor

end CobolTree
