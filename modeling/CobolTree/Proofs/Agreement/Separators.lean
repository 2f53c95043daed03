import CobolTree.Proofs.Agreement.Lexemes
import CobolTree.Proofs.Token.Placement

/-!
What the grammars skip, token by token. A blank, a comment, a comma or a semicolon that the scanner
finds is skipped as a whole, and where it finds any other token nothing is skipped
(`skipped_or_settled`); so what is skipped between two leaves is a row of tokens.
-/

namespace CobolTree

open CobolTree.Expr Scan

/-- Blanks, comments, and the separators that the grammars skip as blanks. -/
def Kind.isSeparator (kind : Kind) : Bool :=
  kind.isTrivia || kind == .comma || kind == .semicolon

/-- The grammars skip a token where it stands. -/
structure Skipped (text : Text) (found : Kind × Nat) : Prop where
  separator : found.1.isSeparator = true
  skips : ∀ offset, Input.skipFrom false offset text =
    Input.skipFrom false (offset + Text.byteLength (text.take found.2)) (text.drop found.2)

theorem skipped_of_forall {text : Text} {found : Kind × Nat}
    (separator : found.1.isSeparator = true)
    (filler : ∀ c ∈ text.take found.2, Input.isFiller c = true) : Skipped text found where
  separator := separator
  skips offset := by
    have split := Input.skipFrom_append filler offset (text.drop found.2)
    rwa [List.take_append_drop] at split

theorem skipped_comment (text : Text) (some : commentLength text ≠ 0) :
    Skipped text (.comment, commentLength text) where
  separator := rfl
  skips offset := by
    obtain ⟨rest, rfl⟩ := exists_of_commentLength some
    have size : commentLength ('*' :: '>' :: rest) = lineLength rest + 2 := rfl
    rw [Input.skipFrom_mark, Input.skipFrom_line, size]
    simp only [List.take_succ_cons, List.drop_succ_cons, Text.byteLength]
    refine congrArg (Input.skipFrom false · _) ?_
    have mark : ('*').utf8Size + ('>').utf8Size = 2 := rfl
    omega

theorem blank_of_mem_blanks {text : Text} {c : Char} (mem : c ∈ text.take (blankLength text)) :
    isSpace c = true ∨ isLineBreak c = true := by
  cases text with
  | nil => cases mem
  | cons d rest =>
      cases breaks : isLineBreak d with
      | true =>
          rw [blankLength_cons_of_break breaks] at mem
          split at mem
          · rename_i both
            obtain ⟨behind, rfl⟩ := List.head?_eq_some_iff.mp both.2
            simp only [List.take_succ_cons, List.take_zero, List.mem_cons, List.not_mem_nil,
              or_false] at mem
            rcases mem with rfl | rfl
            · exact .inr breaks
            · exact .inr rfl
          · rw [List.take_succ_cons, List.take_zero, List.mem_singleton] at mem
            rw [mem]
            exact .inr breaks
      | false =>
          rw [blankLength_cons_of_not_break breaks, take_length_takeWhile] at mem
          exact .inl (List.mem_takeWhile_imp mem)

theorem isFiller_of_isWordLetter {c : Char} (letter : isWordLetter c = true) :
    Input.isFiller c = false := by
  by_contra filler
  simp only [Input.isFiller, Bool.not_eq_false, Bool.or_eq_true, beq_iff_eq, or_assoc] at filler
  rcases filler with rfl | rfl | rfl | rfl | rfl | rfl | rfl <;> cases letter

theorem isFiller_of_isQuote {c : Char} (quote : isQuote c = true) : Input.isFiller c = false := by
  simp only [isQuote, Bool.or_eq_true, beq_iff_eq] at quote
  rcases quote with rfl | rfl <;> rfl

theorem scan_of_blankLength {mode : Mode} {text : Text} (none : blankLength text = 0)
    (shared : mode = .word ∨ mode = .sentence) :
    scan mode text = if mode = .word then scanWord text else scanSentence text := by
  rcases shared with rfl | rfl <;> simp [scan, none]

theorem blankLength_of_solid {c : Char} (solid : Input.isFiller c = false) (rest : Text) :
    blankLength (c :: rest) = 0 := by
  have breaks : isLineBreak c = false := by
    by_contra breaks
    rw [isFiller_of_isLineBreak (Bool.not_eq_false _ ▸ breaks)] at solid
    cases solid
  have space : isSpace c = false := by
    by_contra space
    rw [isFiller_of_isSpace (Bool.not_eq_false _ ▸ space)] at solid
    cases solid
  rw [blankLength_cons_of_not_break breaks, List.takeWhile_cons, space]
  rfl

/-- Word mode and sentence mode find the same where neither finds a number. -/
theorem scan_of_scanSentence {mode : Mode} {text : Text} {found : Kind × Nat}
    (shared : mode = .word ∨ mode = .sentence) (none : blankLength text = 0)
    (h : scanSentence text = found) (other : found.1 ≠ .numericLiteral) :
    scan mode text = found := by
  rw [scan_of_blankLength none shared]
  split
  · rcases Cursor.scanSentence_cases text with same | ⟨-, number⟩
    · rw [← same, h]
    · rw [h] at number
      exact absurd number other
  · exact h

/-- Characters that count as blanks for the grammars and not for the scanner. -/
theorem eq_of_isFiller {c : Char} (filler : Input.isFiller c = true)
    (breaks : isLineBreak c = false) (space : isSpace c = false) : c = ',' ∨ c = ';' := by
  simp only [isLineBreak, isSpace, Bool.or_eq_false_iff, beq_eq_false_iff_ne, ne_eq] at breaks space
  simpa [Input.isFiller, breaks, space] using filler

/-- Commas and semicolons are tokens of their own. -/
theorem scan_of_separator {mode : Mode} (shared : mode = .word ∨ mode = .sentence) {c : Char}
    (sort : c = ',' ∨ c = ';') (rest : Text) :
    ∃ kind, (kind = .comma ∨ kind = .semicolon) ∧ scan mode (c :: rest) = (kind, 1) := by
  rcases sort with rfl | rfl
  · refine ⟨.comma, .inl rfl, scan_of_scanSentence shared rfl (scanSentence_of_symbol ?_
      (by decide) rfl) (by decide)⟩
    simp [scanSymbol, symbolMatches, symbols, symbolLength, longest, longer]
  · refine ⟨.semicolon, .inr rfl, scan_of_scanSentence shared rfl (scanSentence_of_symbol ?_
      (by decide) rfl) (by decide)⟩
    simp [scanSymbol, symbolMatches, symbols, symbolLength, longest, longer]

theorem scan_of_commentLength {mode : Mode} (shared : mode = .word ∨ mode = .sentence) {text : Text}
    (comment : commentLength text ≠ 0) : scan mode text = (.comment, commentLength text) := by
  obtain ⟨rest, rfl⟩ := exists_of_commentLength comment
  have word := scanWord_of_comment comment
  have found : scanSentence ('*' :: '>' :: rest) =
      (.comment, commentLength ('*' :: '>' :: rest)) := by
    rw [scanSentence_of_other (by rw [word]; exact nofun), word]
  exact scan_of_scanSentence shared (blankLength_of_solid rfl _) found nofun

/-- A text begins with blanks, with a comma or a semicolon, with a comment, or with a character that
the grammars do not skip. -/
theorem front_cases (c : Char) (rest : Text) :
    blankLength (c :: rest) ≠ 0 ∨ (c = ',' ∨ c = ';') ∨ commentLength (c :: rest) ≠ 0 ∨
      Input.isFiller c = false ∧ commentLength (c :: rest) = 0 := by
  by_cases blanks : blankLength (c :: rest) = 0
  · right
    cases filler : Input.isFiller c with
    | true =>
        have breaks : isLineBreak c = false := by
          by_contra breaks
          rw [blankLength_cons_of_break (Bool.not_eq_false _ ▸ breaks)] at blanks
          split at blanks <;> cases blanks
        have space : isSpace c = false := by
          by_contra space
          rw [blankLength_cons_of_not_break breaks, List.takeWhile_cons,
            if_pos (Bool.not_eq_false _ ▸ space)] at blanks
          cases blanks
        exact .inl (eq_of_isFiller filler breaks space)
    | false =>
        by_cases comment : commentLength (c :: rest) = 0
        · exact .inr (.inr ⟨rfl, comment⟩)
        · exact .inr (.inl comment)
  · exact .inl blanks

/-- The grammars skip the token that stands at the front of a text, or nothing at all. -/
theorem skipped_or_settled {mode : Mode} (shared : mode = .word ∨ mode = .sentence) (c : Char)
    (rest : Text) : Skipped (c :: rest) (scan mode (c :: rest)) ∨
      Input.isFiller c = false ∧ commentLength (c :: rest) = 0 := by
  rcases front_cases c rest with blanks | separator | comment | settled
  · have found : scan mode (c :: rest) = (.whitespace, blankLength (c :: rest)) := if_pos blanks
    rw [found]
    exact .inl (skipped_of_forall rfl fun d => isFiller_of_mem_blanks)
  · obtain ⟨kind, sort, found⟩ := scan_of_separator shared separator rest
    rw [found]
    refine .inl (skipped_of_forall (by rcases sort with rfl | rfl <;> rfl) fun d mem => ?_)
    rw [List.take_succ_cons, List.take_zero, List.mem_singleton] at mem
    rcases separator with rfl | rfl
    · rw [mem]
      rfl
    · rw [mem]
      rfl
  · rw [scan_of_commentLength shared comment]
    exact .inl (skipped_comment _ comment)
  · exact .inr settled

/-- Where nothing is skipped, the text begins with a character that is no filler. -/
theorem exists_solid {input : Input} (settled : input.skip false = input)
    (left : input.rest ≠ []) : ∃ c rest, input.rest = c :: rest ∧ Input.isFiller c = false ∧
      commentLength input.rest = 0 := by
  obtain ⟨c, rest, split⟩ := List.exists_cons_of_ne_nil left
  rcases skipped_or_settled (.inr rfl : Mode.sentence = .word ∨ _) c rest with skipped | solid
  · have skips := skipped.skips input.offset
    have pos := scan_pos .sentence (List.cons_ne_nil c rest)
    have same : Input.skipFrom false input.offset (c :: rest) = input := by
      rw [← split]
      exact settled
    have farther := Input.le_skip
      ⟨input.offset + Text.byteLength ((c :: rest).take (scan .sentence (c :: rest)).2),
        (c :: rest).drop (scan .sentence (c :: rest)).2⟩
    have size := Text.length_le_byteLength ((c :: rest).take (scan .sentence (c :: rest)).2)
    rw [List.length_take, List.length_cons] at size
    rw [Input.skip, if_neg Bool.false_ne_true, ← skips, same] at farther
    simp only at farther
    omega
  · exact ⟨c, rest, split, solid.1, split ▸ solid.2⟩

/-- A token that is not skipped carries meaning. -/
theorem isTrivia_scanSentence {text : Text} (comment : commentLength text = 0) :
    (scanSentence text).1.isTrivia = false := by
  have word : (scanWord text).1.isTrivia = false := by
    by_contra trivial
    have pos := scanWord_pos text
    rw [scanWord_of_isTrivia (Bool.not_eq_false _ ▸ trivial), comment] at pos
    exact Nat.lt_irrefl 0 pos
  rcases Cursor.scanSentence_cases text with same | ⟨-, number⟩
  · rw [same, word]
  · rw [number]
    rfl

theorem isTrivia_scan_of_solid {c : Char} {rest : Text} (solid : Input.isFiller c = false)
    (comment : commentLength (c :: rest) = 0) : (scan .word (c :: rest)).1.isTrivia = false := by
  rw [← Cursor.isTrivia_scan_sentence, scan_of_blankLength (blankLength_of_solid solid rest)
    (.inr rfl), if_neg (by decide)]
  exact isTrivia_scanSentence comment

/-! ### At a cursor -/

namespace Cursor

variable {context : Context} {cursor after last : Cursor} {token : Token} {tokens : List Token}
  {text tail : Text}

theorem context_of_next? (h : cursor.next? context = some (token, after)) :
    token.context = context := by
  unfold next? at h
  split at h
  · cases h
  · simp only [Option.some.injEq, Prod.mk.injEq] at h
    obtain ⟨rfl, rfl⟩ := h
    rfl

theorem scan_of_next? (h : cursor.next? context = some (token, after)) :
    scan context.mode cursor.rest = (token.kind, token.text.length) := by
  have fits := scan_le context.mode (rest_ne_nil_of_next? h)
  unfold next? at h
  split at h
  · cases h
  · simp only [Option.some.injEq, Prod.mk.injEq] at h
    obtain ⟨rfl, rfl⟩ := h
    simp only [List.length_take, Nat.min_eq_left fits]

/-- The grammars skip a blank or a comment that is read, whatever they have of the text behind it. -/
theorem skip_of_trivia (h : cursor.next? context = some (token, after))
    (trivial : token.isTrivia = true) (rest : after.rest = text ++ tail) :
    Input.skip false ⟨cursor.position.index, token.text ++ text⟩ =
      Input.skip false ⟨after.position.index, text⟩ := by
  obtain ⟨c, others, split⟩ := List.exists_cons_of_ne_nil (text_ne_nil_of_next? h)
  have found : scan .word cursor.rest = (token.kind, token.text.length) :=
    scan_of_next? (next?_of_shared h (.inr trivial))
  -- the token lies in the text that the grammar has
  have cut : cursor.rest.take (token.text ++ text).length = token.text ++ text := by
    rw [rest_eq_of_next? h, rest, ← List.append_assoc, List.take_left]
  have here : scan .word (token.text ++ text) = (token.kind, token.text.length) := by
    have same : scan .word (cursor.rest.take (token.text ++ text).length) = scan .word cursor.rest :=
      scan_take (.inl rfl) (by
        rw [found, List.length_append]
        exact Nat.le_add_right _ _)
    rw [← cut, same, found]
  have index : after.position.index = cursor.position.index + token.text.byteLength := by
    rw [(place_of_next? h).2, Position.index_advance]
  rw [split, List.cons_append] at here
  have skipped : Skipped (c :: (others ++ text)) (scan .word (c :: (others ++ text))) := by
    rcases skipped_or_settled (.inl rfl) c (others ++ text) with skipped | ⟨solid, comment⟩
    · exact skipped
    · have carries := isTrivia_scan_of_solid solid comment
      rw [here] at carries
      exact absurd (carries.symm.trans trivial) Bool.false_ne_true
  have skips := skipped.skips cursor.position.index
  rw [here, ← List.cons_append, ← split, List.take_left, List.drop_left, ← index] at skips
  exact skips

/-- The grammars skip a row of blanks and comments. -/
theorem Reads.skip (reads : cursor.Reads tokens last)
    (trivial : ∀ token ∈ tokens, token.isTrivia = true) (rest : last.rest = text ++ tail) :
    Input.skip false ⟨cursor.position.index, Lexeme.textOf (Token.lexemes tokens) ++ text⟩ =
      Input.skip false ⟨last.position.index, text⟩ := by
  induction reads with
  | nil => rfl
  | cons h reads ih =>
      obtain ⟨first, others⟩ := List.forall_mem_cons.mp trivial
      have behind := reads.rest_eq
      rw [rest, ← List.append_assoc] at behind
      rw [Token.lexemes_cons, Lexeme.textOf_cons, List.append_assoc, skip_of_trivia h first behind]
      exact ih others rest

end Cursor

end CobolTree
