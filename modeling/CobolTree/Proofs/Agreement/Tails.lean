import CobolTree.Proofs.Agreement.Separators

/-!
Leaves of a grammar in front of a tail. A grammar has the text of one division before it, the scanner
goes on into what follows. Where the grammar reads a leaf with another one behind it, the scanner
finds a token of the same text whatever the tail is (`scanWord_keyword_append`,
`scanWord_cobolWord_append`, `scanWord_literal_append`), and a blank or a comment is the same token or
goes on into the tail (`trivia_append`).
-/

namespace CobolTree

open CobolTree.Expr Scan

/-! ### What follows a leaf -/

/-- Behind blanks and comments a word or a period is next. -/
def Input.Follows (input : Input) : Prop :=
  ∃ d rest, (input.skip false).rest = d :: rest ∧ (isWordLetter d = true ∨ d = '.')

theorem Input.Follows.exists_cons {input : Input} (h : input.Follows) :
    ∃ c rest, input.rest = c :: rest ∧ c ≠ '-' ∧ isQuote c = false := by
  obtain ⟨offset, text⟩ := input
  obtain ⟨d, rest, left, sort⟩ := h
  cases text with
  | nil => cases left
  | cons c rest =>
      -- a hyphen and a quote are no filler, so nothing would be skipped before them
      have stays (solid : isFiller c = false) (comment : commentLength (c :: rest) = 0) :
          isWordLetter c = true ∨ c = '.' := by
        have same : Input.skip false ⟨offset, c :: rest⟩ = ⟨offset, c :: rest⟩ :=
          skipFrom_other solid comment offset
        rw [same] at left
        rw [(List.cons.inj left).1]
        exact sort
      refine ⟨c, rest, rfl, ?_, ?_⟩
      · rintro rfl
        rcases stays rfl rfl with letter | point
        · cases letter
        · cases point
      · by_contra quote
        simp only [isQuote, Bool.not_eq_false, Bool.or_eq_true, beq_iff_eq] at quote
        rcases quote with rfl | rfl
        · rcases stays rfl rfl with letter | point
          · cases letter
          · cases point
        · rcases stays rfl rfl with letter | point
          · cases letter
          · cases point

/-! ### Leaves in front of a tail -/

namespace Grammar

/-- What a keyword rule reads is one of its words. -/
theorem exists_word_of_oneOf {words : List String} {text : Text} {size : Nat}
    (read : (oneOf words).length? text = some size) :
    ∃ word ∈ words, Text.sameWord (text.take size) word.toList = true := by
  induction words with
  | nil => cases read
  | cons first rest ih =>
      have here (found : (Expr.word first).length? text = some size) :
          Text.sameWord (text.take size) first.toList = true := by
        rw [Expr.word, Expr.length?] at found
        split at found
        · rename_i same
          cases found
          exact same
        · cases found
      cases rest with
      | nil => exact ⟨first, List.mem_cons_self, here read⟩
      | cons second others =>
          rcases Option.or_eq_some_iff.mp read with found | ⟨-, found⟩
          · exact ⟨first, List.mem_cons_self, here found⟩
          · obtain ⟨word, mem, same⟩ := ih found
            exact ⟨word, List.mem_cons_of_mem _ mem, same⟩

/-- What a keyword rule reads is one of its words, and no word goes on behind it. -/
theorem exists_word_of_keyword {named : Rule} {words : List String} {text : Text} {size : Nat}
    (read : (keyword named words).length? text = some size) :
    (∃ word ∈ words, Text.sameWord (text.take size) word.toList = true) ∧
      wordEnd.length? (text.drop size) = some 0 := by
  obtain ⟨one, readWord, read⟩ := Option.bind_eq_some_iff.mp read
  obtain ⟨final, ends, rfl⟩ := Option.map_eq_some_iff.mp read
  obtain ⟨rfl, -⟩ := trimHyphens_of_wordEnd ends
  exact ⟨exists_word_of_oneOf readWord, ends⟩

/-- A keyword begins with a letter. -/
theorem exists_letter_of_keyword {named : Rule} {words : List String} {text : Text} {size : Nat}
    (keywords : ∀ word ∈ words, IsKeyword word.toList)
    (read : (keyword named words).length? text = some size) :
    ∃ c rest, text = c :: rest ∧ isWordLetter c = true := by
  obtain ⟨⟨word, mem, same⟩, -⟩ := exists_word_of_keyword read
  have first := ((keywords word mem).of_sameWord same).first
  cases text with
  | nil => cases List.take_nil ▸ first
  | cons c rest =>
      cases size with
      | zero => cases first
      | succ more =>
          simp only [List.take_succ_cons, List.head?_cons, Option.map_some, Option.some.injEq,
            Bool.and_eq_true] at first
          exact ⟨c, rest, rfl, first.1⟩

/-- A word ends in front of a character that is no hyphen if that is no letter of a word. -/
theorem length?_wordEnd {c : Char} (hyphen : c ≠ '-') (rest : Text) :
    wordEnd.length? (c :: rest) = if isWordLetter c then none else some 0 := by
  have segment : (plus (Expr.text "-") >> wordChar).length? (c :: rest) = none := by
    have none : (c :: rest).takeWhile (· == '-') = [] := by simp [hyphen]
    rw [length?_seq, isClass_hyphen.length?_plus, if_pos none]
    rfl
  have absence : wordEnd.length? (c :: rest) =
      if ((wordChar <|> plus (Expr.text "-") >> wordChar).length? (c :: rest)).isSome then none
      else some 0 := rfl
  rw [absence, length?_alt, segment, Option.or_none, isClass_wordChar.isSome]

variable {text tail rest : Text} {size : Nat} {c : Char}

/-- A keyword is a word, whatever stands farther on. -/
theorem scanWord_keyword_append {named : Rule} {words : List String}
    (keywords : ∀ word ∈ words, IsKeyword word.toList)
    (read : (keyword named words).length? text = some size) (behind : text.drop size = c :: rest)
    (hyphen : c ≠ '-') : scanWord (text ++ tail) = (.word, size) := by
  obtain ⟨⟨word, mem, same⟩, ends⟩ := exists_word_of_keyword read
  have isKeyword := (keywords word mem).of_sameWord same
  have goesOn : wordEnd.length? (c :: rest ++ tail) = some 0 := by
    rw [behind, length?_wordEnd hyphen] at ends
    rw [List.cons_append, length?_wordEnd hyphen, ends]
  have found := scanWord_of_keyword isKeyword goesOn
  have fits := fits_length? _ _ _ read
  rwa [← behind, ← List.append_assoc, List.take_append_drop, List.length_take,
    Nat.min_eq_left fits] at found

theorem takeWhile_append_cons {p : Char → Bool} (stops : p c = false) (front more : Text) :
    (front ++ c :: more).takeWhile p = front.takeWhile p := by
  induction front with
  | nil => simp [stops]
  | cons d others ih => simp only [List.cons_append, List.takeWhile_cons, ih]

theorem wordLength_le_run (text : Text) : wordLength text ≤ (text.takeWhile isWordChar).length := by
  rw [wordLength_eq]
  split
  · exact Nat.zero_le _
  · exact (List.rdropWhile_prefix _ _).length_le

/-- Behind a word stands a hyphen or no character of a word. -/
theorem isWordChar_behind (word : wordLength text = size) (some : size ≠ 0)
    (behind : text.drop size = c :: rest) (hyphen : c ≠ '-') : isWordChar c = false := by
  rw [wordLength_eq] at word
  split at word
  · exact absurd word.symm some
  · have all : trimHyphens (text.takeWhile isWordChar) ++
        (text.takeWhile isWordChar).rtakeWhile (· == '-') = text.takeWhile isWordChar :=
      List.rdropWhile_append_rtakeWhile
    have whole := takeWhile_append_drop isWordChar text
    cases hyphens : (text.takeWhile isWordChar).rtakeWhile (· == '-') with
    | nil =>
        rw [hyphens, List.append_nil] at all
        rw [all] at word
        exact head?_drop_takeWhile text c (by rw [word, behind]; rfl)
    | cons d others =>
        have bare : (d == '-') = true :=
          List.mem_rtakeWhile_imp (p := (· == '-')) (hyphens ▸ List.mem_cons_self)
        rw [hyphens] at all
        rw [← all, List.append_assoc] at whole
        rw [← whole, ← word, List.drop_left] at behind
        exact absurd ((List.cons.inj behind).1 ▸ eq_of_beq bare) hyphen

/-- A word is a word, whatever stands farther on. -/
theorem scanWord_cobolWord_append (read : cobolWord.length? text = some size)
    (behind : text.drop size = c :: rest) (hyphen : c ≠ '-') (quote : isQuote c = false) :
    scanWord (text ++ tail) = (.word, size) := by
  obtain ⟨word, d, others, first, letter⟩ := exists_cons_of_length?_word read
  have some : size ≠ 0 := by
    rintro rfl
    rw [length?_cobolWord, if_pos word] at read
    cases read
  have ends := isWordChar_behind word some behind hyphen
  -- the run of word characters ends before the tail
  have run : (text ++ tail).takeWhile isWordChar = text.takeWhile isWordChar := by
    have split : text = text.take size ++ c :: rest := by
      rw [← behind, List.take_append_drop]
    rw [split, List.append_assoc, List.cons_append, takeWhile_append_cons ends,
      takeWhile_append_cons ends]
  have same : wordLength (text ++ tail) = size := by rw [wordLength_eq, run, ← wordLength_eq, word]
  have unopened : opening? (text ++ tail) = none := by
    subst first
    cases others with
    | nil =>
        obtain ⟨more, rfl⟩ : ∃ more, size = more + 1 := ⟨size - 1, by omega⟩
        simp at behind
    | cons e more =>
        refine opening?_eq_none_of_second (isQuote_of_isWordLetter letter) ?_ _
        by_contra second
        have other := isWordChar_of_isQuote (Bool.not_eq_false _ ▸ second)
        -- a quote in the second place ends the word behind its first letter
        have single : size = 1 := by
          have least := wordLength_le_run (d :: e :: more)
          rw [word, List.takeWhile_cons] at least
          split at least
          · simp only [List.takeWhile_cons, other, Bool.false_eq_true, if_false, List.length_cons,
              List.length_nil] at least
            omega
          · exact absurd (Nat.le_zero.mp least) some
        rw [single] at behind
        rw [(List.cons.inj behind).1] at second
        exact second quote
  rw [scanWord_of_word unopened (by rwa [same]), same]

/-- A body that is closed in front of a character is closed there, whatever stands farther on. -/
theorem bodyLength_append {q : Char} {body : Text} (closed : closes q body = true)
    (behind : body.drop (bodyLength q body + 1) = c :: rest) :
    bodyLength q (body ++ tail) = bodyLength q body ∧ closes q (body ++ tail) = true := by
  have same : bodyLength q (body ++ tail) = bodyLength q body := by
    fun_induction bodyLength q body with
    | case1 => cases closed
    | case2 d ends => cases behind
    | case3 d goesOn => simp [Scan.closes, bodyLength, goesOn] at closed
    | case4 d e more closes twice ih =>
        rw [Scan.closes, bodyLength, if_pos closes, if_pos twice] at closed
        have inner := ih closed behind
        simp only [List.cons_append, bodyLength, if_pos closes, if_pos twice, inner]
    | case5 d e more closes single =>
        simp only [List.cons_append, bodyLength, if_pos closes, if_neg single]
    | case6 d e more inside breaks =>
        simp only [List.cons_append, bodyLength, if_neg inside, if_pos breaks]
    | case7 d e more inside inLine ih =>
        rw [Scan.closes, bodyLength, if_neg inside, if_neg inLine] at closed
        have inner := ih closed behind
        simp only [List.cons_append] at inner
        simp only [List.cons_append, bodyLength, if_neg inside, if_neg inLine, inner]
  refine ⟨same, ?_⟩
  unfold closes at closed ⊢
  have fits : bodyLength q body ≤ body.length := by
    by_contra less
    rw [List.drop_of_length_le (by omega)] at closed
    cases closed
  rw [same, List.drop_append_of_le_length fits]
  rw [beq_iff_eq] at closed ⊢
  obtain ⟨others, split⟩ := List.head?_eq_some_iff.mp closed
  rw [split]
  rfl

/-- A literal is a literal, whatever stands farther on. -/
theorem scanWord_literal_append (read : alphanumericLiteral.length? text = some size)
    (behind : text.drop size = c :: rest) : scanWord (text ++ tail) = (.stringLiteral, size) := by
  rw [length?_alphanumericLiteral] at read
  split at read
  · rename_i length q body opened
    split at read
    · rename_i closed
      cases read
      have inside : body.drop (bodyLength q body + 1) = c :: rest := by
        rcases opening?_cases opened with ⟨-, one, same⟩ | ⟨letter, -, -, two, same⟩
        · obtain rfl : length = 1 := one
          rwa [same, Nat.add_comm, List.drop_succ_cons] at behind
        · obtain rfl : length = 2 := two
          rwa [same, Nat.add_comm, List.drop_succ_cons, List.drop_succ_cons] at behind
      obtain ⟨same, closes⟩ := @bodyLength_append tail _ _ _ _ closed inside
      rw [scanWord_of_closed (opening?_append opened tail) closes, same]
    · cases read
  · cases read

end Grammar

/-! ### Blanks and comments in front of a tail -/

/-- A run of blanks is the same run or goes on into the tail. -/
theorem blankLength_append (text tail : Text) : blankLength (text ++ tail) = blankLength text ∨
    text.length < blankLength (text ++ tail) ∧ IsFiller (fun _ => True) 0 text := by
  rcases Nat.lt_or_ge text.length (blankLength (text ++ tail)) with beyond | within
  · have all : text <+: (text ++ tail).take (blankLength (text ++ tail)) :=
      List.prefix_of_prefix_length_le (List.prefix_append text tail) (List.take_prefix _ _)
        (by rw [List.length_take, List.length_append]; omega)
    exact .inr ⟨beyond, isFiller_of_forall fun c mem => isFiller_of_mem_blanks (all.subset mem)⟩
  · left
    have same := blankLength_take within
    rw [List.take_left' rfl] at same
    exact same.symm

/-- A comment is the same comment or goes on into the tail. -/
theorem commentLength_append {text : Text} (comment : commentLength text ≠ 0) (tail : Text) :
    commentLength (text ++ tail) = commentLength text ∨
      text.length < commentLength (text ++ tail) ∧ IsFiller (fun _ => True) 0 text := by
  rcases Nat.lt_or_ge text.length (commentLength (text ++ tail)) with beyond | within
  · obtain ⟨rest, rfl⟩ := exists_of_commentLength comment
    refine .inr ⟨beyond, ?_⟩
    rw [← List.append_nil rest]
    refine .comment (fun c mem => ?_) True.intro .nil
    have all : rest <+: (rest ++ tail).takeWhile (!isLineBreak ·) :=
      List.prefix_of_prefix_length_le (List.prefix_append rest tail) (List.takeWhile_prefix _)
        (by simp only [List.cons_append, commentLength, lineLength, List.length_cons] at beyond
            omega)
    simpa using List.mem_takeWhile_imp (all.subset mem)
  · left
    have same := commentLength_take within
    rw [List.take_left' rfl] at same
    exact same.symm

/-- A blank or a comment is the same token or goes on into the tail. -/
theorem trivia_append {c : Char} {rest : Text}
    (trivial : blankLength (c :: rest) ≠ 0 ∨ commentLength (c :: rest) ≠ 0) (tail : Text) :
    (scan .word (c :: rest ++ tail)).1.isTrivia = true ∧
      (scan .word (c :: rest ++ tail) = scan .word (c :: rest) ∨
        (c :: rest).length < (scan .word (c :: rest ++ tail)).2 ∧
          IsFiller (fun _ => True) 0 (c :: rest)) := by
  have blank {text : Text} (some : blankLength text ≠ 0) :
      scan .word text = (.whitespace, blankLength text) := if_pos some
  have comment {text : Text} (some : commentLength text ≠ 0) :
      scan .word text = (.comment, commentLength text) := scan_of_commentLength (.inl rfl) some
  rcases trivial with some | some
  · rcases blankLength_append (c :: rest) tail with same | ⟨beyond, filler⟩
    · rw [blank (same ▸ some), blank some, same]
      exact ⟨rfl, .inl rfl⟩
    · rw [blank (Nat.ne_zero_of_lt beyond)]
      exact ⟨rfl, .inr ⟨beyond, filler⟩⟩
  · rcases commentLength_append some tail with same | ⟨beyond, filler⟩
    · rw [comment (same ▸ some), comment some, same]
      exact ⟨rfl, .inl rfl⟩
    · rw [comment (Nat.ne_zero_of_lt beyond)]
      exact ⟨rfl, .inr ⟨beyond, filler⟩⟩

end CobolTree
