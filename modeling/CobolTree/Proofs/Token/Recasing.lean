import CobolTree.Proofs.Source.Recasing
import CobolTree.Proofs.Token.Line

/-!
The scanner does not see case. Every pattern has the same match in a text and in any recasing of it,
so a recased text begins with a token of the same kind and length in every mode
(`Recasing.scan_text`).
-/

namespace CobolTree.Recasing

open Scan

variable (recasing : Recasing)

theorem isLineBreak_letter (c : Char) : isLineBreak (recasing.letter c) = isLineBreak c :=
  recasing.apply_letter caseless_isLineBreak c

theorem isQuote_letter (c : Char) : isQuote (recasing.letter c) = isQuote c :=
  recasing.apply_letter caseless_isQuote c

theorem caseless_of_isQuote {quote : Char} (h : isQuote quote = true) :
    Caseless (· = quote) := by
  simp only [isQuote, Bool.or_eq_true, beq_iff_eq] at h
  rcases h with rfl | rfl
  · exact caseless_eq rfl
  · exact caseless_eq rfl

/-! ### Patterns -/

theorem blankLength_text (text : Text) : blankLength (recasing.text text) = blankLength text := by
  match text with
  | [] => rfl
  | c :: rest =>
      cases breaks : isLineBreak c with
      | false =>
          have others : isLineBreak (recasing.letter c) = false := by
            rw [recasing.isLineBreak_letter, breaks]
          have row := recasing.takeWhile_text caseless_isSpace (c :: rest)
          rw [text_cons] at row ⊢
          rw [blankLength_cons_of_not_break breaks, blankLength_cons_of_not_break others, row,
            length_text]
      | true =>
          have others : isLineBreak (recasing.letter c) = true := by
            rw [recasing.isLineBreak_letter, breaks]
          have feed : (recasing.text rest).head? = some '\n' ↔ rest.head? = some '\n' := by
            rw [Recasing.text, List.head?_map]
            cases rest.head? with
            | none => simp
            | some d => simp [recasing.letter_eq_iff caseless_feed]
          rw [text_cons, blankLength_cons_of_break breaks, blankLength_cons_of_break others]
          simp only [recasing.letter_eq_iff caseless_return, feed]

theorem lineLength_text (text : Text) : lineLength (recasing.text text) = lineLength text := by
  rw [lineLength, recasing.takeWhile_text (caseless_isLineBreak.comp (!·)), length_text, lineLength]

theorem commentLength_text (text : Text) :
    commentLength (recasing.text text) = commentLength text := by
  by_cases mark : ∃ rest, text = '*' :: '>' :: rest
  · obtain ⟨rest, rfl⟩ := mark
    rw [text_cons, text_cons, recasing.letter_eq caseless_star,
      recasing.letter_eq caseless_greater, commentLength, commentLength, lineLength_text]
  · have none {others : Text} (h : ¬∃ rest, others = '*' :: '>' :: rest) :
        commentLength others = 0 := by
      unfold commentLength
      split
      · exact absurd ⟨_, rfl⟩ h
      · rfl
    rw [none mark, none]
    rintro ⟨rest, same⟩
    cases text with
    | nil => cases same
    | cons c behind =>
        cases behind with
        | nil => cases (List.cons.inj same).2
        | cons d others =>
            simp only [text_cons, List.cons.injEq] at same
            have star := (recasing.letter_eq_iff caseless_star).mp same.1
            have greater := (recasing.letter_eq_iff caseless_greater).mp same.2.1
            exact mark ⟨others, by rw [star, greater]⟩

theorem wordLength_text (text : Text) : wordLength (recasing.text text) = wordLength text := by
  have hyphens : Caseless (· == '-') := by
    intro c
    simpa using caseless_hyphen c
  have first : ((recasing.text (text.takeWhile isWordChar)).head? = some '-') =
      ((text.takeWhile isWordChar).head? = some '-') := by
    rw [Recasing.text, List.head?_map]
    cases (text.takeWhile isWordChar).head? with
    | none => rfl
    | some c => simp [recasing.letter_eq_iff caseless_hyphen]
  have back : (recasing.text (text.takeWhile isWordChar)).reverse =
      recasing.text (text.takeWhile isWordChar).reverse := List.map_reverse.symm
  simp only [wordLength, recasing.takeWhile_text caseless_isWordChar, first, back,
    recasing.dropWhile_text hyphens, length_text]

theorem opening?_text (text : Text) :
    opening? (recasing.text text) =
      (opening? text).map fun (size, quote, rest) => (size, quote, recasing.text rest) := by
  have letter (c : Char) : isLiteralLetter (recasing.letter c) = isLiteralLetter c :=
    recasing.apply_letter caseless_isLiteralLetter c
  match text with
  | [] => rfl
  | c :: rest =>
      simp only [text_cons, opening?, recasing.isQuote_letter, letter]
      split
      · rename_i quote
        simp [recasing.letter_eq (caseless_of_isQuote quote)]
      · split
        · cases rest with
          | nil => rfl
          | cons q behind =>
              simp only [text_cons, recasing.isQuote_letter]
              split
              · rename_i quote
                simp [recasing.letter_eq (caseless_of_isQuote quote)]
              · rfl
        · rfl

section Quotes

variable {quote : Char} (caseless : Caseless (· = quote)) (text : Text)

include caseless

theorem bodyLength_text : bodyLength quote (recasing.text text) = bodyLength quote text := by
  fun_induction bodyLength quote text <;>
    simp_all [bodyLength, recasing.beq_letter caseless, recasing.isLineBreak_letter]

theorem closedBodyLength?_text :
    closedBodyLength? quote (recasing.text text) = closedBodyLength? quote text := by
  fun_induction closedBodyLength? quote text <;>
    simp_all [closedBodyLength?, recasing.beq_letter caseless, recasing.isLineBreak_letter]

end Quotes

theorem closedLiteralLength_text (text : Text) :
    closedLiteralLength (recasing.text text) = closedLiteralLength text := by
  unfold closedLiteralLength
  rw [opening?_text]
  cases h : opening? text with
  | none => rfl
  | some found =>
      obtain ⟨size, quote, rest⟩ := found
      have caseless := caseless_of_isQuote (isQuote_of_opening? h).1
      simp [recasing.closedBodyLength?_text caseless]

theorem openLiteralLength_text (text : Text) :
    openLiteralLength (recasing.text text) = openLiteralLength text := by
  unfold openLiteralLength
  rw [opening?_text]
  cases h : opening? text with
  | none => rfl
  | some found =>
      obtain ⟨size, quote, rest⟩ := found
      have caseless := caseless_of_isQuote (isQuote_of_opening? h).1
      simp [recasing.bodyLength_text caseless]

/-- A symbol has no letters, so it stands where it stood. -/
theorem symbolLength_text {symbol : Text} (caseless : ∀ d ∈ symbol, Caseless (· = d))
    (text : Text) : symbolLength symbol (recasing.text text) = symbolLength symbol text := by
  have same : symbol.isPrefixOf (recasing.text text) = symbol.isPrefixOf text := by
    induction symbol generalizing text with
    | nil => rfl
    | cons d symbol ih =>
        cases text with
        | nil => rfl
        | cons c rest =>
            have first := recasing.beq_letter (caseless d List.mem_cons_self) c
            have others := ih (fun e mem => caseless e (List.mem_cons_of_mem d mem)) rest
            rw [text_cons, List.isPrefixOf_cons_cons, List.isPrefixOf_cons_cons, others,
              Bool.beq_comm, first, Bool.beq_comm]
  rw [symbolLength, symbolLength, same]

theorem caseless_of_mem_symbols : ∀ entry ∈ symbols, ∀ d ∈ entry.2, Caseless (· = d) := by
  have marks : symbols.all (fun entry => entry.2.all (!·.isAlpha)) = true := by decide
  intro entry mem d inside
  have mark := List.all_eq_true.mp (List.all_eq_true.mp marks entry mem) d inside
  exact caseless_eq (by simpa using mark)

theorem scanWord_text (text : Text) : scanWord (recasing.text text) = scanWord text := by
  have found : candidates (recasing.text text) = candidates text :=
    candidates_congr (recasing.commentLength_text text) (recasing.wordLength_text text)
      (recasing.closedLiteralLength_text text) (recasing.openLiteralLength_text text)
      fun entry mem => recasing.symbolLength_text (caseless_of_mem_symbols entry mem) text
  rw [scanWord, scanWord, found]

theorem fractionLength_text (text : Text) :
    fractionLength (recasing.text text) = fractionLength text := by
  by_cases point : ∃ rest, text = '.' :: rest
  · obtain ⟨rest, rfl⟩ := point
    rw [text_cons, recasing.letter_eq caseless_point]
    simp only [fractionLength, recasing.takeWhile_text caseless_isDigit, length_text]
  · have none {others : Text} (h : ¬∃ rest, others = '.' :: rest) : fractionLength others = 0 := by
      unfold fractionLength
      split
      · exact absurd ⟨_, rfl⟩ h
      · rfl
    rw [none point, none]
    rintro ⟨rest, same⟩
    cases text with
    | nil => cases same
    | cons c others =>
        simp only [text_cons, List.cons.injEq] at same
        exact point ⟨others, by rw [(recasing.letter_eq_iff caseless_point).mp same.1]⟩

theorem scanSentence_text (text : Text) :
    scanSentence (recasing.text text) = scanSentence text := by
  simp only [scanSentence, scanWord_text, ← text_take, ← text_drop,
    recasing.all_text caseless_isDigit, fractionLength_text]

theorem pictureLength_text (text : Text) :
    pictureLength (recasing.text text) = pictureLength text := by
  induction text with
  | nil => rfl
  | cons c rest ih =>
      have ends : endsHere (recasing.text rest) = endsHere rest := by
        cases rest with
        | nil => rfl
        | cons d others => exact recasing.apply_letter caseless_isBlank d
      rw [text_cons, pictureLength, pictureLength, ih, ends,
        recasing.apply_letter caseless_isSpace, recasing.isLineBreak_letter,
        recasing.beq_letter caseless_point, recasing.beq_letter caseless_comma,
        recasing.beq_letter caseless_semicolon]

theorem scanPicture_text (text : Text) : scanPicture (recasing.text text) = scanPicture text := by
  rw [scanPicture, scanPicture, pictureLength_text, scanWord_text]

/-- A text begins with a token of the same kind and length in whatever case it is written. -/
theorem scan_text (mode : Mode) (text : Text) :
    scan mode (recasing.text text) = scan mode text := by
  simp only [scan, blankLength_text]
  cases mode with
  | word => rw [scanWord_text]
  | sentence => rw [scanSentence_text]
  | commentEntry => rw [lineLength_text]
  | picture => rw [scanPicture_text]

end CobolTree.Recasing
