import CobolTree.Proofs.Token.Line
import CobolTree.Proofs.Token.WordMode

/-!
A token is told by any part of the text that it fits in. Each pattern matches in a beginning of the
text what it matches in the whole, if the match does not reach past that beginning; as no match is
longer than the longest, the token itself is the same there (`scanSentence_take`).
-/

namespace CobolTree.Scan

/-! ### Patterns -/

theorem commentLength_take {text : Text} {count : Nat} (within : commentLength text ≤ count) :
    commentLength (text.take count) = commentLength text := by
  by_cases none : commentLength text = 0
  · by_contra some
    obtain ⟨rest, same⟩ := exists_of_commentLength (fun zero => some (zero.trans none.symm))
    have mark : ['*', '>'] <+: text := by
      refine List.IsPrefix.trans ⟨rest, same.symm⟩ (List.take_prefix count text)
    obtain ⟨behind, rfl⟩ := mark
    cases none
  · obtain ⟨rest, rfl⟩ := exists_of_commentLength none
    have size : commentLength ('*' :: '>' :: rest) = lineLength rest + 2 := rfl
    rw [size] at within ⊢
    obtain ⟨count, rfl⟩ : ∃ more, count = more + 2 := ⟨count - 2, by omega⟩
    have line : lineLength (rest.take count) = lineLength rest := by
      simp only [lineLength] at within ⊢
      rw [← List.take_takeWhile, List.take_of_length_le (by omega)]
    simp only [List.take_succ_cons, commentLength, line]

theorem trimHyphens_append_hyphens {trimmed hyphens : Text} (whole : trimHyphens trimmed = trimmed)
    (h : ∀ c ∈ hyphens, (c == '-') = true) : trimHyphens (trimmed ++ hyphens) = trimmed := by
  induction hyphens using List.reverseRecOn with
  | nil => rw [List.append_nil, whole]
  | append_singleton hyphens c ih =>
      have last : (c == '-') = true := h c (List.mem_append_right _ List.mem_cons_self)
      rw [trimHyphens, ← List.append_assoc, List.rdropWhile_concat_pos (· == '-') _ c last]
      exact ih fun d mem => h d (List.mem_append_left _ mem)

theorem wordLength_take {text : Text} {count : Nat} (within : wordLength text ≤ count) :
    wordLength (text.take count) = wordLength text := by
  rw [wordLength_eq] at within ⊢
  rw [wordLength_eq, ← List.take_takeWhile]
  generalize text.takeWhile isWordChar = run at within ⊢
  by_cases first : run.head? = some '-'
  · rw [if_pos first]
    cases count with
    | zero => rfl
    | succ count => rw [List.head?_take, if_neg (Nat.succ_ne_zero count), if_pos first]
  · have first' : (run.take count).head? ≠ some '-' := by
      rw [List.head?_take]
      split
      · exact nofun
      · exact first
    rw [if_neg first] at within ⊢
    rw [if_neg first']
    -- A run is what is left of it when its hyphens are trimmed, and hyphens behind.
    have all : trimHyphens run ++ run.rtakeWhile (· == '-') = run :=
      List.rdropWhile_append_rtakeWhile
    have bare : ∀ c ∈ run.rtakeWhile (· == '-'), (c == '-') = true := fun c mem =>
      List.mem_rtakeWhile_imp (p := (· == '-')) mem
    have cut : run.take count =
        trimHyphens run ++ (run.rtakeWhile (· == '-')).take (count - (trimHyphens run).length) :=
      calc run.take count
        _ = (trimHyphens run ++ run.rtakeWhile (· == '-')).take count := by rw [all]
        _ = _ := by rw [List.take_append, List.take_of_length_le within]
    have whole : trimHyphens (trimHyphens run) = trimHyphens run :=
      List.rdropWhile_idempotent _ _
    rw [cut, trimHyphens_append_hyphens whole fun c mem => bare c (List.mem_of_mem_take mem)]

theorem bodyLength_take {quote : Char} {text : Text} {count : Nat}
    (within : bodyLength quote text ≤ count) :
    bodyLength quote (text.take count) = bodyLength quote text := by
  fun_induction bodyLength quote text generalizing count with
  | case1 => simp [bodyLength]
  | case2 c ends => cases count <;> simp_all [bodyLength]
  | case3 c goesOn => cases count <;> simp_all [bodyLength]
  | case4 c d rest closes twice ih =>
      obtain ⟨count, rfl⟩ : ∃ more, count = more + 2 := ⟨count - 2, by omega⟩
      simp_all [bodyLength]
  | case5 c d rest closes single =>
      rcases count with _ | _ | count
      · rfl
      · simp_all [bodyLength]
      · simp_all [bodyLength]
  | case6 c d rest other breaks =>
      rcases count with _ | _ | count
      · rfl
      · simp_all [bodyLength]
      · simp_all [bodyLength]
  | case7 c d rest other inLine ih =>
      rcases count with _ | _ | count
      · omega
      · simp_all [bodyLength]
      · have behind := @ih (count + 1) (by omega)
        rw [List.take_succ_cons] at behind
        simp only [List.take_succ_cons, bodyLength, if_neg other, if_neg inLine, behind]

theorem closedBodyLength?_pos {quote : Char} {text : Text} {size : Nat}
    (closed : closedBodyLength? quote text = some size) : 0 < size := by
  fun_induction closedBodyLength? quote text generalizing size with
  | case1 => cases closed
  | case2 c same => cases closed; exact Nat.one_pos
  | case3 c other => cases closed
  | case4 c d rest same twice ih =>
      rcases Option.or_eq_some_iff.mp closed with inner | ⟨-, here⟩
      · obtain ⟨one, -, rfl⟩ := Option.map_eq_some_iff.mp inner
        omega
      · cases here
        exact Nat.one_pos
  | case5 c d rest same single => cases closed; exact Nat.one_pos
  | case6 c d rest other breaks => cases closed
  | case7 c d rest other inLine ih =>
      obtain ⟨one, -, rfl⟩ := Option.map_eq_some_iff.mp closed
      omega

/-- What closes a literal is found again, and nothing else closes it. -/
theorem closedBodyLength?_take {quote : Char} {text : Text} {count : Nat}
    (within : ∀ size, closedBodyLength? quote text = some size → size ≤ count) :
    closedBodyLength? quote (text.take count) = closedBodyLength? quote text := by
  fun_induction closedBodyLength? quote text generalizing count with
  | case1 => rw [List.take_nil, closedBodyLength?]
  | case2 c same =>
      have := within 1 rfl
      cases count with
      | zero => omega
      | succ count => simp [closedBodyLength?, same]
  | case3 c other => cases count <;> simp [closedBodyLength?, other]
  | case4 c d rest same twice ih =>
      -- The second of two quotes may go on with the literal, and else the first one closes it.
      have inner (size : Nat) (closed : closedBodyLength? quote rest = some size) :
          size + 2 ≤ count := within (size + 2) (by rw [closed]; rfl)
      rcases count with _ | _ | count
      · cases closed : closedBodyLength? quote rest with
        | none => exact absurd (within 1 (by rw [closed]; rfl)) (by omega)
        | some size => exact absurd (inner size closed) (by omega)
      · cases closed : closedBodyLength? quote rest with
        | none => simp [closedBodyLength?, same]
        | some size => exact absurd (inner size closed) (by omega)
      · have behind := @ih count fun size closed => by
          have := inner size closed
          omega
        simp only [List.take_succ_cons, closedBodyLength?, if_pos same, if_pos twice, behind]
  | case5 c d rest same single =>
      have := within 1 rfl
      rcases count with _ | _ | count
      · omega
      · simp [closedBodyLength?, same]
      · simp [closedBodyLength?, same, single]
  | case6 c d rest other breaks =>
      rcases count with _ | _ | count
      · rfl
      · simp [closedBodyLength?, other]
      · simp [closedBodyLength?, other, breaks]
  | case7 c d rest other inLine ih =>
      have inner (size : Nat) (closed : closedBodyLength? quote (d :: rest) = some size) :
          size + 1 ≤ count := within (size + 1) (by rw [closed]; rfl)
      have none_of_short (short : count ≤ 1) : closedBodyLength? quote (d :: rest) = none := by
        cases closed : closedBodyLength? quote (d :: rest) with
        | none => rfl
        | some size =>
            have := inner size closed
            have := closedBodyLength?_pos closed
            omega
      rcases count with _ | _ | count
      · rw [none_of_short (by omega)]
        rfl
      · rw [none_of_short (by omega)]
        simp [closedBodyLength?, other]
      · have behind := @ih (count + 1) fun size closed => by
          have := inner size closed
          omega
        rw [List.take_succ_cons] at behind
        simp only [List.take_succ_cons, closedBodyLength?, if_neg other, if_neg inLine, behind]

/-- A literal that opens in a beginning of the text opens in the text. -/
theorem opening?_append {text rest : Text} {size : Nat} {quote : Char}
    (h : opening? text = some (size, quote, rest)) (behind : Text) :
    opening? (text ++ behind) = some (size, quote, rest ++ behind) := by
  rcases opening?_cases h with ⟨isQuote, rfl, rfl⟩ | ⟨c, letter, isQuote, rfl, rfl⟩
  · simp only at isQuote
    simp [opening?, isQuote]
  · simp only at isQuote
    have other := isQuote_of_isWordLetter (isWordLetter_of_isLiteralLetter letter)
    simp [opening?, letter, isQuote, other]

theorem opening?_take {text : Text} {count : Nat} (within : openLiteralLength text ≤ count) :
    opening? (text.take count) =
      (opening? text).map fun (size, quote, rest) => (size, quote, rest.take (count - size)) := by
  cases opened : opening? text with
  | none =>
      cases taken : opening? (text.take count) with
      | none => rfl
      | some opening =>
          have whole := opening?_append taken (text.drop count)
          rw [List.take_append_drop, opened] at whole
          cases whole
  | some opening =>
      obtain ⟨size, q, rest⟩ := opening
      rw [openLiteralLength_of_opening? opened] at within
      rcases opening?_cases opened with ⟨quote, rfl, rfl⟩ | ⟨c, letter, quote, rfl, rfl⟩
      · obtain ⟨count, rfl⟩ : ∃ more, count = more + 1 := ⟨count - 1, by omega⟩
        simp only at quote
        simp [opening?, quote]
      · obtain ⟨count, rfl⟩ : ∃ more, count = more + 2 := ⟨count - 2, by omega⟩
        simp only at quote
        have other := isQuote_of_isWordLetter (isWordLetter_of_isLiteralLetter letter)
        simp [opening?, letter, quote, other]

theorem openLiteralLength_take {text : Text} {count : Nat}
    (within : openLiteralLength text ≤ count) :
    openLiteralLength (text.take count) = openLiteralLength text := by
  rw [openLiteralLength, opening?_take within]
  rw [openLiteralLength] at within ⊢
  cases opened : opening? text with
  | none => rfl
  | some opening =>
      obtain ⟨size, q, rest⟩ := opening
      simp only [opened, Option.map_some] at within ⊢
      rw [bodyLength_take (by omega)]

theorem closedLiteralLength_take {text : Text} {count : Nat}
    (opens : openLiteralLength text ≤ count) (within : closedLiteralLength text ≤ count) :
    closedLiteralLength (text.take count) = closedLiteralLength text := by
  rw [closedLiteralLength, opening?_take opens]
  rw [closedLiteralLength] at within ⊢
  cases opened : opening? text with
  | none => rfl
  | some opening =>
      obtain ⟨size, q, rest⟩ := opening
      simp only [opened, Option.map_some] at within ⊢
      rw [closedBodyLength?_take]
      intro inner closed
      rw [closed] at within
      simp only [Option.map_some, Option.getD_some] at within
      omega

theorem symbolLength_take {symbol text : Text} {count : Nat}
    (within : symbolLength symbol text ≤ count) :
    symbolLength symbol (text.take count) = symbolLength symbol text := by
  simp only [symbolLength, List.isPrefixOf_iff_prefix, List.prefix_take_iff] at within ⊢
  by_cases starts : symbol <+: text
  · rw [if_pos starts] at within ⊢
    rw [if_pos ⟨starts, within⟩]
  · rw [if_neg starts, if_neg fun both => starts both.1]

/-! ### Tokens -/

theorem le_foldl_longer (found : List (Kind × Nat)) (best : Kind × Nat) :
    best.2 ≤ (found.foldl longer best).2 ∧
      ∀ next ∈ found, next.2 ≤ (found.foldl longer best).2 := by
  induction found generalizing best with
  | nil => exact ⟨Nat.le_refl _, nofun⟩
  | cons next rest ih =>
      obtain ⟨first, behind⟩ := ih (longer best next)
      have both : best.2 ≤ (longer best next).2 ∧ next.2 ≤ (longer best next).2 := by
        rw [longer]
        split <;> omega
      rw [List.foldl_cons]
      exact ⟨both.1.trans first, List.forall_mem_cons.mpr ⟨both.2.trans first, behind⟩⟩

/-- No match of word mode is longer than its token. -/
theorem le_scanWord {text : Text} {found : Kind × Nat} (mem : found ∈ candidates text) :
    found.2 ≤ (scanWord text).2 := by
  have best : found.2 ≤ (longest (candidates text)).2 := (le_foldl_longer _ _).2 found mem
  simp only [scanWord]
  split
  · rename_i none
    omega
  · exact best

theorem scanWord_take {text : Text} {count : Nat} (within : (scanWord text).2 ≤ count) :
    scanWord (text.take count) = scanWord text := by
  have fits (found : Kind × Nat) (mem : found ∈ candidates text) : found.2 ≤ count :=
    (le_scanWord mem).trans within
  have comment := fits (.comment, commentLength text) (by simp [candidates])
  have word := fits (.word, wordLength text) (by simp [candidates])
  have closed := fits (.stringLiteral, closedLiteralLength text) (by simp [candidates])
  have opens := fits (.error, openLiteralLength text) (by simp [candidates])
  have same : candidates (text.take count) = candidates text :=
    candidates_congr (commentLength_take comment) (wordLength_take word)
      (closedLiteralLength_take opens closed) (openLiteralLength_take opens)
      fun entry mem => symbolLength_take (fits (entry.1, symbolLength entry.2 text)
        (List.mem_append_right _ (List.mem_map_of_mem mem)))
  rw [scanWord, same, ← scanWord]

theorem fractionLength_take {text : Text} {count : Nat} (within : fractionLength text ≤ count) :
    fractionLength (text.take count) = fractionLength text := by
  match text, count with
  | [], _ => rw [List.take_nil]
  | c :: rest, 0 => exact (Nat.le_zero.mp within).symm
  | c :: rest, count + 1 =>
      by_cases point : c = '.'
      · subst point
        simp only [fractionLength] at within
        simp only [List.take_succ_cons, fractionLength, ← List.take_takeWhile, List.length_take]
        split at within
        · rename_i none
          simp [none]
        · rename_i some
          rw [Nat.min_eq_right (by omega)]
      · simp [fractionLength, point]

theorem scanSentence_eq (text : Text) :
    scanSentence text =
      if (scanWord text).1 = .word ∧ (text.take (scanWord text).2).all Char.isDigit = true then
        (.numericLiteral, (scanWord text).2 + fractionLength (text.drop (scanWord text).2))
      else scanWord text := rfl

theorem scanWord_le_scanSentence (text : Text) : (scanWord text).2 ≤ (scanSentence text).2 := by
  rw [scanSentence_eq]
  split
  · exact Nat.le_add_right _ _
  · exact Nat.le_refl _

/-- Within a sentence too a token is told by any part of the text that it fits in. -/
theorem scanSentence_take {text : Text} {count : Nat} (within : (scanSentence text).2 ≤ count) :
    scanSentence (text.take count) = scanSentence text := by
  have fits := (scanWord_le_scanSentence text).trans within
  rw [scanSentence_eq] at within
  rw [scanSentence_eq, scanSentence_eq, scanWord_take fits, List.take_take, Nat.min_eq_left fits,
    List.drop_take]
  split at within
  · rename_i digits
    simp only at within
    rw [if_pos digits, if_pos digits, fractionLength_take (by omega)]
  · rename_i other
    rw [if_neg other, if_neg other]

theorem blankLength_take {text : Text} {count : Nat} (within : blankLength text ≤ count) :
    blankLength (text.take count) = blankLength text := by
  match text, count with
  | [], _ => rw [List.take_nil]
  | c :: rest, 0 => exact (Nat.le_zero.mp within).symm
  | c :: rest, count + 1 =>
      cases breaks : isLineBreak c with
      | true =>
          rw [blankLength_cons_of_break breaks] at within ⊢
          rw [List.take_succ_cons, blankLength_cons_of_break breaks, List.head?_take]
          split at within
          · rename_i both
            have head : count ≠ 0 := by omega
            simp only [if_neg head, if_pos both]
          · rename_i other
            rw [if_neg other, if_neg]
            rintro ⟨first, second⟩
            split at second
            · cases second
            · exact other ⟨first, second⟩
      | false =>
          rw [blankLength_cons_of_not_break breaks] at within ⊢
          rw [List.take_succ_cons, blankLength_cons_of_not_break breaks, ← List.take_succ_cons,
            ← List.take_takeWhile, List.length_take, Nat.min_eq_right within]

/-- The token in a mode without free text and pictures, told by any part of the text that it fits
in. -/
theorem scan_take {mode : Mode} (shared : mode = .word ∨ mode = .sentence) {text : Text}
    {count : Nat} (within : (scan mode text).2 ≤ count) :
    scan mode (text.take count) = scan mode text := by
  simp only [scan] at within ⊢
  by_cases blanks : blankLength text ≠ 0
  · rw [if_pos blanks] at within ⊢
    rw [blankLength_take within, if_pos blanks]
  · have none : blankLength text = 0 := not_ne_iff.mp blanks
    rw [if_neg blanks] at within ⊢
    rw [blankLength_take (by omega), if_neg blanks]
    rcases shared with rfl | rfl
    · exact scanWord_take within
    · exact scanSentence_take within

end CobolTree.Scan
