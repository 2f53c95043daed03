import CobolTree.Proofs.Token.Filler

/-!
Tokens lie within their lines. No pattern of the scanner looks past the end of the line it begins in
(`scan_eq_line`), and no match is longer than the line (`scan_le_length_line`), so a line feed is in
a token only if the token is a line break (`lineBreak_of_mem_scan`). What a text begins with is
therefore the same whatever stands behind a line feed that ends the text (`scan_append`).
-/

namespace CobolTree.Scan

/-- The first line of a text, without its line break. -/
def line (text : Text) : Text := text.takeWhile (!isLineBreak ·)

@[simp] theorem line_nil : line [] = [] := rfl

theorem line_cons_of_break {c : Char} (h : isLineBreak c = true) (text : Text) :
    line (c :: text) = [] := by
  simp [line, h]

theorem line_cons_of_not_break {c : Char} (h : isLineBreak c = false) (text : Text) :
    line (c :: text) = c :: line text := by
  simp [line, h]

theorem isLineBreak_of_mem_line {text : Text} {c : Char} (mem : c ∈ line text) :
    isLineBreak c = false := by
  simpa using List.mem_takeWhile_imp mem

@[simp] theorem line_line (text : Text) : line (line text) = line text :=
  List.takeWhile_eq_self_iff.mpr fun _ mem => by simp [isLineBreak_of_mem_line mem]

/-- A run of characters of the line is found in the line alone. -/
theorem takeWhile_line {p : Char → Bool} (inline : ∀ c, p c = true → isLineBreak c = false)
    (text : Text) : (line text).takeWhile p = text.takeWhile p := by
  induction text with
  | nil => rfl
  | cons c rest ih =>
      cases breaks : isLineBreak c with
      | true =>
          have out : ¬p c = true := fun inside => by simp [inline c inside] at breaks
          rw [line_cons_of_break breaks, List.takeWhile_cons_of_neg out, List.takeWhile_nil]
      | false =>
          rw [line_cons_of_not_break breaks, List.takeWhile_cons, List.takeWhile_cons, ih]

/-! ### No pattern looks past its line -/

theorem not_isLineBreak_of_isWordChar (c : Char) (h : isWordChar c = true) :
    isLineBreak c = false := by
  cases breaks : isLineBreak c with
  | false => rfl
  | true =>
      simp only [isLineBreak, Bool.or_eq_true, beq_iff_eq] at breaks
      rcases breaks with rfl | rfl
      · exact absurd h (by decide)
      · exact absurd h (by decide)

theorem not_isLineBreak_of_isQuote (c : Char) (h : isQuote c = true) : isLineBreak c = false := by
  simp only [isQuote, Bool.or_eq_true, beq_iff_eq] at h
  rcases h with rfl | rfl
  · rfl
  · rfl

theorem commentLength_line (text : Text) : commentLength (line text) = commentLength text := by
  match text with
  | [] => rfl
  | [c] =>
      cases breaks : isLineBreak c with
      | true => simp [line_cons_of_break breaks, commentLength]
      | false => simp [line_cons_of_not_break breaks]
  | c :: d :: rest =>
      by_cases mark : c = '*' ∧ d = '>'
      · obtain ⟨rfl, rfl⟩ := mark
        rw [line_cons_of_not_break (by decide), line_cons_of_not_break (by decide)]
        simp only [commentLength, lineLength]
        rw [← line, line_line, line]
      · have none (others : Text) : commentLength (c :: d :: others) = 0 := by
          unfold commentLength
          split
          · rename_i same
            simp only [List.cons.injEq] at same
            exact absurd ⟨same.1, same.2.1⟩ mark
          · rfl
        rw [none]
        cases first : isLineBreak c with
        | true => simp [line_cons_of_break first, commentLength]
        | false =>
            cases second : isLineBreak d with
            | true => simp [line_cons_of_not_break first, line_cons_of_break second, commentLength]
            | false =>
                rw [line_cons_of_not_break first, line_cons_of_not_break second]
                exact none _

theorem wordLength_line (text : Text) : wordLength (line text) = wordLength text := by
  simp only [wordLength, takeWhile_line not_isLineBreak_of_isWordChar]

/-- The opening of a literal stands in the line, with the line behind it. -/
theorem opening?_line (text : Text) :
    opening? (line text) =
      (opening? text).map fun (size, quote, rest) => (size, quote, line rest) := by
  match text with
  | [] => rfl
  | c :: rest =>
      cases breaks : isLineBreak c with
      | true =>
          have noQuote : isQuote c = false :=
            Bool.eq_false_iff.mpr fun quote => by simp [not_isLineBreak_of_isQuote c quote] at breaks
          have noLetter : isLiteralLetter c = false := by
            simp only [isLineBreak, Bool.or_eq_true, beq_iff_eq] at breaks
            rcases breaks with rfl | rfl
            · rfl
            · rfl
          simp [line_cons_of_break breaks, opening?, noQuote, noLetter]
      | false =>
          simp only [line_cons_of_not_break breaks, opening?]
          split
          · rfl
          · split
            · cases rest with
              | nil => rfl
              | cons q behind =>
                  cases second : isLineBreak q with
                  | true =>
                      have noQuote : isQuote q = false :=
                        Bool.eq_false_iff.mpr fun quote => by
                          simp [not_isLineBreak_of_isQuote q quote] at second
                      simp [line_cons_of_break second, noQuote]
                  | false =>
                      rw [line_cons_of_not_break second]
                      dsimp only
                      split
                      · rfl
                      · rfl
            · rfl

theorem bodyLength_line {quote : Char} (inline : isLineBreak quote = false) (text : Text) :
    bodyLength quote (line text) = bodyLength quote text := by
  fun_induction bodyLength quote text with
  | case1 => rfl
  | case2 c stops =>
      cases breaks : isLineBreak c with
      | true => simp [line_cons_of_break breaks, bodyLength]
      | false => simp [line_cons_of_not_break breaks, bodyLength, stops]
  | case3 c goesOn =>
      have breaks : isLineBreak c = false := by simp_all
      simp_all [line_cons_of_not_break breaks, bodyLength]
  | case4 c d rest first second ih =>
      have same : c = quote := by simpa using first
      have other : d = quote := by simpa using second
      rw [same, other, line_cons_of_not_break inline, line_cons_of_not_break inline, bodyLength]
      simp [ih]
  | case5 c d rest first second =>
      have same : c = quote := by simpa using first
      rw [same, line_cons_of_not_break inline]
      cases breaks : isLineBreak d with
      | true => simp [line_cons_of_break breaks, bodyLength]
      | false => simp [line_cons_of_not_break breaks, bodyLength, second]
  | case6 c d rest first breaks => simp [line_cons_of_break breaks, bodyLength]
  | case7 c d rest first goesOn ih =>
      have breaks : isLineBreak c = false := by simpa using goesOn
      rw [line_cons_of_not_break breaks]
      cases second : isLineBreak d with
      | true =>
          rw [line_cons_of_break second] at ih ⊢
          simp [bodyLength, first, breaks, ← ih]
      | false =>
          rw [line_cons_of_not_break second] at ih ⊢
          rw [bodyLength, if_neg first, if_neg goesOn, ih]

theorem closedBodyLength?_line {quote : Char} (inline : isLineBreak quote = false) (text : Text) :
    closedBodyLength? quote (line text) = closedBodyLength? quote text := by
  fun_induction closedBodyLength? quote text with
  | case1 => rfl
  | case2 c closes =>
      have same : c = quote := by simpa using closes
      simp [same, line_cons_of_not_break inline, closedBodyLength?]
  | case3 c other =>
      cases breaks : isLineBreak c with
      | true => simp [line_cons_of_break breaks, closedBodyLength?]
      | false => simp [line_cons_of_not_break breaks, closedBodyLength?, other]
  | case4 c d rest first second ih =>
      have same : c = quote := by simpa using first
      have other : d = quote := by simpa using second
      rw [same, other, line_cons_of_not_break inline, line_cons_of_not_break inline,
        closedBodyLength?]
      simp [ih]
  | case5 c d rest first second =>
      have same : c = quote := by simpa using first
      rw [same, line_cons_of_not_break inline]
      cases breaks : isLineBreak d with
      | true => simp [line_cons_of_break breaks, closedBodyLength?]
      | false => simp [line_cons_of_not_break breaks, closedBodyLength?, second]
  | case6 c d rest first breaks => simp [line_cons_of_break breaks, closedBodyLength?]
  | case7 c d rest first goesOn ih =>
      have breaks : isLineBreak c = false := by simpa using goesOn
      rw [line_cons_of_not_break breaks]
      cases second : isLineBreak d with
      | true =>
          rw [line_cons_of_break second] at ih ⊢
          simp [closedBodyLength?, first, ← ih]
      | false =>
          rw [line_cons_of_not_break second] at ih ⊢
          rw [closedBodyLength?, if_neg first, if_neg goesOn, ih]

theorem isQuote_of_opening? {text rest : Text} {size : Nat} {quote : Char}
    (h : opening? text = some (size, quote, rest)) :
    isQuote quote = true ∧ size + rest.length = text.length := by
  unfold opening? at h
  split at h
  · cases h
  · split at h
    · rename_i isOpening
      cases h
      exact ⟨isOpening, by simp [Nat.add_comm]⟩
    · split at h
      · split at h
        · split at h
          · rename_i isOpening
            cases h
            exact ⟨isOpening, by simp only [List.length_cons]; omega⟩
          · cases h
        · cases h
      · cases h

theorem closedLiteralLength_line (text : Text) :
    closedLiteralLength (line text) = closedLiteralLength text := by
  unfold closedLiteralLength
  rw [opening?_line]
  cases h : opening? text with
  | none => rfl
  | some found =>
      obtain ⟨size, quote, rest⟩ := found
      have inline := not_isLineBreak_of_isQuote quote (isQuote_of_opening? h).1
      simp [closedBodyLength?_line inline]

theorem openLiteralLength_line (text : Text) :
    openLiteralLength (line text) = openLiteralLength text := by
  unfold openLiteralLength
  rw [opening?_line]
  cases h : opening? text with
  | none => rfl
  | some found =>
      obtain ⟨size, quote, rest⟩ := found
      have inline := not_isLineBreak_of_isQuote quote (isQuote_of_opening? h).1
      simp [bodyLength_line inline]

theorem symbolLength_line {symbol : Text} (inline : ∀ c ∈ symbol, isLineBreak c = false)
    (text : Text) : symbolLength symbol (line text) = symbolLength symbol text := by
  have same : symbol.isPrefixOf (line text) = symbol.isPrefixOf text := by
    rw [Bool.eq_iff_iff, List.isPrefixOf_iff_prefix, List.isPrefixOf_iff_prefix]
    constructor
    · intro begins
      exact begins.trans (List.takeWhile_prefix _)
    · rintro ⟨rest, rfl⟩
      have inside : ∀ c ∈ symbol, (!isLineBreak c) = true := fun c mem => by simp [inline c mem]
      rw [line, List.takeWhile_append_of_pos inside]
      exact List.prefix_append _ _
  rw [symbolLength, symbolLength, same]

theorem not_isLineBreak_of_mem_symbols :
    ∀ entry ∈ symbols, ∀ c ∈ entry.2, isLineBreak c = false := by
  have all : symbols.all (fun entry => entry.2.all (!isLineBreak ·)) = true := rfl
  simpa only [List.all_eq_true, Bool.not_eq_true'] using all

/-- Texts with the same matches of each pattern have the same candidates. -/
theorem candidates_congr {s t : Text} (comment : commentLength s = commentLength t)
    (word : wordLength s = wordLength t) (closed : closedLiteralLength s = closedLiteralLength t)
    (opening : openLiteralLength s = openLiteralLength t)
    (marks : ∀ entry ∈ symbols, symbolLength entry.2 s = symbolLength entry.2 t) :
    candidates s = candidates t := by
  rw [candidates, candidates, comment, word, closed, opening]
  exact congrArg _ (List.map_congr_left fun entry mem => by simp only [marks entry mem])

theorem candidates_line (text : Text) : candidates (line text) = candidates text :=
  candidates_congr (commentLength_line text) (wordLength_line text) (closedLiteralLength_line text)
    (openLiteralLength_line text) fun entry mem =>
      symbolLength_line (not_isLineBreak_of_mem_symbols entry mem) text

theorem scanWord_line (text : Text) : scanWord (line text) = scanWord text := by
  rw [scanWord, scanWord, candidates_line]

theorem fractionLength_line (text : Text) : fractionLength (line text) = fractionLength text := by
  match text with
  | [] => rfl
  | c :: rest =>
      by_cases point : c = '.'
      · subst point
        have inline : ∀ c : Char, c.isDigit = true → isLineBreak c = false := fun c digit =>
          not_isLineBreak_of_isWordChar c (by simp [isWordChar, Char.isAlphanum, digit])
        rw [line_cons_of_not_break (by decide)]
        simp only [fractionLength, takeWhile_line inline]
      · have none (others : Text) : fractionLength (c :: others) = 0 := by
          unfold fractionLength
          split
          · rename_i same
            exact absurd (List.cons.inj same).1 point
          · rfl
        cases breaks : isLineBreak c with
        | true =>
            rw [line_cons_of_break breaks, none]
            rfl
        | false => rw [line_cons_of_not_break breaks, none, none]

/-- A line break ends a picture string as the end of the text does. -/
theorem endsHere_line (text : Text) : endsHere (line text) = endsHere text := by
  match text with
  | [] => rfl
  | c :: rest =>
      cases breaks : isLineBreak c with
      | false => simp [line_cons_of_not_break breaks, endsHere]
      | true =>
          simp only [isLineBreak, Bool.or_eq_true, beq_iff_eq] at breaks
          rcases breaks with rfl | rfl
          · rfl
          · rfl

theorem pictureLength_line (text : Text) : pictureLength (line text) = pictureLength text := by
  induction text with
  | nil => rfl
  | cons c rest ih =>
      cases breaks : isLineBreak c with
      | true => simp [line_cons_of_break breaks, pictureLength, breaks]
      | false => rw [line_cons_of_not_break breaks, pictureLength, pictureLength, endsHere_line, ih]

theorem scanPicture_line (text : Text) : scanPicture (line text) = scanPicture text := by
  rw [scanPicture, scanPicture, pictureLength_line, scanWord_line]

/-! ### No match is longer than its text -/

theorem commentLength_le (text : Text) : commentLength text ≤ text.length := by
  unfold commentLength
  split
  · rename_i rest
    have := (List.takeWhile_prefix (l := rest) (!isLineBreak ·)).length_le
    simp only [lineLength, List.length_cons]
    omega
  · omega

theorem wordLength_le (text : Text) : wordLength text ≤ text.length := by
  simp only [wordLength]
  split
  · exact Nat.zero_le _
  · have run := (List.takeWhile_prefix (l := text) isWordChar).length_le
    have trimmed := (List.dropWhile_suffix (l := (text.takeWhile isWordChar).reverse)
      (· == '-')).length_le
    rw [List.length_reverse] at trimmed
    omega

theorem bodyLength_le (quote : Char) (text : Text) : bodyLength quote text ≤ text.length := by
  fun_induction bodyLength quote text with
  | case1 => exact Nat.le_refl _
  | case2 => exact Nat.zero_le _
  | case3 => exact Nat.le_refl _
  | case4 c d rest first second ih => simpa using ih
  | case5 => exact Nat.zero_le _
  | case6 => exact Nat.zero_le _
  | case7 c d rest first goesOn ih => simpa using ih

theorem closedBodyLength?_le {quote : Char} {text : Text} {size : Nat}
    (h : closedBodyLength? quote text = some size) : size ≤ text.length := by
  fun_induction closedBodyLength? quote text generalizing size with
  | case1 => cases h
  | case2 c closes => simp_all
  | case3 => cases h
  | case4 c d rest first second ih =>
      cases closed : closedBodyLength? quote rest with
      | none =>
          simp only [closed, Option.map_none, Option.none_or, Option.some.injEq] at h
          simp [← h]
      | some inner =>
          have := ih closed
          simp only [closed, Option.map_some, Option.some_or, Option.some.injEq] at h
          simp only [List.length_cons]
          omega
  | case5 =>
      cases h
      simp
  | case6 => cases h
  | case7 c d rest first goesOn ih =>
      obtain ⟨inner, closed, rfl⟩ := Option.map_eq_some_iff.mp h
      simpa using ih closed

theorem closedLiteralLength_le (text : Text) : closedLiteralLength text ≤ text.length := by
  unfold closedLiteralLength
  split
  · rename_i size quote rest h
    have split := (isQuote_of_opening? h).2
    cases closed : closedBodyLength? quote rest with
    | none => exact Nat.zero_le _
    | some body =>
        have := closedBodyLength?_le closed
        simp only [Option.map_some, Option.getD_some]
        omega
  · exact Nat.zero_le _

theorem openLiteralLength_le (text : Text) : openLiteralLength text ≤ text.length := by
  unfold openLiteralLength
  split
  · rename_i size quote rest h
    have split := (isQuote_of_opening? h).2
    have := bodyLength_le quote rest
    omega
  · exact Nat.zero_le _

theorem symbolLength_le (symbol text : Text) : symbolLength symbol text ≤ text.length := by
  unfold symbolLength
  split
  · rename_i begins
    exact (List.isPrefixOf_iff_prefix.mp begins).length_le
  · exact Nat.zero_le _

theorem candidates_le {text : Text} : ∀ found ∈ candidates text, found.2 ≤ text.length := by
  intro found mem
  rw [candidates, List.mem_append] at mem
  rcases mem with first | symbol
  · simp only [List.mem_cons, List.not_mem_nil, or_false] at first
    rcases first with rfl | rfl | rfl | rfl
    · exact commentLength_le text
    · exact wordLength_le text
    · exact closedLiteralLength_le text
    · exact openLiteralLength_le text
  · obtain ⟨⟨kind, characters⟩, -, rfl⟩ := List.mem_map.mp symbol
    exact symbolLength_le characters text

theorem scanWord_le {text : Text} (left : text ≠ []) : (scanWord text).2 ≤ text.length := by
  have size := List.length_pos_iff.mpr left
  simp only [scanWord]
  split
  · exact size
  · rcases longest_mem (candidates text) with none | mem
    · simp [none]
    · exact candidates_le _ mem

theorem fractionLength_le (text : Text) : fractionLength text ≤ text.length := by
  unfold fractionLength
  split
  · rename_i rest
    have := (List.takeWhile_prefix (l := rest) Char.isDigit).length_le
    simp only [List.length_cons]
    split <;> omega
  · exact Nat.zero_le _

theorem scanSentence_le {text : Text} (left : text ≠ []) :
    (scanSentence text).2 ≤ text.length := by
  have word := scanWord_le left
  have fraction := fractionLength_le (text.drop (scanWord text).2)
  rw [List.length_drop] at fraction
  simp only [scanSentence]
  split
  · simp only
    omega
  · exact word

theorem pictureLength_le (text : Text) : pictureLength text ≤ text.length := by
  induction text with
  | nil => exact Nat.le_refl _
  | cons c rest ih =>
      rw [pictureLength]
      split
      · exact Nat.zero_le _
      · split
        · exact Nat.zero_le _
        · simpa using ih

theorem scanPicture_le {text : Text} (left : text ≠ []) : (scanPicture text).2 ≤ text.length := by
  simp only [scanPicture]
  split
  · exact scanWord_le left
  · exact pictureLength_le text

theorem blankLength_le (text : Text) : blankLength text ≤ text.length := by
  unfold blankLength
  split
  · simp
  · split
    · simp
    · exact (List.takeWhile_prefix isSpace).length_le
  · exact Nat.le_refl _

/-- The token that a text begins with is part of the text. -/
theorem scan_le (mode : Mode) {text : Text} (left : text ≠ []) :
    (scan mode text).2 ≤ text.length := by
  simp only [scan]
  split
  · exact blankLength_le text
  · cases mode with
    | word => exact scanWord_le left
    | sentence => exact scanSentence_le left
    | commentEntry => exact (List.takeWhile_prefix _).length_le
    | picture => exact scanPicture_le left

/-! ### Tokens within their lines -/

theorem take_line {text : Text} {size : Nat} (within : size ≤ (line text).length) :
    (line text).take size = text.take size := by
  obtain ⟨rest, split⟩ : line text <+: text := List.takeWhile_prefix _
  rw [← List.take_append_of_le_length within, split]

theorem line_drop {text : Text} {size : Nat} (within : size ≤ (line text).length) :
    line (text.drop size) = (line text).drop size := by
  induction text generalizing size with
  | nil => simp
  | cons c rest ih =>
      cases size with
      | zero => rfl
      | succ size =>
          cases breaks : isLineBreak c with
          | true => simp [line_cons_of_break breaks] at within
          | false =>
              rw [line_cons_of_not_break breaks] at within ⊢
              exact ih (Nat.le_of_succ_le_succ within)

theorem scanSentence_line {text : Text} (left : line text ≠ []) :
    scanSentence (line text) = scanSentence text := by
  have within : (scanWord text).2 ≤ (line text).length := by
    rw [← scanWord_line]
    exact scanWord_le left
  simp only [scanSentence, scanWord_line, take_line within]
  rw [← line_drop within, fractionLength_line]

theorem blankLength_cons_of_not_break {c : Char} (h : isLineBreak c = false) (rest : Text) :
    blankLength (c :: rest) = ((c :: rest).takeWhile isSpace).length := by
  unfold blankLength
  split
  · rename_i first
    cases first
    exact absurd h (by decide)
  · rename_i first
    cases first
    rw [if_neg (by simp [h])]
  · rename_i empty
    cases empty

/-- A carriage return takes a line feed with it. -/
theorem blankLength_cons_of_break {c : Char} (h : isLineBreak c = true) (rest : Text) :
    blankLength (c :: rest) = if c = '\r' ∧ rest.head? = some '\n' then 2 else 1 := by
  unfold blankLength
  split
  · rename_i first
    cases first
    rfl
  · rename_i other first
    cases first
    rw [if_pos h, if_neg]
    rintro ⟨rfl, feed⟩
    obtain ⟨behind, rfl⟩ := List.head?_eq_some_iff.mp feed
    exact other behind rfl rfl
  · rename_i empty
    cases empty

theorem not_isLineBreak_of_isSpace (c : Char) (h : isSpace c = true) : isLineBreak c = false := by
  simp only [isSpace, Bool.or_eq_true, beq_iff_eq] at h
  rcases h with (rfl | rfl) | rfl
  · rfl
  · rfl
  · rfl

theorem exists_eq_cons_of_line {text : Text} (inline : line text ≠ []) :
    ∃ c rest, text = c :: rest ∧ isLineBreak c = false := by
  cases text with
  | nil => exact absurd rfl inline
  | cons c rest =>
      refine ⟨c, rest, rfl, Bool.eq_false_iff.mpr fun breaks => ?_⟩
      exact inline (line_cons_of_break breaks rest)

theorem exists_eq_cons_of_no_line {text : Text} (left : text ≠ []) (none : line text = []) :
    ∃ c rest, text = c :: rest ∧ isLineBreak c = true := by
  obtain ⟨c, rest, rfl⟩ := List.exists_cons_of_ne_nil left
  cases breaks : isLineBreak c with
  | true => exact ⟨c, rest, rfl, breaks⟩
  | false =>
      rw [line_cons_of_not_break breaks] at none
      cases none

theorem blankLength_line {text : Text} (inline : line text ≠ []) :
    blankLength (line text) = blankLength text := by
  obtain ⟨c, rest, rfl, breaks⟩ := exists_eq_cons_of_line inline
  rw [line_cons_of_not_break breaks, blankLength_cons_of_not_break breaks,
    blankLength_cons_of_not_break breaks, ← line_cons_of_not_break breaks,
    takeWhile_line not_isLineBreak_of_isSpace]

/-- The line alone tells what token it begins with. -/
theorem scan_eq_line (mode : Mode) {text : Text} (inline : line text ≠ []) :
    scan mode text = scan mode (line text) := by
  simp only [scan, blankLength_line inline]
  cases mode with
  | word => rw [scanWord_line]
  | sentence => rw [scanSentence_line inline]
  | commentEntry => rw [lineLength, lineLength, ← line, ← line, line_line]
  | picture => rw [scanPicture_line]

/-- A token that begins in a line lies in it. -/
theorem scan_le_length_line (mode : Mode) {text : Text} (inline : line text ≠ []) :
    (scan mode text).2 ≤ (line text).length := by
  rw [scan_eq_line mode inline]
  exact scan_le mode inline

/-- Where a line ends, its line break is a token of its own. -/
theorem scan_of_break (mode : Mode) {c : Char} (breaks : isLineBreak c = true) (rest : Text) :
    scan mode (c :: rest) =
      (.whitespace, if c = '\r' ∧ rest.head? = some '\n' then 2 else 1) := by
  have blanks := blankLength_cons_of_break breaks rest
  have some : blankLength (c :: rest) ≠ 0 := by
    rw [blanks]
    split
    · decide
    · decide
  unfold scan
  simp only [if_pos some]
  rw [blanks]

/-- A token with a line feed in it is a line break. -/
theorem lineBreak_of_mem_scan {mode : Mode} {text : Text} (left : text ≠ [])
    (feed : '\n' ∈ text.take (scan mode text).2) :
    (scan mode text).1 = .whitespace ∧
      (text.take (scan mode text).2 = ['\n'] ∨ text.take (scan mode text).2 = ['\r', '\n']) := by
  by_cases inline : line text = []
  · obtain ⟨c, rest, rfl, breaks⟩ := exists_eq_cons_of_no_line left inline
    rw [scan_of_break mode breaks] at feed ⊢
    refine ⟨rfl, ?_⟩
    by_cases pair : c = '\r' ∧ rest.head? = some '\n'
    · obtain ⟨rfl, second⟩ := pair
      obtain ⟨behind, rfl⟩ := List.head?_eq_some_iff.mp second
      exact .inr rfl
    · simp only [if_neg pair, List.take_succ_cons, List.take_zero, List.mem_singleton] at feed ⊢
      exact .inl (by rw [← feed])
  · have within := scan_le_length_line mode inline
    rw [← take_line within] at feed
    have := isLineBreak_of_mem_line (List.mem_of_mem_take feed)
    simp [isLineBreak] at this

/-! ### Texts that end a line -/

/-- The last character of the text is a line feed. -/
def EndsLine (text : Text) : Prop := ['\n'] <:+ text

theorem EndsLine.line_append {text : Text} (ends : EndsLine text) (rest : Text) :
    line (text ++ rest) = line text := by
  obtain ⟨lines, rfl⟩ := ends
  have feed : isLineBreak '\n' = true := by decide
  induction lines with
  | nil => rw [List.nil_append, List.singleton_append, line_cons_of_break feed,
      line_cons_of_break feed]
  | cons c lines ih =>
      cases breaks : isLineBreak c with
      | true =>
          rw [List.cons_append, List.cons_append, line_cons_of_break breaks,
            line_cons_of_break breaks]
      | false =>
          rw [List.cons_append, List.cons_append, line_cons_of_not_break breaks,
            line_cons_of_not_break breaks, ih]

/-- A text that ends a line ends it as long as some of the text is left. -/
theorem EndsLine.of_suffix {text rest : Text} (ends : EndsLine text) (suffix : rest <:+ text)
    (left : rest ≠ []) : EndsLine rest := by
  rcases List.suffix_or_suffix_of_suffix ends suffix with inside | outside
  · exact inside
  · rcases List.suffix_cons_iff.mp outside with same | empty
    · exact same ▸ List.suffix_refl _
    · exact absurd (List.suffix_nil.mp empty) left

theorem EndsLine.append {rest : Text} (ends : EndsLine rest) (text : Text) :
    EndsLine (text ++ rest) := ends.trans (List.suffix_append text rest)

theorem EndsLine.ne_nil {text : Text} (ends : EndsLine text) : text ≠ [] := by
  rintro rfl
  simp [EndsLine] at ends

/-- What a text that ends a line begins with does not depend on what stands behind it. -/
theorem scan_append (mode : Mode) {text : Text} (ends : EndsLine text) (rest : Text) :
    scan mode (text ++ rest) = scan mode text := by
  by_cases inline : line text = []
  · obtain ⟨c, behind, rfl, breaks⟩ := exists_eq_cons_of_no_line ends.ne_nil inline
    rw [List.cons_append, scan_of_break mode breaks, scan_of_break mode breaks]
    cases behind with
    | cons d behind => rfl
    | nil =>
        -- a text of one character that ends a line is a line feed
        obtain ⟨lines, same⟩ := ends
        obtain ⟨-, rfl⟩ : lines = [] ∧ '\n' = c := by simpa [List.append_eq_cons_iff] using same
        rfl
  · have whole : line (text ++ rest) ≠ [] := by rwa [ends.line_append]
    rw [scan_eq_line mode whole, scan_eq_line mode inline, ends.line_append]

end CobolTree.Scan
