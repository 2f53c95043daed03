import CobolTree.Proofs.Source.Recasing
import CobolTree.Proofs.Token.Filler
import Mathlib.Data.List.DropRight

/-!
What word mode finds. A text begins with a comment, with a literal, with a word or with a symbol,
and it is told from its first characters which; so the longest match is the only match that counts
(`scanWord_eq`). The one exception is a literal, which two patterns match: the closed one is longer
if a quote closes the longest body, and else the open one is (`closedBodyLength?_spec`).
-/

namespace CobolTree

/-! ### Words -/

namespace Scan

/-- A letter, a digit or an underscore. -/
def isWordLetter (c : Char) : Bool := c.isAlphanum || c == '_'

/-- A run of characters without the hyphens that it ends in. -/
def trimHyphens (run : Text) : Text := run.rdropWhile (· == '-')

theorem isWordChar_eq (c : Char) : isWordChar c = (isWordLetter c || c == '-') := rfl

theorem isWordLetter_hyphen : isWordLetter '-' = false := by decide

theorem wordLength_eq (text : Text) :
    wordLength text =
      if (text.takeWhile isWordChar).head? = some '-' then 0
      else (trimHyphens (text.takeWhile isWordChar)).length := by
  simp only [wordLength, trimHyphens, List.rdropWhile, List.length_reverse]

/-- Nothing is trimmed from a letter on to the left. -/
theorem trimHyphens_append_cons {c : Char} (letter : isWordLetter c = true) (s run : Text) :
    trimHyphens (s ++ c :: run) = s ++ c :: trimHyphens run := by
  have other : c ≠ '-' := by
    rintro rfl
    rw [isWordLetter_hyphen] at letter
    cases letter
  simp only [trimHyphens, List.rdropWhile, List.reverse_append, List.reverse_cons,
    List.append_assoc, List.dropWhile_append, List.isEmpty_iff]
  split
  · rename_i none
    simp [none, other]
  · simp

theorem trimHyphens_letters_append {letters : Text} (some : letters ≠ [])
    (h : ∀ c ∈ letters, isWordLetter c = true) (s run : Text) :
    trimHyphens (s ++ (letters ++ run)) = s ++ (letters ++ trimHyphens run) := by
  obtain none | ⟨before, c, rfl⟩ := List.eq_nil_or_concat letters
  · exact absurd none some
  · have letter := h c (by simp)
    have here := trimHyphens_append_cons letter (s ++ before) run
    simpa using here

theorem trimHyphens_of_hyphens {run : Text} (h : ∀ c ∈ run, (c == '-') = true) :
    trimHyphens run = [] := List.rdropWhile_eq_nil_iff.mpr h

/-- A run begins with the run of any narrower class. -/
theorem takeWhile_of_imp {p q : Char → Bool} (h : ∀ c, p c = true → q c = true) (text : Text) :
    text.takeWhile q =
      text.takeWhile p ++ (text.drop (text.takeWhile p).length).takeWhile q := by
  induction text with
  | nil => rfl
  | cons c rest ih =>
      rw [List.takeWhile_cons (p := p)]
      cases here : p c with
      | false => rfl
      | true => simp [h c here, ih]

theorem head?_drop_takeWhile {p : Char → Bool} (text : Text) (c : Char)
    (h : (text.drop (text.takeWhile p).length).head? = some c) : p c = false := by
  induction text with
  | nil => cases h
  | cons d rest ih =>
      rw [List.takeWhile_cons] at h
      cases here : p d with
      | false =>
          simp only [here] at h
          cases h
          exact here
      | true =>
          simp only [here] at h
          exact ih h

theorem wordLength_eq_zero {text : Text}
    (h : ∀ c, text.head? = some c → isWordLetter c = false) : wordLength text = 0 := by
  rw [wordLength_eq]
  cases text with
  | nil => rfl
  | cons c rest =>
      rw [List.takeWhile_cons, isWordChar_eq, h c rfl, Bool.false_or]
      cases hyphen : c == '-' with
      | false => rfl
      | true => rw [eq_of_beq hyphen]; rfl

/-! ### Literals -/

theorem isWordLetter_of_isLiteralLetter {c : Char} (letter : isLiteralLetter c = true) :
    isWordLetter c = true := by
  have alphanum : c.toUpper.isAlphanum = true := by
    simp only [isLiteralLetter, Bool.or_eq_true, beq_iff_eq] at letter
    rcases letter with (((same | same) | same) | same) | same <;> rw [same] <;> decide
  rw [caseless_isAlphanum] at alphanum
  rw [isWordLetter, alphanum, Bool.true_or]

theorem isQuote_of_isWordLetter {c : Char} (letter : isWordLetter c = true) :
    isQuote c = false := by
  cases quote : isQuote c with
  | false => rfl
  | true =>
      simp only [isQuote, Bool.or_eq_true, beq_iff_eq] at quote
      rcases quote with rfl | rfl <;> revert letter <;> decide

theorem isWordChar_of_isQuote {c : Char} (quote : isQuote c = true) : isWordChar c = false := by
  simp only [isQuote, Bool.or_eq_true, beq_iff_eq] at quote
  rcases quote with rfl | rfl <;> decide

/-- A literal opens with a quote, or with a letter and a quote. -/
theorem opening?_cases {text : Text} {opened : Nat × Char × Text}
    (h : opening? text = some opened) :
    (isQuote opened.2.1 = true ∧ opened.1 = 1 ∧ text = opened.2.1 :: opened.2.2) ∨
      ∃ c, isLiteralLetter c = true ∧ isQuote opened.2.1 = true ∧ opened.1 = 2 ∧
        text = c :: opened.2.1 :: opened.2.2 := by
  unfold opening? at h
  split at h
  · cases h
  · rename_i c rest
    split at h
    · rename_i quote
      cases h
      exact .inl ⟨quote, rfl, rfl⟩
    · split at h
      · rename_i letter
        split at h
        · rename_i q behind
          split at h
          · rename_i quote
            cases h
            exact .inr ⟨c, letter, quote, rfl, rfl⟩
          · cases h
        · cases h
      · cases h

/-- Behind the longest body of a literal stands its closing quote. -/
def closes (q : Char) (text : Text) : Bool := (text.drop (bodyLength q text)).head? == some q

/-- A literal that is closed ends at the quote behind its longest body; a body that is not
closed goes on behind any quote that might have closed it. -/
theorem closedBodyLength?_spec (q : Char) (text : Text) :
    if closes q text then closedBodyLength? q text = some (bodyLength q text + 1)
    else ∀ size, closedBodyLength? q text = some size → size < bodyLength q text := by
  unfold closes
  fun_induction bodyLength q text with
  | case1 => simp [closedBodyLength?]
  | case2 c ends => 
      by_cases same : c = q
      · simp [closedBodyLength?, same]
      · simp [closedBodyLength?, same]
  | case3 c goesOn => simp_all [closedBodyLength?]
  | case4 c d rest quote twice ih =>
      have shape : closedBodyLength? q (c :: d :: rest) =
          ((closedBodyLength? q rest).map (· + 2)).or (some 1) := by
        rw [closedBodyLength?, if_pos quote, if_pos twice]
      rw [shape, List.drop_succ_cons, List.drop_succ_cons]
      split at ih
      · rename_i closed
        rw [if_pos closed, ih]
        rfl
      · rename_i goesOn
        rw [if_neg goesOn]
        intro size found
        rcases Option.or_eq_some_iff.mp found with inner | ⟨-, here⟩
        · obtain ⟨one, closed, rfl⟩ := Option.map_eq_some_iff.mp inner
          have := ih one closed
          omega
        · cases here
          omega
  | case5 c d rest quote single => simp_all [closedBodyLength?]
  | case6 c d rest other breaks => simp_all [closedBodyLength?]
  | case7 c d rest other inLine ih =>
      have shape : closedBodyLength? q (c :: d :: rest) =
          (closedBodyLength? q (d :: rest)).map (· + 1) := by
        rw [closedBodyLength?, if_neg other, if_neg inLine]
      rw [shape, List.drop_succ_cons]
      split at ih
      · rename_i closed
        rw [if_pos closed, ih]
        rfl
      · rename_i goesOn
        rw [if_neg goesOn]
        intro size found
        obtain ⟨one, closed, rfl⟩ := Option.map_eq_some_iff.mp found
        have := ih one closed
        omega

/-! ### The longest match -/

theorem foldl_longer_of_le {found : List (Kind × Nat)} {best : Kind × Nat}
    (h : ∀ next ∈ found, next.2 ≤ best.2) : found.foldl longer best = best := by
  induction found with
  | nil => rfl
  | cons next rest ih =>
      obtain ⟨first, behind⟩ := List.forall_mem_cons.mp h
      rw [List.foldl_cons, longer, if_neg (by omega)]
      exact ih behind

/-- The symbols with their matches. -/
def symbolMatches (text : Text) : List (Kind × Nat) :=
  symbols.map fun (kind, symbol) => (kind, symbolLength symbol text)

theorem symbolMatches_le (text : Text) : ∀ found ∈ symbolMatches text, found.2 ≤ 2 := by
  intro found mem
  obtain ⟨⟨kind, symbol⟩, inside, rfl⟩ := List.mem_map.mp mem
  have short : symbols.all fun entry => decide (entry.2.length ≤ 2) := by decide
  have size := List.all_eq_true.mp short _ inside
  simp only [decide_eq_true_eq] at size
  simp only [symbolLength]
  split <;> omega

/-- No symbol begins with a letter, with a digit or with a quote. -/
theorem symbolMatches_eq_zero {c : Char} (h : isWordLetter c = true ∨ isQuote c = true)
    (rest : Text) : ∀ found ∈ symbolMatches (c :: rest), found.2 = 0 := by
  intro found mem
  obtain ⟨⟨kind, symbol⟩, inside, rfl⟩ := List.mem_map.mp mem
  have heads : symbols.all fun entry =>
      (entry.2.head?.map fun d => !isWordLetter d && !isQuote d).getD false := by decide
  have head := List.all_eq_true.mp heads _ inside
  cases symbol with
  | nil => cases head
  | cons d others =>
      have other : d ≠ c := by
        rintro rfl
        simp only [List.head?_cons, Option.map_some, Option.getD_some] at head
        rcases h with letter | quote
        · simp [letter] at head
        · simp [quote] at head
      simp [symbolLength, other]

/-- What word mode finds where no comment, no literal and no word begins. -/
def scanSymbol (text : Text) : Kind × Nat :=
  let best := longest (symbolMatches text)
  if best.2 = 0 then (.error, 1) else best

/-- A match that is longer than all before it and not shorter than those behind it. -/
theorem foldl_longer_append {before behind : List (Kind × Nat)} {best found : Kind × Nat}
    (first : best.2 < found.2) (earlier : ∀ next ∈ before, next.2 < found.2)
    (later : ∀ next ∈ behind, next.2 ≤ found.2) :
    (before ++ found :: behind).foldl longer best = found := by
  induction before generalizing best with
  | nil => rw [List.nil_append, List.foldl_cons, longer, if_pos first, foldl_longer_of_le later]
  | cons next rest ih =>
      obtain ⟨here, others⟩ := List.forall_mem_cons.mp earlier
      rw [List.cons_append, List.foldl_cons]
      refine ih ?_ others
      rw [longer]
      split <;> assumption

/-- The one match that decides what word mode finds. -/
theorem scanWord_of_longest {text : Text} {found : Kind × Nat} (before behind : List (Kind × Nat))
    (all : candidates text = before ++ found :: behind)
    (some : 0 < found.2) (earlier : ∀ next ∈ before, next.2 < found.2)
    (later : ∀ next ∈ behind, next.2 ≤ found.2) : scanWord text = found := by
  have best : longest (candidates text) = found := by
    rw [all]
    exact foldl_longer_append some earlier later
  simp only [scanWord, best]
  exact if_neg (by omega)

theorem exists_of_commentLength {text : Text} (h : commentLength text ≠ 0) :
    ∃ rest, text = '*' :: '>' :: rest := by
  unfold commentLength at h
  split at h
  · exact ⟨_, rfl⟩
  · exact absurd rfl h

/-- A comment is longer than any symbol that it begins with. -/
theorem scanWord_of_comment {text : Text} (h : commentLength text ≠ 0) :
    scanWord text = (.comment, commentLength text) := by
  obtain ⟨rest, rfl⟩ := exists_of_commentLength h
  refine scanWord_of_longest [] ([(.word, 0), (.stringLiteral, 0), (.error, 0)] ++
    symbolMatches ('*' :: '>' :: rest)) rfl (by simp [commentLength]) (by simp) ?_
  have long : 2 ≤ commentLength ('*' :: '>' :: rest) := by simp [commentLength]
  intro next mem
  rcases List.mem_append.mp mem with first | symbol
  · simp only [List.mem_cons, List.not_mem_nil, or_false] at first
    rcases first with rfl | rfl | rfl <;> exact Nat.zero_le _
  · exact Nat.le_trans (symbolMatches_le _ next symbol) long

section Opening

variable {text rest : Text} {size : Nat} {q : Char}

theorem commentLength_of_letter {c : Char} (h : isWordLetter c = true ∨ isQuote c = true)
    (rest : Text) : commentLength (c :: rest) = 0 := by
  have other : c ≠ '*' := by
    rintro rfl
    revert h
    decide
  cases rest with
  | nil => simp [commentLength]
  | cons d rest => simp [commentLength, other]

/-- Where a literal opens, no other pattern reads as far as its quote. -/
structure Opens (text : Text) (size : Nat) : Prop where
  comment : commentLength text = 0
  word : wordLength text < size
  symbols : ∀ found ∈ symbolMatches text, found.2 = 0

theorem opens_of_opening? (h : opening? text = some (size, q, rest)) : Opens text size := by
  rcases opening?_cases h with ⟨quote, rfl, rfl⟩ | ⟨c, letter, quote, rfl, rfl⟩
  · simp only at quote
    refine ⟨commentLength_of_letter (.inr quote) _, ?_, symbolMatches_eq_zero (.inr quote) _⟩
    simp [wordLength_eq, isWordChar_of_isQuote quote, trimHyphens]
  · simp only at quote
    have letter := isWordLetter_of_isLiteralLetter letter
    refine ⟨commentLength_of_letter (.inl letter) _, ?_, symbolMatches_eq_zero (.inl letter) _⟩
    have run : (c :: q :: rest).takeWhile isWordChar = [c] := by
      simp [isWordChar_eq c, letter, isWordChar_of_isQuote quote]
    have trimmed := trimHyphens_append_cons letter [] []
    rw [wordLength_eq, run]
    split
    · exact Nat.two_pos
    · rw [← List.nil_append [c], trimmed]
      exact Nat.one_lt_two

theorem openLiteralLength_of_opening? (h : opening? text = some (size, q, rest)) :
    openLiteralLength text = size + bodyLength q rest := by
  simp [openLiteralLength, h, Nat.add_comm]

theorem scanWord_of_closed (h : opening? text = some (size, q, rest))
    (closed : closes q rest = true) :
    scanWord text = (.stringLiteral, size + (bodyLength q rest + 1)) := by
  have opens := opens_of_opening? h
  have word := opens.word
  have spec := closedBodyLength?_spec q rest
  rw [if_pos closed] at spec
  have literal : closedLiteralLength text = size + (bodyLength q rest + 1) := by
    simp [closedLiteralLength, h, spec, Nat.add_comm]
  refine scanWord_of_longest [(.comment, 0), (.word, wordLength text)]
    ((.error, size + bodyLength q rest) :: symbolMatches text) ?_ (Nat.succ_pos _) ?_ ?_
  · rw [candidates, opens.comment, literal, openLiteralLength_of_opening? h]
    rfl
  · simp only [List.forall_mem_cons, List.not_mem_nil, false_implies, implies_true, and_true]
    omega
  · refine List.forall_mem_cons.mpr ⟨by simp only; omega, fun found mem => ?_⟩
    rw [opens.symbols found mem]
    exact Nat.zero_le _

theorem scanWord_of_open (h : opening? text = some (size, q, rest))
    (isOpen : closes q rest = false) : scanWord text = (.error, size + bodyLength q rest) := by
  have opens := opens_of_opening? h
  have word := opens.word
  have spec := closedBodyLength?_spec q rest
  rw [if_neg (by simp [isOpen])] at spec
  have literal : closedLiteralLength text < size + bodyLength q rest := by
    simp only [closedLiteralLength, h]
    cases closed : closedBodyLength? q rest with
    | none =>
        simp only [Option.map_none, Option.getD_none]
        omega
    | some inner =>
        have := spec inner closed
        simp only [Option.map_some, Option.getD_some]
        omega
  refine scanWord_of_longest
    [(.comment, 0), (.word, wordLength text), (.stringLiteral, closedLiteralLength text)]
    (symbolMatches text) ?_ (by simp only; omega) ?_ fun found mem => ?_
  · rw [candidates, opens.comment, openLiteralLength_of_opening? h]
    rfl
  · simp only [List.forall_mem_cons, List.not_mem_nil, false_implies, implies_true, and_true]
    omega
  · rw [opens.symbols found mem]
    exact Nat.zero_le _

end Opening

/-- A word begins with a letter. -/
theorem exists_cons_of_wordLength {text : Text} (h : wordLength text ≠ 0) :
    ∃ c rest, text = c :: rest ∧ isWordLetter c = true := by
  cases text with
  | nil => exact absurd rfl h
  | cons c rest =>
      refine ⟨c, rest, rfl, ?_⟩
      cases letter : isWordLetter c with
      | true => rfl
      | false =>
          refine absurd (wordLength_eq_zero fun d head => ?_) h
          cases head
          exact letter

section NoOpening

variable {text : Text} (none : opening? text = none)

include none

theorem literalLengths_of_opening? :
    closedLiteralLength text = 0 ∧ openLiteralLength text = 0 := by
  simp [closedLiteralLength, openLiteralLength, none]

theorem scanWord_of_word (h : wordLength text ≠ 0) : scanWord text = (.word, wordLength text) := by
  obtain ⟨c, rest, rfl, letter⟩ := exists_cons_of_wordLength h
  have literals := literalLengths_of_opening? none
  refine scanWord_of_longest [(.comment, 0)] ([(.stringLiteral, 0), (.error, 0)] ++
    symbolMatches (c :: rest)) ?_ (Nat.pos_of_ne_zero h) ?_ fun found mem => ?_
  · rw [candidates, commentLength_of_letter (.inl letter), literals.1, literals.2]
    rfl
  · simpa using Nat.pos_of_ne_zero h
  · rcases List.mem_append.mp mem with literal | symbol
    · simp only [List.mem_cons, List.not_mem_nil, or_false] at literal
      rcases literal with rfl | rfl <;> exact Nat.zero_le _
    · rw [symbolMatches_eq_zero (.inl letter) rest found symbol]
      exact Nat.zero_le _

theorem scanWord_of_symbol (comment : commentLength text = 0) (word : wordLength text = 0) :
    scanWord text = scanSymbol text := by
  have literals := literalLengths_of_opening? none
  have all : longest (candidates text) = longest (symbolMatches text) := by
    have first : [(Kind.comment, 0), (.word, 0), (.stringLiteral, 0), (.error, 0)].foldl longer
        (.error, 0) = (.error, 0) := foldl_longer_of_le (by decide)
    rw [candidates, comment, word, literals.1, literals.2, longest, List.foldl_append, first,
      longest, symbolMatches]
  simp only [scanWord, scanSymbol, all]

end NoOpening

/-- What word mode finds, by how the text begins. -/
theorem scanWord_eq (text : Text) :
    scanWord text =
      if commentLength text ≠ 0 then (.comment, commentLength text)
      else match opening? text with
        | some (size, q, rest) =>
            if closes q rest then (.stringLiteral, size + (bodyLength q rest + 1))
            else (.error, size + bodyLength q rest)
        | none =>
            if wordLength text ≠ 0 then (.word, wordLength text) else scanSymbol text := by
  split
  · rename_i comment
    exact scanWord_of_comment comment
  · rename_i comment
    split
    · rename_i size q rest opened
      split
      · rename_i closed
        exact scanWord_of_closed opened closed
      · rename_i isOpen
        exact scanWord_of_open opened (Bool.eq_false_iff.mpr isOpen)
    · rename_i unopened
      split
      · rename_i word
        exact scanWord_of_word unopened word
      · rename_i word
        exact scanWord_of_symbol unopened (not_ne_iff.mp comment) (not_ne_iff.mp word)

end Scan

end CobolTree
