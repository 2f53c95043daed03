import CobolTree.Grammar.Data
import CobolTree.Grammar.Environment
import CobolTree.Proofs.Agreement.Words
import CobolTree.Proofs.Grammar.Row
import CobolTree.Proofs.Token.Prefix

/-!
The atomic rules of the ENVIRONMENT and the DATA DIVISION against the tokens of a sentence. A rule
that reads a text reads the token that a sentence finds there, with four exceptions (`LiesOn`): a
rule of digits leaves the fraction of a number behind, a number may begin with its point or with a
sign, and a word may be the letter before a quote. Picture strings have a mode of their own and are
left aside.
-/

namespace CobolTree

open CobolTree.Expr Scan

/-! ### The end of a word -/

/-- What a class of characters does not read does not begin with one of them. -/
theorem Expr.IsClass.of_not_isSome {e : Expr} {p : Char → Bool} (h : e.IsClass p) {text : Text}
    (none : (e.length? text).isSome = false) {c : Char} (head : text.head? = some c) :
    p c = false := by
  obtain ⟨rest, rfl⟩ : ∃ rest, text = c :: rest := List.head?_eq_some_iff.mp head
  rwa [h.isSome] at none

namespace Grammar

/-- Where a word ends, at most hyphens go on. -/
theorem trimHyphens_of_wordEnd {text : Text} {size : Nat}
    (read : wordEnd.length? text = some size) :
    size = 0 ∧ trimHyphens (text.takeWhile isWordChar) = [] := by
  have absence : wordEnd.length? text =
      if ((wordChar <|> plus (Expr.text "-") >> wordChar).length? text).isSome then none
      else some 0 := rfl
  rw [absence, length?_alt, Option.isSome_or] at read
  split at read
  · cases read
  · rename_i neither
    cases read
    refine ⟨rfl, ?_⟩
    simp only [Bool.or_eq_true, not_or, Bool.not_eq_true] at neither
    obtain ⟨noLetter, noSegment⟩ := neither
    have run := takeWhile_of_imp (p := (· == '-')) (q := isWordChar)
      (fun c hyphen => by simp [isWordChar_eq, hyphen]) text
    have all : ∀ c ∈ text.takeWhile (· == '-'), (c == '-') = true := fun _ =>
      List.mem_takeWhile_imp
    have behind (c : Char) := head?_drop_takeWhile (p := (· == '-')) text c
    rw [length?_seq, isClass_hyphen.length?_plus] at noSegment
    have letter (c : Char)
        (head : (text.drop (text.takeWhile (· == '-')).length).head? = some c) :
        isWordLetter c = false := by
      by_cases bare : text.takeWhile (· == '-') = []
      · rw [bare, List.length_nil, List.drop_zero] at head
        exact isClass_wordChar.of_not_isSome noLetter head
      · rw [if_neg bare, Option.bind_some, Option.isSome_map] at noSegment
        exact isClass_wordChar.of_not_isSome noSegment head
    rw [run, takeWhile_isWordChar_eq_nil letter behind, List.append_nil,
      trimHyphens_of_hyphens all]

theorem takeWhile_append_drop (p : Char → Bool) (text : Text) :
    text.takeWhile p ++ text.drop (text.takeWhile p).length = text :=
  calc text.takeWhile p ++ text.drop (text.takeWhile p).length
    _ = text.take (text.takeWhile p).length ++ text.drop (text.takeWhile p).length := by
      rw [take_length_takeWhile]
    _ = text := List.take_append_drop _ text

/-- Where at most hyphens go on, a word ends. -/
theorem length?_wordEnd_of_trimHyphens {text : Text}
    (bare : trimHyphens (text.takeWhile isWordChar) = []) : wordEnd.length? text = some 0 := by
  have absence : wordEnd.length? text =
      if ((wordChar <|> plus (Expr.text "-") >> wordChar).length? text).isSome then none
      else some 0 := rfl
  -- a letter behind these characters would not be trimmed
  have stops (before : Text) (all : ∀ c ∈ before, isWordChar c = true) (c : Char) (rest : Text)
      (split : text = before ++ c :: rest) : isWordLetter c = false := by
    by_contra letter
    rw [Bool.not_eq_false] at letter
    have char : isWordChar c = true := by rw [isWordChar_eq, letter, Bool.true_or]
    rw [split, List.takeWhile_append_of_pos all, List.takeWhile_cons, if_pos char,
      trimHyphens_append_cons letter] at bare
    exact absurd bare (by simp)
  rw [absence, length?_alt, Option.isSome_or, if_neg]
  rw [Bool.or_eq_true, not_or, Bool.not_eq_true, Bool.not_eq_true]
  constructor
  · cases text with
    | nil => rfl
    | cons c rest => rw [isClass_wordChar.isSome, stops [] nofun c rest rfl]
  · rw [length?_seq, isClass_hyphen.length?_plus]
    split
    · rfl
    · rw [Option.bind_some, Option.isSome_map]
      cases behind : text.drop (text.takeWhile (· == '-')).length with
      | nil => rfl
      | cons c rest =>
          rw [isClass_wordChar.isSome]
          refine stops (text.takeWhile (· == '-')) (fun d mem => ?_) c rest ?_
          · rw [isWordChar_eq, List.mem_takeWhile_imp (p := (· == '-')) mem, Bool.or_true]
          · rw [← behind, takeWhile_append_drop]

/-- Behind a run that ends in a letter, a word goes on up to the last letter of what follows. -/
theorem wordLength_append {word : Text} {c : Char} (all : ∀ d ∈ word, isWordChar d = true)
    (first : word.head? ≠ some '-') (last : word.getLast? = some c)
    (letter : isWordLetter c = true) (rest : Text) :
    wordLength (word ++ rest) =
      word.length + (trimHyphens (rest.takeWhile isWordChar)).length := by
  obtain ⟨before, rfl⟩ := List.getLast?_eq_some_iff.mp last
  have run : (before ++ [c] ++ rest).takeWhile isWordChar =
      before ++ c :: rest.takeWhile isWordChar := by
    rw [List.takeWhile_append_of_pos all]
    simp
  have head : (before ++ c :: rest.takeWhile isWordChar).head? ≠ some '-' := by
    cases before with
    | nil => exact first
    | cons d others => exact first
  rw [wordLength_eq, run, if_neg head, trimHyphens_append_cons letter]
  simp [Nat.add_assoc, Nat.add_comm 1]

/-- A run that ends in a letter is a word if no more of a word follows. -/
theorem wordLength_of_wordEnd {word rest : Text} {c : Char} {size : Nat}
    (all : ∀ d ∈ word, isWordChar d = true) (first : word.head? ≠ some '-')
    (last : word.getLast? = some c) (letter : isWordLetter c = true)
    (ends : wordEnd.length? rest = some size) : wordLength (word ++ rest) = word.length := by
  rw [wordLength_append all first last letter, (trimHyphens_of_wordEnd ends).2]
  rfl

end Grammar

/-! ### Keywords -/

/-- A word as keywords are: at least two characters, a letter first and no hyphen last. -/
structure IsKeyword (word : Text) : Prop where
  all : word.map isWordChar = List.replicate word.length true
  first : word.head?.map (fun c => isWordLetter c && !c.isDigit) = some true
  last : word.getLast?.map isWordLetter = some true
  long : 2 ≤ word.length

instance (word : Text) : Decidable (IsKeyword word) :=
  decidable_of_iff (word.map isWordChar = List.replicate word.length true ∧
    word.head?.map (fun c => isWordLetter c && !c.isDigit) = some true ∧
      word.getLast?.map isWordLetter = some true ∧ 2 ≤ word.length)
    ⟨fun ⟨all, first, last, long⟩ => ⟨all, first, last, long⟩,
      fun ⟨all, first, last, long⟩ => ⟨all, first, last, long⟩⟩

theorem caseless_isWordLetter : Caseless isWordLetter := .of_letters (by decide)

theorem caseless_first : Caseless fun c => isWordLetter c && !c.isDigit := .of_letters (by decide)

theorem map_of_sameWord {α : Type} {f : Char → α} (caseless : Caseless f) {s t : Text}
    (same : Text.sameWord s t = true) : s.map f = t.map f := by
  have upper (text : Text) : text.upper.map f = text.map f := by
    rw [Text.upper, List.map_map]
    exact List.map_congr_left fun c _ => caseless c
  rw [← upper s, ← upper t, eq_of_beq same]

/-- A keyword stays one in any case. -/
theorem IsKeyword.of_sameWord {s t : Text} (keyword : IsKeyword t)
    (same : Text.sameWord s t = true) : IsKeyword s := by
  have length : s.length = t.length := by
    have := congrArg List.length (map_of_sameWord caseless_isWordChar same)
    rwa [List.length_map, List.length_map] at this
  constructor
  · rw [map_of_sameWord caseless_isWordChar same, keyword.all, length]
  · rw [← List.head?_map, map_of_sameWord caseless_first same, List.head?_map, keyword.first]
  · rw [← List.getLast?_map, map_of_sameWord caseless_isWordLetter same, List.getLast?_map,
      keyword.last]
  · rw [length]
    exact keyword.long

theorem IsKeyword.forall_isWordChar {word : Text} (keyword : IsKeyword word) :
    ∀ c ∈ word, isWordChar c = true := by
  intro c mem
  have inside : isWordChar c ∈ word.map isWordChar := List.mem_map_of_mem mem
  rw [keyword.all] at inside
  exact (List.mem_replicate.mp inside).2

/-- Choices between keywords. -/
def Expr.isWords : Expr → Bool
  | anyCase word => decide (IsKeyword word)
  | alt first second => first.isWords && second.isWords
  | _ => false

/-- A rule that reads one of some keywords as a whole word. -/
def Expr.isKeywordRule : Expr → Bool
  | rule _ true (seq words stop) => words.isWords && stop == Grammar.wordEnd
  | _ => false

/-- What a choice between keywords reads is one of them in some case. -/
theorem Expr.isKeyword_of_isWords {e : Expr} (h : e.isWords = true) {text : Text} {size : Nat}
    (read : e.length? text = some size) :
    IsKeyword (text.take size) ∧ (text.take size).length = size := by
  induction e with
  | anyCase word =>
      rw [length?] at read
      split at read
      · rename_i same
        cases read
        have keyword := IsKeyword.of_sameWord (of_decide_eq_true h) same
        have length := congrArg List.length (map_of_sameWord caseless_isWordChar same)
        exact ⟨keyword, by simpa using length⟩
      · cases read
  | alt first second ihFirst ihSecond =>
      obtain ⟨one, two⟩ := Bool.and_eq_true_iff.mp h
      rcases Option.or_eq_some_iff.mp read with left | ⟨-, right⟩
      · exact ihFirst one left
      · exact ihSecond two right
  | exact | anyChar | digit | alphanumeric | lineBreak | ending | seq | star | opt | absent | rule =>
      cases h

theorem opening?_eq_none_of_second {c d : Char} (first : isQuote c = false)
    (second : isQuote d = false) (rest : Text) : opening? (c :: d :: rest) = none := by
  simp [opening?, first, second]

theorem isQuote_of_isWordChar {c : Char} (word : isWordChar c = true) : isQuote c = false := by
  cases quote : isQuote c with
  | false => rfl
  | true =>
      rw [isWordChar_of_isQuote quote] at word
      cases word

/-- What does not begin with a digit alone is the same within a sentence. -/
theorem scanSentence_of_word {text : Text} {size : Nat} (word : scanWord text = (.word, size))
    (other : (text.take size).all Char.isDigit = false) : scanSentence text = (.word, size) := by
  rw [scanSentence_eq, word, if_neg]
  rintro ⟨-, digits⟩
  rw [other] at digits
  cases digits

/-- A word of digits is a number, with the fraction behind it. -/
theorem scanSentence_of_digits {text : Text} {size : Nat} (word : scanWord text = (.word, size))
    (digits : (text.take size).all Char.isDigit = true) :
    scanSentence text = (.numericLiteral, size + fractionLength (text.drop size)) := by
  rw [scanSentence_eq, word, if_pos ⟨rfl, digits⟩]

theorem scanSentence_of_other {text : Text} (other : (scanWord text).1 ≠ .word) :
    scanSentence text = scanWord text := by
  rw [scanSentence_eq, if_neg fun both => other both.1]

/-- A keyword is a word, or the beginning of a longer one. -/
theorem IsKeyword.wordLength_append {word : Text} (keyword : IsKeyword word) (rest : Text) :
    wordLength (word ++ rest) =
      word.length + (trimHyphens (rest.takeWhile isWordChar)).length := by
  obtain ⟨last, ending, letter⟩ := Option.map_eq_some_iff.mp keyword.last
  obtain ⟨first, head, begins⟩ := Option.map_eq_some_iff.mp keyword.first
  obtain ⟨begins, -⟩ := Bool.and_eq_true_iff.mp begins
  refine Grammar.wordLength_append keyword.forall_isWordChar ?_ ending letter rest
  rw [head]
  intro same
  rw [Option.some.inj same, isWordLetter_hyphen] at begins
  cases begins

/-- A keyword is a word. -/
theorem scanWord_of_keyword {word rest : Text} (keyword : IsKeyword word) {size : Nat}
    (ends : Grammar.wordEnd.length? rest = some size) :
    scanWord (word ++ rest) = (.word, word.length) := by
  have all := keyword.forall_isWordChar
  obtain ⟨first, head, begins⟩ := Option.map_eq_some_iff.mp keyword.first
  obtain ⟨begins, -⟩ := Bool.and_eq_true_iff.mp begins
  have length : wordLength (word ++ rest) = word.length := by
    rw [keyword.wordLength_append, (Grammar.trimHyphens_of_wordEnd ends).2]
    rfl
  match word, keyword.long with
  | c :: d :: tail, _ =>
      obtain rfl : first = c := (Option.some.inj head).symm
      have unopened : opening? (first :: d :: tail ++ rest) = none :=
        opening?_eq_none_of_second (isQuote_of_isWordLetter begins)
          (isQuote_of_isWordChar (all d (by simp))) (tail ++ rest)
      have found := scanWord_of_word unopened (by rw [length]; exact Nat.succ_ne_zero _)
      rwa [length] at found

/-- A keyword is a word of the sentence. -/
theorem scanSentence_of_keyword {word rest : Text} (keyword : IsKeyword word) {size : Nat}
    (ends : Grammar.wordEnd.length? rest = some size) :
    scanSentence (word ++ rest) = (.word, word.length) := by
  refine scanSentence_of_word (scanWord_of_keyword keyword ends) ?_
  obtain ⟨first, head, begins⟩ := Option.map_eq_some_iff.mp keyword.first
  obtain ⟨-, noDigit⟩ := Bool.and_eq_true_iff.mp begins
  obtain ⟨others, rfl⟩ := List.head?_eq_some_iff.mp head
  simp only [Bool.not_eq_true'] at noDigit
  rw [List.take_left, List.all_cons, noDigit, Bool.false_and]

/-! ### Numbers -/

theorem exists_cons_of_scanWord {text : Text}
    (h : (scanWord text).1 = .word ∨ (scanWord text).1 = .numericLiteral) :
    ∃ c rest, text = c :: rest ∧ isWordLetter c = true := by
  rw [scanWord_eq] at h
  split at h
  · rcases h with h | h <;> cases h
  · split at h
    · split at h <;> rcases h with h | h <;> cases h
    · split at h
      · rename_i word
        exact exists_cons_of_wordLength word
      · exact absurd h (not_or.mpr
          ⟨(kind_scanSymbol text).1, kind_scanSymbol_ne (by decide) (by decide) text⟩)

/-- Sentence mode finds numbers among the words of word mode, so they begin with a letter. -/
theorem exists_cons_of_number {text : Text} (h : (scanSentence text).1 = .numericLiteral) :
    ∃ c rest, text = c :: rest ∧ isWordLetter c = true := by
  rcases Cursor.scanSentence_cases text with same | ⟨word, -⟩
  · exact exists_cons_of_scanWord (.inr (same ▸ h))
  · exact exists_cons_of_scanWord (.inl word)

theorem isWordLetter_of_isDigit {c : Char} (digit : c.isDigit = true) : isWordLetter c = true := by
  simp [isWordLetter, Char.isAlphanum, digit]

theorem isLiteralLetter_of_isDigit {c : Char} (digit : c.isDigit = true) :
    isLiteralLetter c = false := by
  rw [← caseless_isDigit] at digit
  cases letter : isLiteralLetter c with
  | false => rfl
  | true =>
      simp only [isLiteralLetter, Bool.or_eq_true, beq_iff_eq] at letter
      rcases letter with (((same | same) | same) | same) | same <;> rw [same] at digit <;>
        revert digit <;> decide

theorem opening?_eq_none_of_digit {c : Char} (digit : c.isDigit = true) (rest : Text) :
    opening? (c :: rest) = none := by
  have quote := isQuote_of_isWordLetter (isWordLetter_of_isDigit digit)
  simp [opening?, quote, isLiteralLetter_of_isDigit digit]

/-- Digits that end as a word does are a number, whatever fraction stands behind them. -/
theorem scanSentence_of_digits_append {digits rest : Text} (some : digits ≠ [])
    (all : ∀ c ∈ digits, c.isDigit = true) (ends : wordLength (digits ++ rest) = digits.length) :
    scanSentence (digits ++ rest) =
      (.numericLiteral, digits.length + fractionLength rest) := by
  obtain ⟨c, others, rfl⟩ := List.exists_cons_of_ne_nil some
  have unopened : opening? (c :: others ++ rest) = none :=
    opening?_eq_none_of_digit (all c List.mem_cons_self) (others ++ rest)
  have word := scanWord_of_word unopened (by rw [ends]; exact Nat.succ_ne_zero _)
  rw [ends] at word
  rw [scanSentence_of_digits word (by rw [List.take_left]; exact List.all_eq_true.mpr all),
    List.drop_left]

theorem wordLength_digits_of_wordEnd {digits rest : Text} {size : Nat} (some : digits ≠ [])
    (all : ∀ c ∈ digits, c.isDigit = true)
    (ends : Grammar.wordEnd.length? rest = Option.some size) :
    wordLength (digits ++ rest) = digits.length := by
  have letters (c : Char) (mem : c ∈ digits) : isWordLetter c = true :=
    isWordLetter_of_isDigit (all c mem)
  refine Grammar.wordLength_of_wordEnd (fun c mem => ?_) (fun head => ?_)
    (List.getLast?_eq_getLast_of_ne_nil some) (letters _ (List.getLast_mem some)) ends
  · rw [isWordChar_eq, letters c mem, Bool.true_or]
  · have hyphen := letters '-' (List.mem_of_mem_head? head)
    rw [isWordLetter_hyphen] at hyphen
    cases hyphen

/-- How a rule of digits lies on the number that a sentence finds there: it leaves the fraction
behind or reads it too, or the number begins with its point. -/
inductive LiesOnNumber (text : Text) (size : Nat) : Prop
  | whole : scanSentence text = (.numericLiteral, size + fractionLength (text.drop size)) →
      LiesOnNumber text size
  | decimal : scanSentence text = (.numericLiteral, size) → LiesOnNumber text size
  | point {d : Char} {rest : Text} : text = '.' :: d :: rest → d.isDigit = true →
      LiesOnNumber text size

theorem LiesOnNumber.of_digits {digits rest : Text} {size : Nat} (some : digits ≠ [])
    (all : ∀ c ∈ digits, c.isDigit = true)
    (ends : Grammar.wordEnd.length? rest = Option.some size) :
    LiesOnNumber (digits ++ rest) digits.length := by
  have found := scanSentence_of_digits_append some all (wordLength_digits_of_wordEnd some all ends)
  refine .whole ?_
  rw [List.drop_left]
  exact found

/-- Digits, a point and more digits are one number, or the number begins with the point. -/
theorem LiesOnNumber.of_decimal {digits rest : Text} (all : ∀ c ∈ digits, c.isDigit = true)
    (fraction : rest.takeWhile Char.isDigit ≠ []) :
    LiesOnNumber (digits ++ '.' :: rest)
      (digits.length + ((rest.takeWhile Char.isDigit).length + 1)) := by
  by_cases none : digits = []
  · subst none
    cases rest with
    | nil => exact absurd rfl fraction
    | cons d rest =>
        refine .point rfl ?_
        by_contra other
        exact fraction (List.takeWhile_cons_of_neg other)
  · have letters (c : Char) (mem : c ∈ digits) : isWordLetter c = true :=
      isWordLetter_of_isDigit (all c mem)
    have run : (digits ++ '.' :: rest).takeWhile isWordChar = digits := by
      rw [List.takeWhile_append_of_pos fun c mem => by rw [isWordChar_eq, letters c mem]; rfl]
      exact List.append_nil digits
    have length : wordLength (digits ++ '.' :: rest) = digits.length := by
      have trimmed := trimHyphens_letters_append none letters [] []
      rw [wordLength_eq, run, if_neg]
      · simp only [List.nil_append, List.append_nil] at trimmed
        rw [trimmed]
        simp [trimHyphens]
      · intro head
        have hyphen := letters '-' (List.mem_of_mem_head? head)
        rw [isWordLetter_hyphen] at hyphen
        cases hyphen
    have found := scanSentence_of_digits_append none all length
    refine .decimal ?_
    rw [found, fractionLength, if_neg (by simpa using fraction)]

namespace Grammar

/-- A number without a sign. -/
def unsigned : Expr := (star digit >> Expr.text "." >> plus digit <|> plus digit) >> wordEnd

theorem liesOnNumber_digits {text : Text} {size : Nat}
    (read : (plus digit >> wordEnd).length? text = some size) : LiesOnNumber text size := by
  rw [length?_seq, isClass_digit.length?_plus] at read
  split at read
  · cases read
  · rename_i some
    obtain ⟨stop, ends, rfl⟩ := Option.map_eq_some_iff.mp read
    have all : ∀ c ∈ text.takeWhile Char.isDigit, c.isDigit = true := fun _ =>
      List.mem_takeWhile_imp
    have lies := LiesOnNumber.of_digits some all ends
    rw [takeWhile_append_drop] at lies
    rw [(trimHyphens_of_wordEnd ends).1]
    exact lies

theorem exists_of_point {text : Text} {size : Nat}
    (read : (Expr.text ".").length? text = some size) : size = 1 ∧ ∃ rest, text = '.' :: rest := by
  have single : (Expr.text ".").length? text = if text.head? == some '.' then some 1 else none :=
    length?_single '.' text
  rw [single] at read
  split at read
  · rename_i head
    cases read
    exact ⟨rfl, List.head?_eq_some_iff.mp (eq_of_beq head)⟩
  · cases read

theorem liesOnNumber_unsigned {text : Text} {size : Nat}
    (read : unsigned.length? text = some size) : LiesOnNumber text size := by
  rw [unsigned, length?_seq] at read
  obtain ⟨one, readBody, read⟩ := Option.bind_eq_some_iff.mp read
  rw [length?_alt] at readBody
  rcases Option.or_eq_some_iff.mp readBody with decimal | ⟨-, whole⟩
  · obtain ⟨stop, ends, rfl⟩ := Option.map_eq_some_iff.mp read
    rw [length?_seq, isClass_digit.length?_star, Option.bind_some, length?_seq] at decimal
    obtain ⟨behind, readPoint, rfl⟩ := Option.map_eq_some_iff.mp decimal
    obtain ⟨point, mark, readFraction⟩ := Option.bind_eq_some_iff.mp readPoint
    obtain ⟨fraction, readDigits, rfl⟩ := Option.map_eq_some_iff.mp readFraction
    obtain ⟨rfl, rest, same⟩ := exists_of_point mark
    rw [same, List.drop_succ_cons, List.drop_zero, isClass_digit.length?_plus] at readDigits
    split at readDigits
    · cases readDigits
    · rename_i some
      cases readDigits
      have all : ∀ c ∈ text.takeWhile Char.isDigit, c.isDigit = true := fun _ =>
        List.mem_takeWhile_imp
      have lies := LiesOnNumber.of_decimal all some
      rw [← same, takeWhile_append_drop] at lies
      rw [(trimHyphens_of_wordEnd ends).1, Nat.add_zero, Nat.add_comm 1]
      exact lies
  · refine liesOnNumber_digits ?_
    rw [length?_seq, whole, Option.bind_some, read]

/-- The digits of a level number are a number of the sentence. -/
theorem liesOnNumber_level {text : Text} {size : Nat}
    (read : ((digit >> opt digit) >> wordEnd).length? text = some size) :
    LiesOnNumber text size := by
  rw [length?_seq, length?_seq] at read
  obtain ⟨one, readDigits, read⟩ := Option.bind_eq_some_iff.mp read
  obtain ⟨stop, ends, rfl⟩ := Option.map_eq_some_iff.mp read
  obtain ⟨first, readFirst, readSecond⟩ := Option.bind_eq_some_iff.mp readDigits
  obtain ⟨second, optional, rfl⟩ := Option.map_eq_some_iff.mp readSecond
  rw [(trimHyphens_of_wordEnd ends).1, Nat.add_zero]
  cases text with
  | nil => cases readFirst
  | cons c rest =>
      rw [isClass_digit.2] at readFirst
      split at readFirst
      · rename_i digit
        cases readFirst
        rw [List.drop_succ_cons, List.drop_zero] at optional
        rw [length?] at optional
        rcases Option.or_eq_some_iff.mp optional with reads | ⟨-, none⟩
        · cases rest with
          | nil => cases reads
          | cons d behind =>
              rw [isClass_digit.2] at reads
              split at reads
              · rename_i other
                cases reads
                exact LiesOnNumber.of_digits (List.cons_ne_nil c [d]) (by simp [digit, other]) ends
              · cases reads
        · cases none
          exact LiesOnNumber.of_digits (List.cons_ne_nil c []) (by simp [digit]) ends
      · cases readFirst

end Grammar

/-! ### Symbols -/

section Symbols

variable {word : String} {text : Text} {size : Nat}

theorem exists_of_text (read : (Expr.text word).length? text = some size) :
    size = word.toList.length ∧ ∃ rest, text = word.toList ++ rest := by
  rw [Expr.text, length?] at read
  split at read
  · rename_i starts
    cases read
    obtain ⟨rest, same⟩ := List.isPrefixOf_iff_prefix.mp starts
    exact ⟨rfl, rest, same.symm⟩
  · cases read

theorem absent_of_text (none : (Expr.text word).length? text = none) : ¬word.toList <+: text := by
  intro starts
  rw [Expr.text, length?, if_pos (List.isPrefixOf_iff_prefix.mpr starts)] at none
  cases none

/-- An operator is the symbol that stands there. -/
theorem scanSymbol_of_operator (read : Grammar.operator.length? text = some size) :
    ∃ kind, scanSymbol text = (kind, size) ∧ kind ≠ .error ∧ kind ≠ .dot := by
  have body : Grammar.operator.length? text =
      (Expr.text "**" <|> Expr.text ">=" <|> Expr.text "<=" <|> Expr.text "<>" <|>
        Expr.text "+" <|> Expr.text "-" <|> Expr.text "*" <|> Expr.text "/" <|>
        Expr.text "=" <|> Expr.text "<" <|> Expr.text ">" <|> Expr.text "&" <|>
        Expr.text ":").length? text := rfl
  rw [body] at read
  simp only [length?_alt, Option.or_eq_some_iff] at read
  -- The symbols in the order of the rule; those of two characters come first there.
  rcases read with starStar | ⟨noStarStar, greaterEqual | ⟨noGreaterEqual, lessEqual |
    ⟨noLessEqual, lessGreater | ⟨noLessGreater, plus | ⟨-, minus | ⟨-, star | ⟨-, slash |
    ⟨-, equal | ⟨-, less | ⟨-, greater | ⟨-, ampersand | ⟨-, colon⟩⟩⟩⟩⟩⟩⟩⟩⟩⟩⟩⟩
  · obtain ⟨rfl, rest, rfl⟩ := exists_of_text starStar
    refine ⟨.starStar, ?_, by decide, by decide⟩
    simp [scanSymbol, symbolMatches, symbols, symbolLength, longest, longer]
  · obtain ⟨rfl, rest, rfl⟩ := exists_of_text greaterEqual
    refine ⟨.greaterEqual, ?_, by decide, by decide⟩
    simp [scanSymbol, symbolMatches, symbols, symbolLength, longest, longer]
  · obtain ⟨rfl, rest, rfl⟩ := exists_of_text lessEqual
    refine ⟨.lessEqual, ?_, by decide, by decide⟩
    simp [scanSymbol, symbolMatches, symbols, symbolLength, longest, longer]
  · obtain ⟨rfl, rest, rfl⟩ := exists_of_text lessGreater
    refine ⟨.lessGreater, ?_, by decide, by decide⟩
    simp [scanSymbol, symbolMatches, symbols, symbolLength, longest, longer]
  · obtain ⟨rfl, rest, rfl⟩ := exists_of_text plus
    refine ⟨.plus, ?_, by decide, by decide⟩
    simp [scanSymbol, symbolMatches, symbols, symbolLength, longest, longer]
  · obtain ⟨rfl, rest, rfl⟩ := exists_of_text minus
    refine ⟨.minus, ?_, by decide, by decide⟩
    simp [scanSymbol, symbolMatches, symbols, symbolLength, longest, longer]
  · obtain ⟨rfl, rest, rfl⟩ := exists_of_text star
    have first := by simpa using absent_of_text noStarStar
    refine ⟨.star, ?_, by decide, by decide⟩
    simp [scanSymbol, symbolMatches, symbols, symbolLength, longest, longer, first]
  · obtain ⟨rfl, rest, rfl⟩ := exists_of_text slash
    refine ⟨.slash, ?_, by decide, by decide⟩
    simp [scanSymbol, symbolMatches, symbols, symbolLength, longest, longer]
  · obtain ⟨rfl, rest, rfl⟩ := exists_of_text equal
    refine ⟨.equal, ?_, by decide, by decide⟩
    simp [scanSymbol, symbolMatches, symbols, symbolLength, longest, longer]
  · obtain ⟨rfl, rest, rfl⟩ := exists_of_text less
    have first := by simpa using absent_of_text noLessEqual
    have second := by simpa using absent_of_text noLessGreater
    refine ⟨.less, ?_, by decide, by decide⟩
    simp [scanSymbol, symbolMatches, symbols, symbolLength, longest, longer, first, second]
  · obtain ⟨rfl, rest, rfl⟩ := exists_of_text greater
    have first := by simpa using absent_of_text noGreaterEqual
    refine ⟨.greater, ?_, by decide, by decide⟩
    simp [scanSymbol, symbolMatches, symbols, symbolLength, longest, longer, first]
  · obtain ⟨rfl, rest, rfl⟩ := exists_of_text ampersand
    refine ⟨.ampersand, ?_, by decide, by decide⟩
    simp [scanSymbol, symbolMatches, symbols, symbolLength, longest, longer]
  · obtain ⟨rfl, rest, rfl⟩ := exists_of_text colon
    refine ⟨.colon, ?_, by decide, by decide⟩
    simp [scanSymbol, symbolMatches, symbols, symbolLength, longest, longer]

/-- Where a symbol stands, it is the token of the sentence, unless it begins a comment. -/
theorem scanSentence_of_symbol {kind : Kind} (symbol : scanSymbol text = (kind, size))
    (some : kind ≠ .error) (comment : commentLength text = 0) :
    scanSentence text = (kind, size) := by
  cases text with
  | nil =>
      have none : scanSymbol [] = (.error, 1) := by
        simp [scanSymbol, symbolMatches, symbols, symbolLength, longest, longer]
      rw [none] at symbol
      exact absurd (congrArg Prod.fst symbol).symm some
  | cons c rest =>
      have other : ¬(isWordLetter c = true ∨ isQuote c = true) := by
        intro letter
        have zero : longest (symbolMatches (c :: rest)) = (.error, 0) :=
          foldl_longer_of_le fun found mem => by
            rw [symbolMatches_eq_zero letter rest found mem]
        have none : scanSymbol (c :: rest) = (.error, 1) := by
          simp only [scanSymbol, zero]
          rfl
        rw [none] at symbol
        exact some (congrArg Prod.fst symbol).symm
      simp only [not_or, Bool.not_eq_true] at other
      have letter : isLiteralLetter c = false := by
        by_contra letter
        have inside := isWordLetter_of_isLiteralLetter (Bool.not_eq_false _ ▸ letter)
        rw [other.1] at inside
        cases inside
      have unopened : opening? (c :: rest) = none := by
        simp [opening?, other.2, letter]
      have word : wordLength (c :: rest) = 0 := by
        refine wordLength_eq_zero fun d head => ?_
        cases head
        exact other.1
      have found := scanWord_of_symbol unopened comment word
      rw [symbol] at found
      refine (scanSentence_of_other ?_).trans found
      rw [found, ← congrArg Prod.fst symbol]
      exact (kind_scanSymbol _).1

end Symbols

/-! ### Leaves on tokens -/

/-- How what an atomic rule reads lies on the tokens of a sentence. -/
inductive LiesOn (text : Text) (size : Nat) : Prop
  /-- It is a token. -/
  | token {kind : Kind} : scanSentence text = (kind, size) → kind ≠ .error → kind ≠ .dot →
      LiesOn text size
  | number : LiesOnNumber text size → LiesOn text size
  /-- It is a sign and a number. -/
  | signed {sign : Char} {rest : Text} {kind : Kind} {digits : Nat} : text = sign :: rest →
      scanSentence text = (kind, 1) → kind = .plus ∨ kind = .minus → LiesOnNumber rest digits →
        0 < digits → size = digits + 1 → LiesOn text size
  /-- It is the letter before the quote of a literal. -/
  | letter {quote : Char} {rest : Text} : opening? text = some (2, quote, rest) → size = 1 →
      LiesOn text size

namespace Grammar

/-- The atomic rules other than keywords, without the period and picture strings. -/
def plainRules : List Expr :=
  [cobolWord, alphanumericLiteral, numericLiteral, integer, levelNumber, lparen, rparen, operator]

theorem liesOn_cobolWord {text : Text} {size : Nat} (read : cobolWord.length? text = some size) :
    LiesOn text size := by
  obtain ⟨length, c, rest, rfl, letter⟩ := exists_cons_of_length?_word read
  have some : wordLength (c :: rest) ≠ 0 := by
    intro none
    rw [length?_cobolWord, if_pos none] at read
    cases read
  cases opened : opening? (c :: rest) with
  | none =>
      have word := scanWord_of_word opened some
      rw [length] at word
      cases digits : ((c :: rest).take size).all Char.isDigit with
      | true => exact .number (.whole (scanSentence_of_digits word digits))
      | false => exact .token (scanSentence_of_word word digits) (by decide) (by decide)
  | some opening =>
      obtain ⟨width, q, behind⟩ := opening
      have short := (opens_of_opening? opened).word
      rcases opening?_cases opened with ⟨quote, -, same⟩ | ⟨d, -, quote, two, same⟩
      · simp only at quote same
        rw [← (List.cons.inj same).1, isQuote_of_isWordLetter letter] at quote
        cases quote
      · simp only at two
        rw [two] at opened short
        exact .letter opened (by omega)

theorem liesOn_numericLiteral {text : Text} {size : Nat}
    (read : numericLiteral.length? text = some size) : LiesOn text size := by
  have body : numericLiteral.length? text =
      (opt (Expr.text "+" <|> Expr.text "-") >> unsigned).length? text := rfl
  rw [body, length?_seq] at read
  obtain ⟨sign, readSign, read⟩ := Option.bind_eq_some_iff.mp read
  obtain ⟨digits, readDigits, rfl⟩ := Option.map_eq_some_iff.mp read
  have lies := liesOnNumber_unsigned readDigits
  have some : 0 < digits := pos_of_consumes rfl readDigits
  rw [length?, length?_alt] at readSign
  rcases Option.or_eq_some_iff.mp readSign with either | ⟨-, none⟩
  · rcases Option.or_eq_some_iff.mp either with plus | ⟨-, minus⟩
    · obtain ⟨rfl, rest, rfl⟩ := exists_of_text plus
      have symbol : scanSymbol ('+' :: rest) = (.plus, 1) := by
        simp [scanSymbol, symbolMatches, symbols, symbolLength, longest, longer]
      exact .signed rfl (scanSentence_of_symbol symbol (by decide) rfl) (.inl rfl) lies some
        (Nat.add_comm _ _)
    · obtain ⟨rfl, rest, rfl⟩ := exists_of_text minus
      have symbol : scanSymbol ('-' :: rest) = (.minus, 1) := by
        simp [scanSymbol, symbolMatches, symbols, symbolLength, longest, longer]
      exact .signed rfl (scanSentence_of_symbol symbol (by decide) rfl) (.inr rfl) lies some
        (Nat.add_comm _ _)
  · cases none
    rw [Nat.zero_add]
    exact .number lies

theorem liesOn_keyword {e : Expr} (h : e.isKeywordRule = true) {text : Text} {size : Nat}
    (read : e.length? text = some size) : LiesOn text size := by
  unfold isKeywordRule at h
  split at h
  · rename_i named words stop
    simp only [Bool.and_eq_true, beq_iff_eq] at h
    obtain ⟨isWords, rfl⟩ := h
    obtain ⟨one, readWord, read⟩ := Option.bind_eq_some_iff.mp read
    obtain ⟨final, ends, rfl⟩ := Option.map_eq_some_iff.mp read
    obtain ⟨keyword, length⟩ := isKeyword_of_isWords isWords readWord
    have found := scanSentence_of_keyword keyword ends
    rw [List.take_append_drop, length] at found
    rw [(trimHyphens_of_wordEnd ends).1, Nat.add_zero]
    exact .token found (by decide) (by decide)
  · cases h

/-- What an atomic rule reads lies on the tokens of a sentence. -/
theorem liesOn_of_rule {e : Expr} (h : e.isKeywordRule = true ∨ e ∈ plainRules) {text : Text}
    {size : Nat} (comment : commentLength text = 0) (read : e.length? text = some size) :
    LiesOn text size := by
  rcases h with keyword | plain
  · exact liesOn_keyword keyword read
  · simp only [plainRules, List.mem_cons, List.not_mem_nil, or_false] at plain
    rcases plain with rfl | rfl | rfl | rfl | rfl | rfl | rfl | rfl
    · exact liesOn_cobolWord read
    · rw [length?_literal_eq] at read
      split at read
      · rename_i literal
        cases read
        have other : (scanWord text).1 ≠ .word := by
          rw [literal]
          decide
        have found : scanSentence text = (.stringLiteral, (scanWord text).2) := by
          rw [scanSentence_of_other other, ← literal]
        exact .token found (by decide) (by decide)
      · cases read
    · exact liesOn_numericLiteral read
    · exact .number (liesOnNumber_digits read)
    · exact .number (liesOnNumber_level read)
    · obtain ⟨rfl, rest, rfl⟩ := exists_of_text read
      have symbol : scanSymbol ('(' :: rest) = (.leftParen, 1) := by
        simp [scanSymbol, symbolMatches, symbols, symbolLength, longest, longer]
      exact .token (scanSentence_of_symbol symbol (by decide) comment) (by decide) (by decide)
    · obtain ⟨rfl, rest, rfl⟩ := exists_of_text read
      have symbol : scanSymbol (')' :: rest) = (.rightParen, 1) := by
        simp [scanSymbol, symbolMatches, symbols, symbolLength, longest, longer]
      exact .token (scanSentence_of_symbol symbol (by decide) comment) (by decide) (by decide)
    · obtain ⟨kind, symbol, some, other⟩ := scanSymbol_of_operator read
      exact .token (scanSentence_of_symbol symbol some comment) some other

end Grammar

end CobolTree
