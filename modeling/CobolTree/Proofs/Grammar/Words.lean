import CobolTree.Grammar.Lexical
import CobolTree.Proofs.Grammar.Atomic
import CobolTree.Proofs.Token.WordMode

/-!
The lexical rules of the grammars as patterns. A word and a literal are as long as the patterns of
the scanner have them (`length?_cobolWord`, `length?_alphanumericLiteral`): the rules take runs of
characters one after another where the scanner measures one run and trims it, so each repetition is
told by the run that it reads (`IsClass.length?_star`, `length?_wordSegments`,
`length?_quotedRounds`).
-/

namespace CobolTree

/-! ### Characters -/

namespace Expr

/-- The expression reads one character of a class. -/
def IsClass (e : Expr) (p : Char → Bool) : Prop :=
  e.length? [] = none ∧ ∀ c rest, e.length? (c :: rest) = if p c then some 1 else none

theorem length?_seq (first second : Expr) (text : Text) :
    (first >> second).length? text = (first.length? text).bind fun size =>
      (second.length? (text.drop size)).map (size + ·) := rfl

theorem length?_alt (first second : Expr) (text : Text) :
    (first <|> second).length? text = (first.length? text).or (second.length? text) := rfl

theorem isClass_char (d : Char) : (exact [d]).IsClass (· == d) := by
  constructor
  · rfl
  · intro c rest
    by_cases same : d = c
    · simp [length?, same]
    · simp [length?, same, Ne.symm same]

theorem isClass_alphanumeric : alphanumeric.IsClass Char.isAlphanum := ⟨rfl, fun _ _ => rfl⟩

theorem isClass_digit : digit.IsClass Char.isDigit := ⟨rfl, fun _ _ => rfl⟩

namespace IsClass

variable {e f : Expr} {p q : Char → Bool}

theorem alt (h : e.IsClass p) (k : f.IsClass q) :
    (e <|> f).IsClass fun c => p c || q c := by
  constructor
  · rw [length?_alt, h.1, k.1, Option.or_none]
  · intro c rest
    rw [length?_alt, h.2, k.2]
    cases one : p c <;> simp [one]

/-- A character that does not begin what is to be absent. -/
theorem other (h : ∀ c rest, (e.length? (c :: rest)).isSome = p c) :
    (absent e >> anyChar).IsClass fun c => !p c := by
  constructor
  · rw [length?_seq, length?]
    split <;> rfl
  · intro c rest
    rw [length?_seq, length?, h]
    cases one : p c <;> simp [one, length?]

theorem isSome (h : e.IsClass p) (c : Char) (rest : Text) :
    (e.length? (c :: rest)).isSome = p c := by
  rw [h.2]
  cases p c <;> rfl

/-- A repetition of a class of characters reads as many as there are. -/
theorem length?_star (h : e.IsClass p) (text : Text) :
    (star e).length? text = some (text.takeWhile p).length := by
  induction text with
  | nil => rw [Expr.length?_star, h.1, List.takeWhile_nil, List.length_nil]
  | cons c rest ih =>
      rw [Expr.length?_star, h.2, List.takeWhile_cons]
      cases p c with
      | false => rfl
      | true => simp [ih, Nat.add_comm]

/-- At least one character of a class. -/
theorem length?_plus (h : e.IsClass p) (text : Text) :
    (plus e).length? text =
      if text.takeWhile p = [] then none else some (text.takeWhile p).length := by
  rw [plus, length?_seq]
  cases text with
  | nil => rw [h.1]; rfl
  | cons c rest =>
      rw [h.2, List.takeWhile_cons]
      cases p c with
      | false => rfl
      | true => simp [h.length?_star, Nat.add_comm]

end IsClass

/-! ### Line breaks -/

theorem isSome_lineBreak (c : Char) (rest : Text) :
    (lineBreak.length? (c :: rest)).isSome = Scan.isLineBreak c := by
  rw [length?]
  unfold lineBreakLength?
  split
  · rename_i same
    cases same
    rfl
  · rename_i same
    cases same
    rfl
  · rename_i same
    cases same
    rfl
  · rename_i feed _ single
    have noFeed : c ≠ '\n' := fun same => feed rest (by rw [same])
    have noReturn : c ≠ '\r' := fun same => single rest (by rw [same])
    simp [Scan.isLineBreak, noFeed, noReturn]

end Expr

/-! ### Words -/

namespace Grammar

open CobolTree.Expr Scan

theorem isClass_wordChar : wordChar.IsClass isWordLetter :=
  isClass_alphanumeric.alt (isClass_char '_')

theorem isClass_hyphen : (Expr.text "-").IsClass (· == '-') := isClass_char '-'

/-- What a word goes on with: hyphens, and letters behind them. -/
def wordSegment : Expr := plus (Expr.text "-") >> plus wordChar

theorem length?_wordSegment (text : Text) :
    wordSegment.length? text =
      if text.takeWhile (· == '-') = [] ∨
          (text.drop (text.takeWhile (· == '-')).length).takeWhile isWordLetter = [] then none
      else some ((text.takeWhile (· == '-')).length +
        ((text.drop (text.takeWhile (· == '-')).length).takeWhile isWordLetter).length) := by
  rw [wordSegment, length?_seq, isClass_hyphen.length?_plus]
  split
  · simp_all
  · rw [Option.bind_some, isClass_wordChar.length?_plus]
    split <;> simp_all

/-- What begins neither with a letter nor with a hyphen begins with no run. -/
theorem takeWhile_isWordChar_eq_nil {text : Text}
    (letter : ∀ c, text.head? = some c → isWordLetter c = false)
    (hyphen : ∀ c, text.head? = some c → (c == '-') = false) :
    text.takeWhile isWordChar = [] := by
  cases text with
  | nil => rfl
  | cons c rest =>
      have other : isWordChar c = false := by
        rw [isWordChar_eq, letter c rfl, hyphen c rfl]
        rfl
      rw [List.takeWhile_cons, other]
      rfl

/-- Segments are read up to the last letter of a run. -/
theorem length?_wordSegments (text : Text)
    (h : ∀ c, text.head? = some c → isWordLetter c = false) :
    (star wordSegment).length? text =
      some (trimHyphens (text.takeWhile isWordChar)).length := by
  induction bound : text.length using Nat.strong_induction_on generalizing text with
  | _ size ih =>
    rw [Expr.length?_star, length?_wordSegment]
    have run := takeWhile_of_imp (p := (· == '-')) (q := isWordChar)
      (fun c hyphen => by simp [isWordChar_eq, hyphen]) text
    have all : ∀ c ∈ text.takeWhile (· == '-'), (c == '-') = true := fun _ =>
      List.mem_takeWhile_imp
    have behind (c : Char) := head?_drop_takeWhile (p := (· == '-')) text c
    generalize text.takeWhile (· == '-') = hyphens at *
    have letterRun := takeWhile_of_imp (p := isWordLetter) (q := isWordChar)
      (fun c letter => by simp [isWordChar_eq, letter]) (text.drop hyphens.length)
    have word : ∀ c ∈ (text.drop hyphens.length).takeWhile isWordLetter,
        isWordLetter c = true := fun _ => List.mem_takeWhile_imp
    have after (c : Char) :=
      head?_drop_takeWhile (p := isWordLetter) (text.drop hyphens.length) c
    generalize (text.drop hyphens.length).takeWhile isWordLetter = letters at *
    by_cases none : hyphens = []
    · subst none
      rw [takeWhile_isWordChar_eq_nil h behind]
      rfl
    · by_cases bare : letters = []
      · subst bare
        rw [List.length_nil, List.drop_zero] at after
        rw [run, takeWhile_isWordChar_eq_nil after behind, List.append_nil,
          trimHyphens_of_hyphens all]
        simp
      · have left : 0 < hyphens.length := List.length_pos_iff.mpr none
        have shorter : (text.drop (hyphens.length + letters.length)).length < size := by
          have some : text ≠ [] := by
            rintro rfl
            have none' := List.append_eq_nil_iff.mp run.symm
            exact none none'.1
          have := List.length_pos_iff.mpr some
          rw [List.length_drop]
          omega
        rw [List.drop_drop] at after letterRun
        rw [run, letterRun, trimHyphens_letters_append bare word, if_neg (by simp [none, bare])]
        simp [ih _ shorter _ after rfl, Nat.add_assoc]

/-- A word is as long as the scanner's pattern has it. -/
theorem length?_cobolWord (text : Text) :
    cobolWord.length? text = if wordLength text = 0 then none else some (wordLength text) := by
  have read : cobolWord.length? text = (plus wordChar >> star wordSegment).length? text := rfl
  have run := takeWhile_of_imp (p := isWordLetter) (q := isWordChar)
    (fun c letter => by simp [isWordChar_eq, letter]) text
  have word : ∀ c ∈ text.takeWhile isWordLetter, isWordLetter c = true := fun _ =>
    List.mem_takeWhile_imp
  have after (c : Char) := head?_drop_takeWhile (p := isWordLetter) text c
  rw [read, length?_seq, isClass_wordChar.length?_plus]
  generalize text.takeWhile isWordLetter = letters at *
  cases letters with
  | nil =>
      have none : wordLength text = 0 := wordLength_eq_zero after
      rw [if_pos rfl, Option.bind_none, if_pos none]
  | cons c rest =>
      have letter : c ≠ '-' := by
        rintro rfl
        have letter := word '-' List.mem_cons_self
        rw [isWordLetter_hyphen] at letter
        cases letter
      have trimmed := trimHyphens_letters_append (List.cons_ne_nil c rest) word []
      simp only [List.nil_append] at trimmed
      have size : wordLength text = (c :: rest).length +
          (trimHyphens ((text.drop (c :: rest).length).takeWhile isWordChar)).length := by
        rw [wordLength_eq, run, trimmed, if_neg (by simpa using letter), List.length_append]
      rw [if_neg (List.cons_ne_nil c rest), Option.bind_some, length?_wordSegments _ after,
        size, if_neg (by rw [List.length_cons]; omega)]
      rfl

/-! ### Literals -/

/-- What goes on inside of a literal: a doubled quote, or another character of the line. -/
def quotedRound (q : Char) : Expr :=
  exact [q, q] <|> absent (exact [q] <|> lineBreak) >> anyChar

theorem length?_quotedRound_nil (q : Char) : (quotedRound q).length? [] = none := rfl

theorem length?_quotedRound (q c : Char) (rest : Text) :
    (quotedRound q).length? (c :: rest) =
      if c == q then if rest.head? = some q then some 2 else none
      else if isLineBreak c then none else some 1 := by
  have inside : (absent (exact [q] <|> lineBreak) >> anyChar).IsClass
      fun c => !(c == q || isLineBreak c) := by
    refine IsClass.other fun c rest => ?_
    rw [length?_alt, Option.isSome_or, isSome_lineBreak, (isClass_char q).isSome]
  rw [quotedRound, length?_alt, inside.2]
  by_cases same : c = q
  · subst same
    cases rest with
    | nil => simp [length?]
    | cons d rest =>
        by_cases twice : d = c
        · simp [length?, twice]
        · simp [length?, twice, Ne.symm twice]
  · have head : (exact [q, q]).length? (c :: rest) = none := by
      simp [length?, Ne.symm same]
    rw [head, Option.none_or]
    cases breaks : isLineBreak c <;> simp [same, breaks]

/-- A literal goes on as far as the scanner's pattern has it. -/
theorem length?_quotedRounds (q : Char) (text : Text) :
    (star (quotedRound q)).length? text = some (bodyLength q text) := by
  fun_induction bodyLength q text with
  | case1 => rw [Expr.length?_star, length?_quotedRound_nil]
  | case2 c ends =>
      have none : (quotedRound q).length? [c] = none := by
        rw [length?_quotedRound]
        by_cases same : c = q <;> simp_all
      rw [Expr.length?_star, none]
  | case3 c goesOn =>
      have one : (quotedRound q).length? [c] = some 1 := by
        rw [length?_quotedRound]
        simp_all
      rw [Expr.length?_star, one]
      rfl
  | case4 c d rest quote twice ih =>
      have two : (quotedRound q).length? (c :: d :: rest) = some 2 := by
        rw [length?_quotedRound]
        simp_all
      rw [Expr.length?_star, two]
      simp [ih, Nat.add_comm]
  | case5 c d rest quote single =>
      have none : (quotedRound q).length? (c :: d :: rest) = none := by
        rw [length?_quotedRound]
        simp_all
      rw [Expr.length?_star, none]
  | case6 c d rest other breaks =>
      have none : (quotedRound q).length? (c :: d :: rest) = none := by
        rw [length?_quotedRound]
        simp_all
      rw [Expr.length?_star, none]
  | case7 c d rest other inLine ih =>
      have one : (quotedRound q).length? (c :: d :: rest) = some 1 := by
        rw [length?_quotedRound]
        simp_all
      rw [Expr.length?_star, one]
      simp [ih, Nat.add_comm]

theorem length?_single (q : Char) (text : Text) :
    (exact [q]).length? text = if text.head? == some q then some 1 else none := by
  cases text with
  | nil => rfl
  | cons c rest => simp [(isClass_char q).2]

theorem length?_quoted (q : Char) (text : Text) :
    (exact [q] >> star (quotedRound q) >> exact [q]).length? (q :: text) =
      if closes q text then some (bodyLength q text + 2) else none := by
  rw [length?_seq, length?_single, List.head?_cons, if_pos (beq_self_eq_true _), Option.bind_some,
    List.drop_succ_cons, List.drop_zero, length?_seq, length?_quotedRounds, Option.bind_some,
    length?_single, closes]
  split
  · rw [Option.map_some, Option.map_some]
    exact congrArg some (Nat.add_comm _ _)
  · rfl

theorem length?_quoted_of_other {q c : Char} (other : c ≠ q) (text : Text) :
    (exact [q] >> star (quotedRound q) >> exact [q]).length? (c :: text) = none := by
  rw [length?_seq, length?_single, if_neg (by simpa using other), Option.bind_none]

/-- A literal without a letter before its opening quote. -/
theorem length?_quotedEither (c : Char) (text : Text) :
    (quoted "\x27" "\x27\x27" <|> quoted "\x22" "\x22\x22").length? (c :: text) =
      if isQuote c && closes c text then some (bodyLength c text + 2) else none := by
  have either : (quoted "\x27" "\x27\x27" <|> quoted "\x22" "\x22\x22").length? (c :: text) =
      ((exact ['\x27'] >> star (quotedRound '\x27') >> exact ['\x27']).length? (c :: text)).or
        ((exact ['\x22'] >> star (quotedRound '\x22') >> exact ['\x22']).length?
          (c :: text)) := rfl
  rw [either]
  by_cases single : c = '\x27'
  · subst single
    rw [length?_quoted, length?_quoted_of_other (by decide), Option.or_none]
    rfl
  · by_cases double : c = '\x22'
    · subst double
      rw [length?_quoted, length?_quoted_of_other (by decide), Option.none_or]
      rfl
    · rw [length?_quoted_of_other single, length?_quoted_of_other double]
      simp [isQuote, single, double]

theorem isClass_word (d : Char) : (anyCase [d]).IsClass (·.toUpper == d.toUpper) := ⟨rfl, by
  intro c rest
  simp [length?, Text.sameWord, Text.upper]⟩

theorem isClass_literalLetter : literalLetter.IsClass isLiteralLetter := by
  have letters := (isClass_word 'X').alt ((isClass_word 'N').alt ((isClass_word 'Z').alt
    ((isClass_word 'G').alt (isClass_word 'B'))))
  refine ⟨letters.1, fun c rest => (letters.2 c rest).trans ?_⟩
  simp only [isLiteralLetter, Bool.or_assoc]
  rfl

/-- A literal is as long as the scanner's pattern has it, if it is closed. -/
theorem length?_alphanumericLiteral (text : Text) :
    alphanumericLiteral.length? text =
      match opening? text with
      | some (size, q, rest) =>
          if closes q rest then some (size + (bodyLength q rest + 1)) else none
      | none => none := by
  have read : alphanumericLiteral.length? text =
      (opt literalLetter >> (quoted "\x27" "\x27\x27" <|> quoted "\x22" "\x22\x22")).length?
        text := rfl
  rw [read, length?_seq, length?]
  cases text with
  | nil => rfl
  | cons c rest =>
      rw [isClass_literalLetter.2]
      cases letter : isLiteralLetter c with
      | true =>
          have other := isQuote_of_isWordLetter (isWordLetter_of_isLiteralLetter letter)
          rw [if_pos rfl, Option.some_or, Option.bind_some, List.drop_succ_cons, List.drop_zero]
          cases rest with
          | nil => simp [opening?, other, letter]; rfl
          | cons q behind =>
              rw [length?_quotedEither]
              cases quote : isQuote q <;> cases closed : closes q behind <;>
                simp [opening?, other, letter, quote, closed]
              omega
      | false =>
          simp only [Bool.false_eq_true, if_false, Option.none_or, Option.bind_some,
            List.drop_zero]
          rw [length?_quotedEither]
          cases quote : isQuote c <;> cases closed : closes c rest <;>
            simp [opening?, letter, quote, closed]
          omega

/-! ### Comments -/

/-- A comment, from its mark to the end of the line. -/
def comment : Expr := Expr.text "*>" >> star (absent lineBreak >> anyChar)

theorem isClass_inLine : (absent lineBreak >> anyChar).IsClass fun c => !isLineBreak c :=
  IsClass.other isSome_lineBreak

theorem length?_comment (text : Text) :
    comment.length? text = if commentLength text = 0 then none else some (commentLength text) := by
  rw [comment, length?_seq]
  by_cases mark : ['*', '>'] <+: text
  · obtain ⟨rest, rfl⟩ := mark
    have read : (Expr.text "*>").length? ('*' :: '>' :: rest) = some 2 := rfl
    have size : commentLength ('*' :: '>' :: rest) = lineLength rest + 2 := rfl
    simp [read, size, isClass_inLine.length?_star, lineLength, Nat.add_comm]
  · have read : (Expr.text "*>").length? text = none := by
      rw [Expr.text, length?, if_neg]
      exact fun starts => mark (List.isPrefixOf_iff_prefix.mp starts)
    have none : commentLength text = 0 := by
      by_contra some
      obtain ⟨rest, rfl⟩ := exists_of_commentLength some
      exact mark ⟨rest, rfl⟩
    rw [read, none]
    rfl

end Grammar

end CobolTree
