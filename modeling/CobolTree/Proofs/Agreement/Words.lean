import CobolTree.Proofs.Grammar.Reading
import CobolTree.Proofs.Grammar.Words

/-!
Word mode and the grammars agree on words, literals and comments (`Scan.wordsAgree`). On the one
side stands the longest of all patterns, on the other a rule that is tried by itself; where the rule
reads is told by `length?_cobolWord` and its like, and what the scanner finds there by `scanWord_eq`.

Comments are no rule of a grammar: they are skipped with the blanks. `Grammar.filler` spells out
what is skipped, and `read?_filler` says that it is what the readings of the grammars leave behind.
-/

namespace CobolTree

/-! ### What the grammars skip -/

namespace Input

/-- A comment ends at the end of its line. -/
theorem skipFrom_line (offset : Nat) (text : Text) :
    skipFrom true offset text =
      skipFrom false (offset + Text.byteLength (text.take (Scan.lineLength text)))
        (text.drop (Scan.lineLength text)) := by
  induction text generalizing offset with
  | nil => rfl
  | cons c rest ih =>
      rw [skipFrom_comment_cons, Scan.lineLength, List.takeWhile_cons]
      cases breaks : Scan.isLineBreak c with
      | true =>
          have filler := Scan.isFiller_of_isLineBreak breaks
          rw [Bool.not_true]
          exact (skipFrom_blank_cons filler offset rest).symm
      | false =>
          have := ih (offset + c.utf8Size)
          simpa [Scan.lineLength, Text.byteLength, Nat.add_assoc] using this

theorem skipFrom_mark (offset : Nat) (rest : Text) :
    skipFrom false offset ('*' :: '>' :: rest) = skipFrom true (offset + 2) rest := by
  rw [skipFrom, if_neg Bool.false_ne_true, if_neg (by decide), if_pos (by decide)]

/-- Where neither a blank nor a comment begins, nothing is skipped. -/
theorem skipFrom_other {c : Char} {rest : Text} (blank : isFiller c = false)
    (comment : Scan.commentLength (c :: rest) = 0) (offset : Nat) :
    skipFrom false offset (c :: rest) = ⟨offset, c :: rest⟩ := by
  cases rest with
  | nil => simp [skipFrom, blank]
  | cons d behind =>
      have unmarked : (c == '*' && d == '>') = false := by
        cases mark : c == '*' && d == '>' with
        | false => rfl
        | true =>
            simp only [Bool.and_eq_true, beq_iff_eq] at mark
            obtain ⟨rfl, rfl⟩ := mark
            cases comment
      simp [skipFrom, blank, unmarked]

end Input

namespace Grammar

open CobolTree.Expr Scan

/-- A blank, or a separator that counts as one. -/
def blank : Expr :=
  Expr.text " " <|> Expr.text "\t" <|> Expr.text "\x0c" <|> Expr.text "\x0d" <|>
    Expr.text "\n" <|> Expr.text "," <|> Expr.text ";"

/-- What is skipped between the parts of a rule. -/
def filler : Expr := star blank >> star (comment >> star blank)

theorem isClass_blank : blank.IsClass Input.isFiller := by
  have blanks := (isClass_char ' ').alt ((isClass_char '\t').alt ((isClass_char '\x0c').alt
    ((isClass_char '\x0d').alt ((isClass_char '\n').alt ((isClass_char ',').alt
      (isClass_char ';'))))))
  refine ⟨blanks.1, fun c rest => (blanks.2 c rest).trans ?_⟩
  simp only [Input.isFiller, Bool.or_assoc]

theorem length?_filler (text : Text) :
    filler.length? text =
      ((star (comment >> star blank)).length? (text.drop (text.takeWhile Input.isFiller).length)).map
        ((text.takeWhile Input.isFiller).length + ·) := by
  rw [filler, length?_seq, isClass_blank.length?_star, Option.bind_some]

theorem length?_filler_blank {c : Char} (blank : Input.isFiller c = true) (rest : Text) :
    filler.length? (c :: rest) = (filler.length? rest).map (1 + ·) := by
  rw [length?_filler, length?_filler, List.takeWhile_cons, if_pos blank, List.length_cons,
    List.drop_succ_cons, Option.map_map]
  refine congrArg (Option.map · _) (funext fun size => ?_)
  rw [Function.comp_apply]
  omega

theorem length?_filler_comment (rest : Text) :
    filler.length? ('*' :: '>' :: rest) =
      (filler.length? (rest.drop (lineLength rest))).map (lineLength rest + 2 + ·) := by
  have size : commentLength ('*' :: '>' :: rest) = lineLength rest + 2 := rfl
  have bare : ('*' :: '>' :: rest).takeWhile Input.isFiller = [] := rfl
  have round : (comment >> star blank).length? ('*' :: '>' :: rest) = some (lineLength rest + 2 +
      ((rest.drop (lineLength rest)).takeWhile Input.isFiller).length) := by
    rw [length?_seq, length?_comment, size, if_neg (Nat.succ_ne_zero _), Option.bind_some,
      isClass_blank.length?_star]
    rfl
  rw [length?_filler, bare, List.length_nil, List.drop_zero, Expr.length?_star, round,
    length?_filler]
  simp only [← List.drop_drop, List.drop_succ_cons, Option.map_map]
  refine congrArg (Option.map · _) (funext fun size => ?_)
  simp only [Function.comp_apply]
  omega

/-- Where neither a blank nor a comment begins, nothing is skipped. -/
theorem length?_filler_other {text : Text} (blank : text.takeWhile Input.isFiller = [])
    (comment : commentLength text = 0) : filler.length? text = some 0 := by
  have round : (Grammar.comment >> star Grammar.blank).length? text = none := by
    rw [length?_seq, length?_comment, if_pos comment, Option.bind_none]
  rw [length?_filler, blank, List.length_nil, List.drop_zero, Expr.length?_star, round]
  rfl

/-- The filler is what a reading skips. -/
theorem length?_filler_skip (input : Input) :
    (filler.length? input.rest).map input.drop = some (input.skip false) := by
  obtain ⟨offset, text⟩ := input
  show _ = some (Input.skipFrom false offset text)
  induction bound : text.length using Nat.strong_induction_on generalizing offset text with
  | _ bound ih =>
    cases text with
    | nil => rfl
    | cons c rest =>
        cases blank : Input.isFiller c with
        | true =>
            have behind := ih _ (by simp [← bound]) (offset + c.utf8Size) rest rfl
            rw [Input.skipFrom_blank_cons blank, length?_filler_blank blank, Option.map_map,
              ← behind]
            refine congrArg (Option.map · _) (funext fun size => ?_)
            simp [Input.drop, Nat.add_comm 1, Text.byteLength, Nat.add_assoc]
        | false =>
            by_cases comment : commentLength (c :: rest) = 0
            · have bare : (c :: rest).takeWhile Input.isFiller = [] := by
                rw [List.takeWhile_cons, blank]
                rfl
              rw [Input.skipFrom_other blank comment, length?_filler_other bare comment]
              simp [Input.drop, Text.byteLength]
            · obtain ⟨line, same⟩ := exists_of_commentLength comment
              obtain ⟨rfl, rfl⟩ := List.cons.inj same
              have behind := ih (line.drop (lineLength line)).length
                (by rw [← bound, List.length_drop, List.length_cons, List.length_cons]; omega)
                (offset + 2 + Text.byteLength (line.take (lineLength line)))
                (line.drop (lineLength line)) rfl
              rw [Input.skipFrom_mark, Input.skipFrom_line, length?_filler_comment,
                Option.map_map, ← behind]
              refine congrArg (Option.map · _) (funext fun size => ?_)
              have here : (⟨offset, '*' :: '>' :: line⟩ : Input).drop 2 = ⟨offset + 2, line⟩ := rfl
              rw [Function.comp_apply, Nat.add_comm (lineLength line), Nat.add_assoc,
                ← Input.drop_drop, here, ← Input.drop_drop]
              rfl

/-- What is skipped is read as filler. -/
theorem read?_filler (input : Input) :
    filler.read? true input = some ⟨[], input.skip false⟩ := by
  obtain ⟨size, read, skips⟩ := Option.map_eq_some_iff.mp (length?_filler_skip input)
  rw [read?_atomic, read, ← skips]
  rfl

end Grammar

/-! ### Agreement -/

/-- How many bytes a grammar expression reads at the start of a text, within an atomic rule or
outside of one. -/
def Expr.bytes? (atomic : Bool) (e : Expr) (text : Text) : Option Nat :=
  (e.read? atomic ⟨0, text⟩).map (·.next.offset)

/-- The token that word mode finds: its kind, and how many bytes it takes. -/
def Scan.wordBytes (text : Text) : Kind × Nat :=
  ((scanWord text).1, Text.byteLength (text.take (scanWord text).2))

/-- Word mode and the rules of the grammars agree on how a text begins. -/
structure WordsAgree (text : Text) : Prop where
  literal (size : Nat) : Scan.wordBytes text = (.stringLiteral, size) ↔
    Grammar.alphanumericLiteral.bytes? false text = some size
  comment (size : Nat) : Scan.wordBytes text = (.comment, size) ↔
    Grammar.comment.bytes? true text = some size
  word (size : Nat) : Scan.wordBytes text = (.word, size) →
    Grammar.cobolWord.bytes? false text = some size ∧
      Grammar.alphanumericLiteral.bytes? false text = none
  cobolWord (size : Nat) : Grammar.cobolWord.bytes? false text = some size →
    (¬∃ letter quote rest, text = letter :: quote :: rest ∧
      Scan.isLiteralLetter letter = true ∧ Scan.isQuote quote = true) →
    Scan.wordBytes text = (.word, size)

namespace Expr

theorem bytes?_atomicRule (named : Rule) (body : Expr) (text : Text) :
    (rule named true body).bytes? false text =
      ((rule named true body).length? text).map fun size => Text.byteLength (text.take size) := by
  rw [bytes?, read?_atomicRule, Option.map_map, length?]
  refine congrArg (Option.map · _) (funext fun size => ?_)
  exact Nat.zero_add _

theorem bytes?_atomic (e : Expr) (text : Text) :
    e.bytes? true text =
      (e.length? text).map fun size => Text.byteLength (text.take size) := by
  rw [bytes?, read?_atomic, Option.map_map]
  refine congrArg (Option.map · _) (funext fun size => ?_)
  exact Nat.zero_add _

end Expr

namespace Scan

theorem kind_scanSymbol_ne {kind : Kind} (some : kind ≠ .error)
    (other : ∀ entry ∈ symbols, entry.1 ≠ kind) (text : Text) : (scanSymbol text).1 ≠ kind := by
  unfold scanSymbol
  simp only
  split
  · exact some.symm
  · rcases longest_mem (symbolMatches text) with none | mem
    · rw [none]
      exact some.symm
    · obtain ⟨entry, inside, same⟩ := List.mem_map.mp mem
      rw [← same]
      exact other entry inside

/-- A symbol is no word, no literal and no comment. -/
theorem kind_scanSymbol (text : Text) :
    (scanSymbol text).1 ≠ .word ∧ (scanSymbol text).1 ≠ .stringLiteral ∧
      (scanSymbol text).1 ≠ .comment :=
  ⟨kind_scanSymbol_ne (by decide) (by decide) text,
    kind_scanSymbol_ne (by decide) (by decide) text,
    kind_scanSymbol_ne (by decide) (by decide) text⟩

/-- The rule of literals reads the literals of word mode and no others. -/
theorem length?_literal_eq (text : Text) :
    Grammar.alphanumericLiteral.length? text =
      if (scanWord text).1 = .stringLiteral then some (scanWord text).2 else none := by
  rw [Grammar.length?_alphanumericLiteral]
  cases opened : opening? text with
  | some opening =>
      obtain ⟨size, q, rest⟩ := opening
      cases closed : closes q rest with
      | true => simp [scanWord_of_closed opened closed, closed]
      | false => simp [scanWord_of_open opened closed, closed]
  | none =>
      rw [scanWord_eq, opened]
      have symbol := (kind_scanSymbol text).2.1
      by_cases comment : commentLength text = 0 <;> by_cases word : wordLength text = 0 <;>
        simp [comment, word, symbol]

/-- Comments are read where word mode finds them and nowhere else. -/
theorem length?_comment_eq (text : Text) :
    Grammar.comment.length? text =
      if (scanWord text).1 = .comment then some (scanWord text).2 else none := by
  rw [Grammar.length?_comment]
  by_cases comment : commentLength text = 0
  · have other : (scanWord text).1 ≠ .comment := by
      rw [scanWord_eq, if_neg (not_not_intro comment)]
      split
      · split <;> exact nofun
      · split
        · exact nofun
        · exact (kind_scanSymbol text).2.2
    rw [if_pos comment, if_neg other]
  · rw [if_neg comment, scanWord_of_comment comment, if_pos rfl]

/-- The words of word mode are words to the rule, of the same length. -/
theorem length?_word_eq {text : Text} (h : (scanWord text).1 = .word) :
    Grammar.cobolWord.length? text = some (scanWord text).2 := by
  rw [Grammar.length?_cobolWord]
  rw [scanWord_eq] at h ⊢
  split at h
  · cases h
  · rename_i comment
    split at h
    · split at h <;> cases h
    · split at h
      · rename_i word
        rw [if_neg word, if_neg comment]
        simp [word]
      · exact absurd h (kind_scanSymbol text).1

/-- Where the rule reads a word, a letter stands first. -/
theorem exists_cons_of_length?_word {text : Text} {size : Nat}
    (read : Grammar.cobolWord.length? text = some size) :
    wordLength text = size ∧ ∃ c rest, text = c :: rest ∧ isWordLetter c = true := by
  rw [Grammar.length?_cobolWord] at read
  split at read
  · cases read
  · rename_i word
    cases read
    exact ⟨rfl, exists_cons_of_wordLength word⟩

/-- What the rule reads as a word is one in word mode, unless a literal opens there. -/
theorem scanWord_of_length?_word {text : Text} {size : Nat}
    (read : Grammar.cobolWord.length? text = some size) (unopened : opening? text = none) :
    scanWord text = (.word, size) := by
  obtain ⟨rfl, c, rest, rfl, letter⟩ := exists_cons_of_length?_word read
  refine scanWord_of_word unopened fun none => ?_
  rw [Grammar.length?_cobolWord, if_pos none] at read
  cases read

/-- Bytes that are read exactly where word mode finds a kind of token. -/
theorem wordBytes_eq_iff {kind : Kind} {e : Expr} {text : Text} {read : Option Nat}
    (agree : e.length? text =
      if (scanWord text).1 = kind then some (scanWord text).2 else none)
    (bytes : read = (e.length? text).map fun size => Text.byteLength (text.take size))
    (size : Nat) : wordBytes text = (kind, size) ↔ read = some size := by
  rw [bytes, agree, wordBytes, Prod.mk.injEq]
  by_cases same : (scanWord text).1 = kind
  · simp [same]
  · simp [same]

theorem wordsAgree (text : Text) : WordsAgree text := by
  refine ⟨wordBytes_eq_iff (length?_literal_eq text) (Expr.bytes?_atomicRule _ _ text),
    wordBytes_eq_iff (length?_comment_eq text) (Expr.bytes?_atomic _ text),
    fun size found => ?_, fun size read unopened => ?_⟩
  · obtain ⟨word, bytes⟩ := Prod.mk.inj found
    have literal := length?_literal_eq text
    rw [word, if_neg (by decide)] at literal
    have read := length?_word_eq word
    constructor
    · rw [Grammar.cobolWord, Expr.bytes?_atomicRule, ← Grammar.cobolWord, read, ← bytes]
      rfl
    · rw [Grammar.alphanumericLiteral, Expr.bytes?_atomicRule, ← Grammar.alphanumericLiteral,
        literal]
      rfl
  · rw [Grammar.cobolWord, Expr.bytes?_atomicRule, ← Grammar.cobolWord] at read
    obtain ⟨length, word, rfl⟩ := Option.map_eq_some_iff.mp read
    have none : opening? text = none := by
      cases opened : opening? text with
      | none => rfl
      | some opening =>
          obtain ⟨-, first, others, rfl, isLetter⟩ := exists_cons_of_length?_word word
          rcases opening?_cases opened with ⟨quote, -, same⟩ | ⟨c, letter, quote, -, same⟩
          · rw [← (List.cons.inj same).1, isQuote_of_isWordLetter isLetter] at quote
            cases quote
          · exact absurd ⟨c, _, _, same, letter, quote⟩ unopened
    rw [wordBytes, scanWord_of_length?_word word none]

end Scan

end CobolTree
