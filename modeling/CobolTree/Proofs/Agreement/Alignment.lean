import CobolTree.Proofs.Agreement.Separators
import CobolTree.Proofs.Tree.Located
import Mathlib.Data.List.Nodup

/-!
The leaves of a grammar against the tokens of sentences. Both are cut from one text, from one offset
on; if numbers with a point and picture strings are told alike (`SplitsAlike`), each leaf lies on
the next token that is no separator, on a sign with the number behind it, or on a literal together
with the letter before it (`Aligned`). The proof goes through the leaves; the filler in front of a
leaf is a row of separators and comments (`exists_behind_filler`), and `liesOn_of_rule` says what
stands behind it.
-/

namespace CobolTree

open CobolTree.Expr Scan

/-! ### Tokens of sentences -/

/-- The lexeme is a picture string, or what a sentence finds where it stands in front of a text. -/
def Lexeme.InSentence (lexeme : Lexeme) (rest : Text) : Prop :=
  lexeme.kind = .pictureString ∨
    scan .sentence (lexeme.text ++ rest) = (lexeme.kind, lexeme.text.length)

/-- Lexemes one behind another, each a token of a sentence or a picture string. -/
inductive InSentences : List Lexeme → Prop
  | nil : InSentences []
  | cons {lexeme : Lexeme} {rest : List Lexeme} : lexeme.text ≠ [] →
      lexeme.InSentence (Lexeme.textOf rest) → InSentences rest → InSentences (lexeme :: rest)

theorem Leaf.le_start_of_mem_row {start : Nat} {lexemes : List Lexeme} {leaf : Leaf}
    (mem : leaf ∈ Leaf.row start lexemes) : start ≤ leaf.start := by
  induction lexemes generalizing start with
  | nil => cases mem
  | cons lexeme rest ih =>
      rcases List.mem_cons.mp mem with rfl | behind
      · exact Nat.le_refl _
      · exact (Nat.le_add_right _ _).trans (ih behind)

/-- The bytes of the tokens of one kind, in order. -/
def Leaf.rangesOf (kind : Kind) (tokens : List Leaf) : List Range :=
  (tokens.filter (·.kind == kind)).map Leaf.range

/-- The bytes of the leaves of one rule, in order. -/
def Piece.rangesOf (rule : Rule) (pieces : List Piece) : List Range :=
  (pieces.filter (·.rule == rule)).map Piece.range

theorem Leaf.mem_rangesOf {kind : Kind} {tokens : List Leaf} {range : Range} :
    range ∈ rangesOf kind tokens ↔ ∃ token ∈ tokens, token.kind = kind ∧ token.range = range := by
  simp [rangesOf, and_assoc]

theorem Piece.mem_rangesOf {rule : Rule} {pieces : List Piece} {range : Range} :
    range ∈ rangesOf rule pieces ↔ ∃ piece ∈ pieces, piece.rule = rule ∧ piece.range = range := by
  simp [rangesOf, and_assoc]

/-- How the tokens of a division have to agree with the bytes of its leaves, and with those of its
picture strings: no point stands right before a digit, a number with a point is a leaf, its sign
apart, and picture strings are the same. -/
structure SplitsAlike (tokens : List Leaf) (ranges pictures : List Range) : Prop where
  points : ∀ point ∈ tokens, point.kind = .dot → ∀ next ∈ tokens, next.start = point.range.stop →
    next.text.head?.any Char.isDigit = false
  decimals : ∀ number ∈ tokens, number.kind = .numericLiteral → '.' ∈ number.text →
    ∃ range ∈ ranges, range.stop = number.range.stop ∧
      (range.start = number.start ∨ range.start + 1 = number.start)
  pictures : ∀ range, range ∈ Leaf.rangesOf .pictureString tokens ↔ range ∈ pictures

instance (tokens : List Leaf) (ranges pictures : List Range) :
    Decidable (SplitsAlike tokens ranges pictures) :=
  decidable_of_iff
    ((∀ point ∈ tokens, point.kind = .dot → ∀ next ∈ tokens, next.start = point.range.stop →
        next.text.head?.any Char.isDigit = false) ∧
      (∀ number ∈ tokens, number.kind = .numericLiteral → '.' ∈ number.text →
        ∃ range ∈ ranges, range.stop = number.range.stop ∧
          (range.start = number.start ∨ range.start + 1 = number.start)) ∧
      (∀ range ∈ Leaf.rangesOf .pictureString tokens, range ∈ pictures) ∧
        ∀ range ∈ pictures, range ∈ Leaf.rangesOf .pictureString tokens)
    ⟨fun ⟨points, decimals, known, found⟩ =>
      ⟨points, decimals, fun range => ⟨known range, found range⟩⟩,
    fun alike => ⟨alike.points, alike.decimals, fun range => (alike.pictures range).mp,
      fun range => (alike.pictures range).mpr⟩⟩

/-- The tokens of a division agree with the leaves of its grammar. -/
def SplitAlike (tokens : List Leaf) (pieces : List Piece) : Prop :=
  SplitsAlike tokens (pieces.map Piece.range) (Piece.rangesOf .pictureString pieces)

/-- How leaves of a grammar lie on tokens: on one token, on a sign and the number behind it, or
two of them on a literal. Separators are passed over. -/
inductive Aligned : List Leaf → List Piece → Prop
  | nil : Aligned [] []
  | separator {token : Leaf} {tokens : List Leaf} {pieces : List Piece} :
      token.kind.isSeparator = true → Aligned tokens pieces → Aligned (token :: tokens) pieces
  | same {token : Leaf} {tokens : List Leaf} {piece : Piece} {pieces : List Piece} :
      token.isTrivia = false → token.range = piece.range →
        (token.kind = .dot ↔ piece.rule = .dot) → Aligned tokens pieces →
          Aligned (token :: tokens) (piece :: pieces)
  | signed {sign number : Leaf} {tokens : List Leaf} {piece : Piece} {pieces : List Piece} :
      sign.kind = .plus ∨ sign.kind = .minus → number.kind = .numericLiteral →
        sign.start = piece.start → piece.rule ≠ .dot → Aligned tokens pieces →
          Aligned (sign :: number :: tokens) (piece :: pieces)
  | letter {literal : Leaf} {tokens : List Leaf} {letter quoted : Piece} {pieces : List Piece} :
      literal.kind = .stringLiteral → literal.start = letter.start →
        letter.range.stop < literal.range.stop → letter.rule ≠ .dot → quoted.rule ≠ .dot →
          Aligned tokens pieces → Aligned (literal :: tokens) (letter :: quoted :: pieces)

/-- What is left of all tokens and pieces behind an offset. -/
structure Reached (tokens : List Leaf) (found : List Piece) (offset : Nat) (lexemes : List Lexeme)
    (pieces : List Piece) : Prop where
  tokens_left : ∀ token ∈ tokens, token.range.stop ≤ offset ∨ token ∈ Leaf.row offset lexemes
  row_subset : Leaf.row offset lexemes ⊆ tokens
  pieces_left : ∀ piece ∈ found, piece.range.stop ≤ offset ∨ piece ∈ pieces
  pieces_subset : pieces ⊆ found

namespace Reached

variable {tokens : List Leaf} {found : List Piece} {offset : Nat} {lexeme : Lexeme}
  {lexemes : List Lexeme} {piece : Piece} {pieces : List Piece}

/-- Behind the first token. -/
theorem behind_token (h : Reached tokens found offset (lexeme :: lexemes) pieces) :
    Reached tokens found (offset + lexeme.text.byteLength) lexemes pieces where
  tokens_left token mem := by
    rcases h.tokens_left token mem with before | here
    · exact .inl (before.trans (Nat.le_add_right _ _))
    · rcases List.mem_cons.mp here with rfl | behind
      · exact .inl (Nat.le_refl _)
      · exact .inr behind
  row_subset := fun _ mem => h.row_subset (List.mem_cons_of_mem _ mem)
  pieces_left piece mem := (h.pieces_left piece mem).imp_left (·.trans (Nat.le_add_right _ _))
  pieces_subset := h.pieces_subset

/-- Behind the first piece, if it ends here. -/
theorem behind_piece (h : Reached tokens found offset lexemes (piece :: pieces))
    (ends : piece.range.stop ≤ offset) : Reached tokens found offset lexemes pieces where
  tokens_left := h.tokens_left
  row_subset := h.row_subset
  pieces_left other mem := by
    rcases h.pieces_left other mem with before | here
    · exact .inl before
    · rcases List.mem_cons.mp here with rfl | behind
      · exact .inl ends
      · exact .inr behind
  pieces_subset := fun _ mem => h.pieces_subset (List.mem_cons_of_mem _ mem)

variable (h : Reached tokens found offset lexemes pieces) (alike : SplitAlike tokens found)

include h alike

/-- A picture string among the tokens left is one of the pieces left. -/
theorem exists_picture {token : Leaf} (mem : token ∈ Leaf.row offset lexemes)
    (picture : token.kind = .pictureString) (some : token.text ≠ []) :
    ∃ piece ∈ pieces, piece.rule = .pictureString ∧ piece.range = token.range := by
  obtain ⟨piece, there, named, same⟩ :=
    Piece.mem_rangesOf.mp ((alike.pictures token.range).mp
      (Leaf.mem_rangesOf.mpr ⟨token, h.row_subset mem, picture, rfl⟩))
  refine ⟨piece, (h.pieces_left piece there).resolve_left fun ends => ?_, named, same⟩
  have start := Leaf.le_start_of_mem_row mem
  have size := Text.length_le_byteLength token.text
  have pos := List.length_pos_iff.mpr some
  simp only [same, Leaf.range, Range.ofText] at ends
  omega

/-- A picture string among the pieces left is one of the tokens left. -/
theorem exists_token (mem : piece ∈ pieces) (picture : piece.rule = .pictureString)
    (behind : offset < piece.range.stop) :
    ∃ token ∈ Leaf.row offset lexemes, token.kind = .pictureString ∧ token.range = piece.range := by
  obtain ⟨token, there, kind, same⟩ :=
    Leaf.mem_rangesOf.mp ((alike.pictures piece.range).mpr
      (Piece.mem_rangesOf.mpr ⟨piece, h.pieces_subset mem, picture, rfl⟩))
  refine ⟨token, (h.tokens_left token there).resolve_left fun ends => ?_, kind, same⟩
  rw [same] at ends
  omega

/-- A number with a point among the tokens left is one of the pieces left, its sign apart. -/
theorem exists_number {token : Leaf} (mem : token ∈ Leaf.row offset lexemes)
    (number : token.kind = .numericLiteral) (point : '.' ∈ token.text) :
    ∃ piece ∈ pieces, piece.range.stop = token.range.stop ∧
      (piece.start = token.start ∨ piece.start + 1 = token.start) := by
  obtain ⟨range, among, stop, start⟩ := alike.decimals token (h.row_subset mem) number point
  obtain ⟨piece, there, rfl⟩ := List.mem_map.mp among
  refine ⟨piece, (h.pieces_left piece there).resolve_left fun ends => ?_, stop, start⟩
  have first := Leaf.le_start_of_mem_row mem
  have size := Text.length_le_byteLength token.text
  have pos := List.length_pos_iff.mpr (List.ne_nil_of_mem point)
  simp only [stop, Leaf.range, Range.ofText] at ends
  omega

end Reached

/-- No picture string begins inside the first token. -/
theorem Reached.not_picture_inside {tokens : List Leaf} {found pieces : List Piece} {offset : Nat}
    {lexeme : Lexeme} {lexemes : List Lexeme} {piece : Piece}
    (h : Reached tokens found offset (lexeme :: lexemes) pieces) (alike : SplitAlike tokens found)
    (mem : piece ∈ pieces) (behind : offset < piece.start)
    (inside : piece.start < offset + lexeme.text.byteLength) : piece.rule ≠ .pictureString := by
  intro picture
  obtain ⟨token, there, -, range⟩ := h.exists_token alike mem picture
    (behind.trans_le (Nat.le_add_right _ _))
  have start := congrArg Range.start range
  simp only [Piece.range, Leaf.range, Range.ofText] at start
  rcases List.mem_cons.mp there with rfl | later
  · simp only at start
    omega
  · have least := Leaf.le_start_of_mem_row later
    omega

/-! ### What a leaf of a grammar lies on -/

theorem Text.byteLength_take_lt {text : Text} {first second : Nat} (less : first < second)
    (fits : second ≤ text.length) :
    Text.byteLength (text.take first) < Text.byteLength (text.take second) := by
  obtain ⟨more, rfl⟩ : ∃ more, second = first + (more + 1) := ⟨second - first - 1, by omega⟩
  rw [List.take_add, Text.byteLength_append]
  have length := Text.length_le_byteLength ((text.drop first).take (more + 1))
  rw [List.length_take, List.length_drop] at length
  omega

theorem Text.length_eq_of_byteLength {text : Text} {first second : Nat} (one : first ≤ text.length)
    (two : second ≤ text.length)
    (same : Text.byteLength (text.take first) = Text.byteLength (text.take second)) :
    first = second := by
  rcases Nat.lt_trichotomy first second with less | rfl | more
  · have := Text.byteLength_take_lt less two
    omega
  · rfl
  · have := Text.byteLength_take_lt more one
    omega

theorem LiesOnNumber.exists_solid {text : Text} {size : Nat} (lies : LiesOnNumber text size) :
    ∃ c rest, text = c :: rest ∧ Input.isFiller c = false := by
  have letter (kind : (scanSentence text).1 = .numericLiteral) :
      ∃ c rest, text = c :: rest ∧ Input.isFiller c = false := by
    obtain ⟨c, rest, split, letter⟩ := exists_cons_of_number kind
    exact ⟨c, rest, split, isFiller_of_isWordLetter letter⟩
  cases lies with
  | whole found => exact letter (congrArg Prod.fst found)
  | decimal found => exact letter (congrArg Prod.fst found)
  | point same _ => exact ⟨_, _, same, rfl⟩

section Number

variable {tokens : List Leaf} {found pieces : List Piece} {offset size : Nat} {lexeme : Lexeme}
  {lexemes : List Lexeme}

/-- A leaf on a number has all of it, unless some other leaf has the rest. -/
theorem number_of_liesOn (alike : SplitAlike tokens found)
    (reached : Reached tokens found offset (lexeme :: lexemes) pieces)
    (sentences : InSentences lexemes)
    (here : scanSentence (lexeme.text ++ Lexeme.textOf lexemes) = (lexeme.kind, lexeme.text.length))
    (lies : LiesOnNumber (lexeme.text ++ Lexeme.textOf lexemes) size)
    (others : size < lexeme.text.length → ∀ piece ∈ pieces,
      piece.range.stop = offset + lexeme.text.byteLength →
        ¬(piece.start = offset ∨ piece.start + 1 = offset)) :
    lexeme.kind = .numericLiteral ∧ lexeme.text.length = size := by
  cases lies with
  | whole found =>
      rw [here] at found
      obtain ⟨kind, length⟩ := Prod.mk.inj found
      refine ⟨kind, ?_⟩
      by_contra more
      have less : size < lexeme.text.length := by omega
      have point : '.' ∈ lexeme.text := by
        rw [List.drop_append_of_le_length (by omega)] at length
        generalize split : lexeme.text.drop size = behind at length
        cases behind with
        | nil =>
            have := congrArg List.length split
            rw [List.length_drop, List.length_nil] at this
            omega
        | cons c rest =>
            have first : c = '.' := by
              by_contra other
              rw [List.cons_append, fractionLength] at length
              · omega
              · rintro rest' same
                exact other (List.cons.inj same).1
            subst first
            exact List.mem_of_mem_drop (split ▸ List.mem_cons_self)
      obtain ⟨piece, mem, stop, start⟩ :=
        reached.exists_number alike List.mem_cons_self kind point
      exact others less piece mem stop start
  | decimal found =>
      rw [here] at found
      exact Prod.mk.inj found
  | @point d rest same digit =>
      have dot : scanSentence ('.' :: d :: rest) = (.dot, 1) :=
        scanSentence_of_symbol (by simp [scanSymbol, symbolMatches, symbols, symbolLength, longest,
          longer]) (by decide) rfl
      rw [same, dot] at here
      obtain ⟨kind, length⟩ := Prod.mk.inj here
      -- The token is a point, and the one behind it begins with the digit.
      obtain ⟨c, single⟩ := List.length_eq_one_iff.mp length.symm
      rw [single] at same
      have behind : Lexeme.textOf lexemes = d :: rest := (List.cons.inj same).2
      cases sentences with
      | nil => cases behind
      | @cons next others some =>
          obtain ⟨e, text, split⟩ := List.exists_cons_of_ne_nil some
          have first : e = d := by
            rw [Lexeme.textOf_cons, split] at behind
            exact (List.cons.inj behind).1
          have apart := alike.points ⟨lexeme, offset⟩ (reached.row_subset List.mem_cons_self)
            kind.symm ⟨next, offset + lexeme.text.byteLength⟩
            (reached.row_subset (List.mem_cons_of_mem _ List.mem_cons_self)) rfl
          rw [split, first] at apart
          simp [digit] at apart

end Number

/-! ### Rules of sentences -/

/-- A keyword or another atomic rule, but not the period and not picture strings. -/
def Expr.isPlainRule : Expr → Bool
  | rule named true body =>
      named != .dot && named != .pictureString && body.consumes &&
        ((rule named true body).isKeywordRule || Grammar.plainRules.contains (rule named true body))
  | _ => false

/-- The rules that read the leaves of sentences. -/
def SentenceRule (e : Expr) : Prop :=
  e = Grammar.dot ∨ e = Grammar.pictureString ∨ e.isPlainRule = true

/-- What a plain rule reads lies on tokens, and is not empty. -/
theorem Expr.spec_of_isPlainRule {named : Rule} {body : Expr}
    (plain : (rule named true body).isPlainRule = true) {text : Text} {size : Nat}
    (comment : commentLength text = 0) (read : body.length? text = some size) :
    named ≠ .dot ∧ named ≠ .pictureString ∧ LiesOn text size := by
  simp only [isPlainRule, Bool.and_eq_true, bne_iff_ne, Bool.or_eq_true,
    List.contains_iff_mem] at plain
  obtain ⟨⟨⟨dot, picture⟩, -⟩, sort⟩ := plain
  exact ⟨dot, picture, Grammar.liesOn_of_rule sort comment read⟩

theorem SentenceRule.pos {named : Rule} {body : Expr} (h : SentenceRule (.rule named true body))
    {text : Text} {size : Nat} (read : body.length? text = some size) : 0 < size := by
  refine pos_of_consumes ?_ read
  rcases h with same | same | plain
  · cases same
    rfl
  · cases same
    rfl
  · simp only [isPlainRule, Bool.and_eq_true] at plain
    exact plain.1.2

/-- The leaves of an ENVIRONMENT or a DATA DIVISION are read by rules of sentences. -/
theorem GrammarName.sentenceRule {grammar : GrammarName} (other : grammar ≠ .identification) :
    ∀ e ∈ grammar.division.leafRules, SentenceRule e := by
  have all : (grammar.division.leafRules.all fun e =>
      e == Grammar.dot || e == Grammar.pictureString || e.isPlainRule) = true := by
    cases grammar with
    | identification => exact absurd rfl other
    | environment => decide +kernel
    | data => decide +kernel
  intro e mem
  have sort := List.all_eq_true.mp all e mem
  simp only [Bool.or_eq_true, beq_iff_eq] at sort
  exact or_assoc.mp sort

/-! ### Literals -/

/-- Where a literal opens, sentence mode finds it, closed or not. -/
theorem scanSentence_of_opening {text rest : Text} {size : Nat} {q : Char}
    (opened : opening? text = some (size, q, rest)) :
    scanSentence text = if closes q rest then (.stringLiteral, size + (bodyLength q rest + 1))
      else (.error, size + bodyLength q rest) := by
  have word := scanWord_eq text
  rw [if_neg (not_not_intro (opens_of_opening? opened).comment), opened] at word
  simp only at word
  rw [scanSentence_of_other, word]
  rw [word]
  split <;> exact nofun

/-- A literal with a letter before its quote begins with both. -/
theorem exists_letter_front {text others : Text} {lexeme : Lexeme} {q : Char} {rest : Text}
    (opened : opening? text = some (2, q, rest)) (same : text = lexeme.text ++ others)
    (here : scanSentence text = (lexeme.kind, lexeme.text.length)) :
    ∃ c more, isQuote q = true ∧ text = c :: q :: rest ∧ lexeme.text = c :: q :: more := by
  obtain ⟨c, quote, split⟩ : ∃ c, isQuote q = true ∧ text = c :: q :: rest := by
    rcases opening?_cases opened with ⟨-, two, -⟩ | ⟨c, -, quote, -, split⟩
    · cases two
    · exact ⟨c, quote, split⟩
  have token := scanSentence_of_opening opened
  have two : 2 ≤ lexeme.text.length := by
    rw [here] at token
    split at token <;> have length := (Prod.mk.inj token).2 <;> omega
  have taken : text.take lexeme.text.length = lexeme.text := by rw [same, List.take_left]
  obtain ⟨length, width⟩ : ∃ length, lexeme.text.length = length + 2 :=
    ⟨lexeme.text.length - 2, by omega⟩
  rw [split, width] at taken
  exact ⟨c, _, quote, split, taken.symm⟩

/-- All that a rule of sentences reads at a quote, picture strings apart, is a literal. -/
theorem literal_of_quote {q : Char} {rest : Text} (quote : isQuote q = true) {named : Rule}
    {body : Expr} (sort : SentenceRule (.rule named true body)) (other : named ≠ .pictureString)
    {size : Nat} (read : body.length? (q :: rest) = some size) :
    named ≠ .dot ∧ closes q rest = true ∧ size = bodyLength q rest + 2 := by
  have opened : opening? (q :: rest) = some (1, q, rest) := by simp [opening?, quote]
  have found := scanSentence_of_opening opened
  have notNumber (kind : (scanSentence (q :: rest)).1 = .numericLiteral) : False := by
    rw [found] at kind
    split at kind <;> cases kind
  have notPoint : q ≠ '.' := by
    rintro rfl
    cases quote
  rcases sort with dot | picture | plain
  · cases dot
    obtain ⟨-, behind, same⟩ := Grammar.exists_of_point read
    exact absurd (List.cons.inj same).1 notPoint
  · cases picture
    exact absurd rfl other
  · obtain ⟨notDot, -, lies⟩ :=
      spec_of_isPlainRule plain (commentLength_of_letter (.inr quote) rest) read
    refine ⟨notDot, ?_⟩
    cases lies with
    | token token some _ =>
        rw [found] at token
        split at token
        · rename_i closed
          obtain ⟨-, length⟩ := Prod.mk.inj token
          exact ⟨closed, by omega⟩
        · exact absurd (Prod.mk.inj token).1.symm some
    | number lies =>
        cases lies with
        | whole number => exact (notNumber (congrArg Prod.fst number)).elim
        | decimal number => exact (notNumber (congrArg Prod.fst number)).elim
        | point same _ => exact absurd (List.cons.inj same).1 notPoint
    | signed _ sign isSign _ _ _ =>
        rw [found] at sign
        split at sign <;> obtain ⟨rfl, -⟩ := Prod.mk.inj sign <;> rcases isSign with kind | kind <;>
          cases kind
    | letter opens _ =>
        rw [opened] at opens
        cases opens

/-! ### Rows on tokens -/

section Rows

variable {tokens : List Leaf} {found pieces : List Piece} (alike : SplitAlike tokens found)

include alike

/-- Up to the first leaf there are separators only. -/
theorem aligned_of_settled {input : Input} {lexemes : List Lexeme} (sentences : InSentences lexemes)
    (same : input.rest = Lexeme.textOf lexemes)
    (reached : Reached tokens found input.offset lexemes pieces)
    (order : ∀ piece ∈ pieces, (input.skip false).offset ≤ piece.start)
    (behind : ∀ lexemes, InSentences lexemes →
      (input.skip false).rest = Lexeme.textOf lexemes →
        Reached tokens found (input.skip false).offset lexemes pieces →
          Aligned (Leaf.row (input.skip false).offset lexemes) pieces) :
    Aligned (Leaf.row input.offset lexemes) pieces := by
  have stays (settled : input.skip false = input) :
      Aligned (Leaf.row input.offset lexemes) pieces := by
    rw [settled] at behind
    exact behind lexemes sentences same reached
  induction sentences generalizing input with
  | nil =>
      refine stays ?_
      obtain ⟨offset, rest⟩ := input
      cases same
      rfl
  | @cons lexeme lexemes some here others ih =>
      by_cases picture : lexeme.kind = .pictureString
      · obtain ⟨piece, mem, -, range⟩ :=
          reached.exists_picture alike List.mem_cons_self picture some
        have start : piece.start = input.offset := congrArg Range.start range
        obtain ⟨skipped, moves, -⟩ := input.exists_moves_skip false
        have none : skipped = [] := by
          have size := Text.length_le_byteLength skipped
          have least := order piece mem
          rw [moves.offset] at least
          exact List.eq_nil_of_length_eq_zero (by omega)
        refine stays ?_
        have rest := moves.rest
        have offset := moves.offset
        rw [none] at rest offset
        generalize input.skip false = after at rest offset
        obtain ⟨offset', rest'⟩ := after
        cases rest
        cases offset
        rfl
      · have found := here.resolve_left picture
        obtain ⟨c, text, split⟩ := List.exists_cons_of_ne_nil some
        rw [Lexeme.textOf_cons] at same
        have front :
            lexeme.text ++ Lexeme.textOf lexemes = c :: (text ++ Lexeme.textOf lexemes) := by
          rw [split, List.cons_append]
        rcases skipped_or_settled (.inr rfl : Mode.sentence = .word ∨ _) c
          (text ++ Lexeme.textOf lexemes) with skipped | ⟨solid, comment⟩
        · rw [← front, found] at skipped
          have skips := skipped.skips input.offset
          rw [List.take_left, List.drop_left, ← same] at skips
          have next : input.skip false = Input.skip false
              ⟨input.offset + lexeme.text.byteLength, Lexeme.textOf lexemes⟩ := skips
          refine .separator skipped.separator ?_
          rw [next] at order behind
          refine @ih ⟨input.offset + lexeme.text.byteLength, Lexeme.textOf lexemes⟩ rfl
            reached.behind_token order behind fun settled => ?_
          rw [settled] at behind
          exact behind lexemes others rfl reached.behind_token
        · refine stays ?_
          rw [front] at same
          have settled := Input.skipFrom_other solid comment input.offset
          rw [← same] at settled
          exact settled

variable {rules : List Expr} {last : Input}

/-- What is left of a row from somewhere on lies on the tokens there. -/
def AlignsBehind (rules : List Expr) (tokens : List Leaf) (found : List Piece) (last : Input)
    (pieces : List Piece) : Prop :=
  ∀ input lexemes, Row rules input pieces last → input.rest = Lexeme.textOf lexemes →
    InSentences lexemes → Reached tokens found input.offset lexemes pieces →
      Aligned (Leaf.row input.offset lexemes) pieces

omit alike in
/-- A leaf that takes the text of a token lies on it. -/
theorem aligned_same (ih : AlignsBehind rules tokens found last pieces) {input : Input}
    {lexeme : Lexeme} {lexemes : List Lexeme} {named : Rule} {size : Nat}
    (behind : Row rules (input.drop size) pieces last)
    (same : input.rest = lexeme.text ++ Lexeme.textOf lexemes) (length : lexeme.text.length = size)
    (sentences : InSentences lexemes)
    (reached : Reached tokens found input.offset (lexeme :: lexemes)
      (⟨named, input.rest.take size, input.offset⟩ :: pieces))
    (carries : lexeme.isTrivia = false) (dots : lexeme.kind = .dot ↔ named = .dot) :
    Aligned (Leaf.row input.offset (lexeme :: lexemes))
      (⟨named, input.rest.take size, input.offset⟩ :: pieces) := by
  have taken : input.rest.take size = lexeme.text := by rw [same, List.take_left' length]
  have left : (input.drop size).rest = Lexeme.textOf lexemes := by
    rw [Input.rest_drop, same, List.drop_left' length]
  have offset : (input.drop size).offset = input.offset + lexeme.text.byteLength := by
    rw [Input.drop, taken]
  have next := reached.behind_token.behind_piece (by
    simp only [Piece.range, Range.ofText, taken]
    exact Nat.le_refl _)
  rw [← offset] at next
  have rest := ih (input.drop size) lexemes behind left sentences next
  rw [offset] at rest
  refine .same carries ?_ dots rest
  simp only [Leaf.range, Piece.range, taken]

section Leaf

variable (ih : AlignsBehind rules tokens found last pieces) {input : Input} {lexeme : Lexeme}
  {lexemes : List Lexeme} {named : Rule} {size : Nat}
  (behind : Row rules (input.drop size) pieces last)
  (same : input.rest = lexeme.text ++ Lexeme.textOf lexemes) (pos : 0 < size)
  (fits : size ≤ input.rest.length) (sentences : InSentences lexemes)
  (reached : Reached tokens found input.offset (lexeme :: lexemes)
    (⟨named, input.rest.take size, input.offset⟩ :: pieces))

include ih behind same pos fits sentences reached

/-- Where a picture string stands, the leaf is that picture string. -/
theorem aligned_picture (some : lexeme.text ≠ []) (picture : lexeme.kind = .pictureString) :
    Aligned (Leaf.row input.offset (lexeme :: lexemes))
      (⟨named, input.rest.take size, input.offset⟩ :: pieces) := by
  obtain ⟨piece, mem, rule, range⟩ := reached.exists_picture alike List.mem_cons_self picture some
  have taken : input.rest.take lexeme.text.length = lexeme.text := by rw [same, List.take_left]
  have least : input.rest.take size ≠ [] := by
    rw [ne_eq, List.take_eq_nil_iff, not_or]
    refine ⟨by omega, fun none => ?_⟩
    rw [none, List.length_nil] at fits
    omega
  have width := Text.length_le_byteLength (input.rest.take size)
  have positive := List.length_pos_iff.mpr least
  rcases List.mem_cons.mp mem with rfl | later
  · have length : size = lexeme.text.length := by
      refine Text.length_eq_of_byteLength fits (by rw [same, List.length_append]; omega) ?_
      have stop := congrArg Range.stop range
      simp only [Piece.range, Leaf.range, Range.ofText] at stop
      rw [taken]
      omega
    simp only at rule
    exact aligned_same ih behind same length.symm sentences reached
      (by simp [Lexeme.isTrivia, picture, Kind.isTrivia]) (by simp [picture, rule])
  · have start := behind.stop_le piece later
    have first := congrArg Range.start range
    simp only [Piece.range, Leaf.range, Range.ofText] at first
    omega

/-- A leaf on a number is that number. -/
theorem aligned_number (other : named ≠ .dot)
    (here : scanSentence input.rest = (lexeme.kind, lexeme.text.length))
    (lies : LiesOnNumber input.rest size) :
    Aligned (Leaf.row input.offset (lexeme :: lexemes))
      (⟨named, input.rest.take size, input.offset⟩ :: pieces) := by
  have taken : input.rest.take lexeme.text.length = lexeme.text := by rw [same, List.take_left]
  have within : lexeme.text.length ≤ input.rest.length := by
    rw [same, List.length_append]
    omega
  have width : size ≤ Text.byteLength (input.rest.take size) := by
    have := Text.length_le_byteLength (input.rest.take size)
    rwa [List.length_take, Nat.min_eq_left fits] at this
  rw [same] at here lies
  obtain ⟨kind, length⟩ := number_of_liesOn alike reached sentences here lies
    fun less piece mem stop => by
    rcases List.mem_cons.mp mem with rfl | later
    · have shorter := Text.byteLength_take_lt less within
      simp only [Piece.range, Range.ofText] at stop
      rw [taken] at shorter
      omega
    · have start := behind.stop_le piece later
      omega
  exact aligned_same ih behind same length sentences reached
    (by simp [Lexeme.isTrivia, kind, Kind.isTrivia]) (by simp [kind, other])

omit pos in
/-- A leaf on a sign and on the number behind it has both. -/
theorem aligned_signed (other : named ≠ .dot) {sign : Char} {rest : Text} {digits : Nat}
    (split : input.rest = sign :: rest) (single : lexeme.text.length = 1)
    (isSign : lexeme.kind = .plus ∨ lexeme.kind = .minus) (lies : LiesOnNumber rest digits)
    (some : 0 < digits) (both : size = digits + 1) :
    Aligned (Leaf.row input.offset (lexeme :: lexemes))
      (⟨named, input.rest.take size, input.offset⟩ :: pieces) := by
  obtain ⟨c, alone⟩ := List.length_eq_one_iff.mp single
  have front : c = sign ∧ Lexeme.textOf lexemes = rest := by
    rw [split, alone] at same
    exact ⟨(List.cons.inj same).1.symm, (List.cons.inj same).2.symm⟩
  obtain ⟨rfl, rfl⟩ := front
  have width : Text.byteLength (input.rest.take size) =
      lexeme.text.byteLength + Text.byteLength ((Lexeme.textOf lexemes).take digits) := by
    rw [split, both, List.take_succ_cons, alone]
    simp [Text.byteLength]
  have inner : digits ≤ (Lexeme.textOf lexemes).length := by
    rw [split, List.length_cons] at fits
    omega
  have least : digits ≤ Text.byteLength ((Lexeme.textOf lexemes).take digits) := by
    have := Text.length_le_byteLength ((Lexeme.textOf lexemes).take digits)
    rwa [List.length_take, Nat.min_eq_left inner] at this
  have mark : 0 < lexeme.text.byteLength := by
    have := Text.length_le_byteLength lexeme.text
    omega
  obtain ⟨d, text, solidSplit, solid⟩ := lies.exists_solid
  cases sentences with
  | nil => cases solidSplit
  | @cons number others left isToken sentences =>
      have beyond := reached.behind_token
      have notPicture : number.kind ≠ .pictureString := by
        intro picture
        obtain ⟨piece, mem, -, range⟩ :=
          beyond.exists_picture alike List.mem_cons_self picture left
        have first := congrArg Range.start range
        simp only [Piece.range, Leaf.range, Range.ofText] at first
        rcases List.mem_cons.mp mem with rfl | later
        · simp only at first
          omega
        · have start := behind.stop_le piece later
          omega
      have found := isToken.resolve_left notPicture
      rw [← Lexeme.textOf_cons, solidSplit,
        scan_of_blankLength (blankLength_of_solid solid text) (.inr rfl), if_neg (by decide),
        ← solidSplit, Lexeme.textOf_cons] at found
      rw [Lexeme.textOf_cons] at lies inner least width
      have taken : (number.text ++ Lexeme.textOf others).take number.text.length = number.text :=
        List.take_left
      obtain ⟨kind, length⟩ := number_of_liesOn alike beyond sentences found lies
        fun less piece mem stop => by
          rcases List.mem_cons.mp mem with rfl | later
          · have within : number.text.length ≤ (number.text ++ Lexeme.textOf others).length := by
              rw [List.length_append]
              exact Nat.le_add_right _ _
            have shorter := Text.byteLength_take_lt less within
            simp only [Piece.range, Range.ofText] at stop
            rw [taken] at shorter
            omega
          · have start := behind.stop_le piece later
            omega
      rw [← length, taken] at width
      have next := beyond.behind_token.behind_piece (by
        simp only [Piece.range, Range.ofText]
        omega)
      have offset : (input.drop size).offset =
          input.offset + lexeme.text.byteLength + number.text.byteLength := by
        rw [Input.drop, width, Nat.add_assoc]
      have leftover : (input.drop size).rest = Lexeme.textOf others := by
        rw [Input.rest_drop, split, both, List.drop_succ_cons, Lexeme.textOf_cons,
          List.drop_left' length]
      rw [← offset] at next
      have tail := ih (input.drop size) others behind leftover sentences next
      rw [offset] at tail
      exact .signed isSign kind rfl other tail

end Leaf

/-- A literal with a letter before its quote has two leaves, the letter and the rest. -/
theorem aligned_letter (sort : ∀ e ∈ rules, SentenceRule e) (ends : (last.skip false).rest = [])
    (ih : ∀ others : List Piece, others.length < pieces.length →
      AlignsBehind rules tokens found last others)
    {input : Input} {lexeme : Lexeme} {lexemes : List Lexeme} {named : Rule}
    (behind : Row rules (input.drop 1) pieces last)
    (same : input.rest = lexeme.text ++ Lexeme.textOf lexemes) (sentences : InSentences lexemes)
    (reached : Reached tokens found input.offset (lexeme :: lexemes)
      (⟨named, input.rest.take 1, input.offset⟩ :: pieces))
    (other : named ≠ .dot)
    (here : scanSentence input.rest = (lexeme.kind, lexeme.text.length)) {q : Char} {rest : Text}
    (opened : opening? input.rest = some (2, q, rest)) :
    Aligned (Leaf.row input.offset (lexeme :: lexemes))
      (⟨named, input.rest.take 1, input.offset⟩ :: pieces) := by
  obtain ⟨c, more, quote, split, front⟩ := exists_letter_front opened same here
  have inner : (input.drop 1).rest = q :: rest := by
    rw [Input.rest_drop, split, List.drop_succ_cons, List.drop_zero]
  have offset : (input.drop 1).offset = input.offset + c.utf8Size := by
    simp [Input.drop, split, Text.byteLength]
  have settled : (input.drop 1).skip false = input.drop 1 := by
    have stays := Input.skipFrom_other (isFiller_of_isQuote quote)
      (commentLength_of_letter (.inr quote) rest) (input.drop 1).offset
    rw [← inner] at stays
    exact stays
  have wider : c.utf8Size < lexeme.text.byteLength := by
    have := q.utf8Size_pos
    rw [front]
    simp only [Text.byteLength]
    omega
  cases behind with
  | still stops =>
      rw [settled] at stops
      rw [← stops, inner] at ends
      cases ends
  | @piece _ _ named' body size pieces mem read behind =>
      rw [settled] at read behind reached ⊢
      rw [inner] at read
      -- no picture string begins at the quote, for no token does
      have notPicture : named' ≠ .pictureString := by
        have size := c.utf8Size_pos
        refine reached.not_picture_inside alike (List.mem_cons_of_mem _ List.mem_cons_self) ?_ ?_
        · simp only [offset]
          omega
        · simp only [offset]
          omega
      obtain ⟨plain, closed, rfl⟩ := literal_of_quote quote (sort _ mem) notPicture read
      have token := scanSentence_of_opening opened
      rw [if_pos closed, here] at token
      obtain ⟨kind, length⟩ := Prod.mk.inj token
      have whole : (input.drop 1).drop (bodyLength q rest + 2) = input.drop lexeme.text.length := by
        rw [Input.drop_drop, length]
        exact congrArg input.drop (by omega)
      have taken : input.rest.take lexeme.text.length = lexeme.text := by rw [same, List.take_left]
      have width : (input.drop 1).offset +
          Text.byteLength ((input.drop 1).rest.take (bodyLength q rest + 2)) =
            input.offset + lexeme.text.byteLength := by
        have := congrArg Input.offset whole
        simpa only [Input.drop, taken] using this
      have next := (reached.behind_token.behind_piece (by
          simp only [Piece.range, Range.ofText]
          rw [split, List.take_succ_cons, List.take_zero]
          simp only [Text.byteLength]
          omega)).behind_piece (by
          simp only [Piece.range, Range.ofText]
          exact Nat.le_of_eq width)
      have place : (input.drop lexeme.text.length).offset =
          input.offset + lexeme.text.byteLength := by rw [Input.drop, taken]
      rw [whole] at behind
      rw [← place] at next
      have rest := ih pieces (Nat.lt_succ_self _) (input.drop lexeme.text.length) lexemes behind
        (by rw [Input.rest_drop, same, List.drop_left]) sentences next
      rw [place] at rest
      refine .letter kind rfl ?_ other plain rest
      simp only [Piece.range, Leaf.range, Range.ofText]
      rw [split, List.take_succ_cons, List.take_zero]
      simp only [Text.byteLength]
      omega

/-- A leaf where some other token stands lies on that token. -/
theorem aligned_of_token (sort : ∀ e ∈ rules, SentenceRule e) (ends : (last.skip false).rest = [])
    {input : Input} {lexeme : Lexeme} {lexemes : List Lexeme} {named : Rule} {body : Expr}
    {size : Nat}
    (ih : ∀ others : List Piece,
      others.length < (⟨named, input.rest.take size, input.offset⟩ :: pieces).length →
        AlignsBehind rules tokens found last others)
    (mem : .rule named true body ∈ rules) (read : body.length? input.rest = some size)
    (behind : Row rules (input.drop size) pieces last)
    (same : input.rest = lexeme.text ++ Lexeme.textOf lexemes) (sentences : InSentences lexemes)
    (reached : Reached tokens found input.offset (lexeme :: lexemes)
      (⟨named, input.rest.take size, input.offset⟩ :: pieces))
    (other : lexeme.kind ≠ .pictureString) (comment : commentLength input.rest = 0)
    (here : scanSentence input.rest = (lexeme.kind, lexeme.text.length)) :
    Aligned (Leaf.row input.offset (lexeme :: lexemes))
      (⟨named, input.rest.take size, input.offset⟩ :: pieces) := by
  have pos := (sort _ mem).pos read
  have fits := fits_length? body _ size read
  have rest := ih pieces (Nat.lt_succ_self _)
  have carries : lexeme.isTrivia = false := by
    have trivial := isTrivia_scanSentence comment
    rwa [here] at trivial
  rcases sort _ mem with dot | picture | plain
  · cases dot
    obtain ⟨rfl, text, split⟩ := Grammar.exists_of_point read
    have found : scanSentence input.rest = (.dot, 1) := by
      rw [split]
      exact scanSentence_of_symbol (by simp [scanSymbol, symbolMatches, symbols, symbolLength,
        longest, longer]) (by decide) rfl
    rw [here] at found
    obtain ⟨kind, length⟩ := Prod.mk.inj found
    exact aligned_same rest behind same length sentences reached carries (by simp [kind])
  · cases picture
    have width : 0 < Text.byteLength (input.rest.take size) := by
      have := Text.length_le_byteLength (input.rest.take size)
      rw [List.length_take, Nat.min_eq_left fits] at this
      omega
    obtain ⟨token, there, kind, range⟩ := reached.exists_token alike List.mem_cons_self rfl (by
      simp only [Piece.range, Range.ofText]
      omega)
    rcases List.mem_cons.mp there with rfl | later
    · exact absurd kind other
    · have start := congrArg Range.start range
      have least := Leaf.le_start_of_mem_row later
      have some : 0 < lexeme.text.length := by
        have := scanSentence_pos input.rest
        rwa [here] at this
      have size := Text.length_le_byteLength lexeme.text
      simp only [Piece.range, Leaf.range, Range.ofText] at start
      omega
  · obtain ⟨notDot, -, lies⟩ := spec_of_isPlainRule plain comment read
    cases lies with
    | token token _ notPoint =>
        rw [here] at token
        obtain ⟨kind, length⟩ := Prod.mk.inj token
        exact aligned_same rest behind same length sentences reached carries
          (by simp [kind, notPoint, notDot])
    | number lies =>
        exact aligned_number alike rest behind same pos fits sentences reached notDot here lies
    | signed split sign isSign lies some both =>
        rw [here] at sign
        obtain ⟨kind, single⟩ := Prod.mk.inj sign
        exact aligned_signed alike rest behind same fits sentences reached notDot split single
          (kind ▸ isSign) lies some both
    | letter opened one =>
        subst one
        refine aligned_letter alike sort ends (fun others fewer => ih others ?_) behind same
          sentences reached notDot here opened
        exact fewer.trans (Nat.lt_succ_self _)

/-- The leaves of a grammar lie on the tokens of the sentences of the same text. -/
theorem alignsBehind (sort : ∀ e ∈ rules, SentenceRule e) (ends : (last.skip false).rest = [])
    (pieces : List Piece) : AlignsBehind rules tokens found last pieces := by
  induction width : pieces.length using Nat.strong_induction_on generalizing pieces with
  | _ width ih =>
      subst width
      have ih (others : List Piece) (fewer : others.length < pieces.length) :
          AlignsBehind rules tokens found last others := ih others.length fewer others rfl
      intro input lexemes row same sentences reached
      refine aligned_of_settled alike sentences same reached row.le_start
        fun lexemes sentences same reached => ?_
      cases row with
      | still stops =>
          rw [stops, ends] at same
          cases sentences with
          | nil => exact .nil
          | cons some _ _ =>
              rw [Lexeme.textOf_cons] at same
              exact absurd (List.append_eq_nil_iff.mp same.symm).1 some
      | @piece _ _ named body size pieces mem read behind =>
          have pos := (sort _ mem).pos read
          have fits := fits_length? body _ size read
          have settled := Input.skip_skip input
          generalize input.skip false = input at *
          have rest := ih pieces (Nat.lt_succ_self _)
          obtain ⟨c, text, split, solid, comment⟩ := exists_solid settled fun none => by
            rw [none, List.length_nil] at fits
            omega
          cases sentences with
          | nil =>
              rw [same] at split
              cases split
          | @cons lexeme lexemes some isToken sentences =>
              by_cases picture : lexeme.kind = .pictureString
              · exact aligned_picture alike rest behind same pos fits sentences reached some picture
              · have here := isToken.resolve_left picture
                rw [← Lexeme.textOf_cons, ← same, split,
                  scan_of_blankLength (blankLength_of_solid solid text) (.inr rfl),
                  if_neg (by decide), ← split] at here
                exact aligned_of_token alike sort ends ih mem read behind same sentences reached
                  picture comment here

end Rows

/-- Leaves of a grammar lie on the tokens of sentences, if both are cut from one text and split
alike. -/
theorem aligned_of_row {rules : List Expr} (sort : ∀ e ∈ rules, SentenceRule e) {start : Nat}
    {lexemes : List Lexeme} {pieces : List Piece} {last : Input}
    (row : Row rules ⟨start, Lexeme.textOf lexemes⟩ pieces last)
    (ends : (last.skip false).rest = []) (sentences : InSentences lexemes)
    (alike : SplitAlike (Leaf.row start lexemes) pieces) :
    Aligned (Leaf.row start lexemes) pieces :=
  alignsBehind alike sort ends pieces ⟨start, _⟩ lexemes row rfl sentences
    { tokens_left := fun _ mem => .inr mem
      row_subset := fun _ mem => mem
      pieces_left := fun _ mem => .inr mem
      pieces_subset := fun _ mem => mem }

namespace Aligned

variable {tokens : List Leaf} {pieces : List Piece}

theorem kind_ne_dot_of_isSeparator {kind : Kind} (separator : kind.isSeparator = true) :
    kind ≠ .dot := by
  rintro rfl
  cases separator

/-- The periods among the leaves are the periods among the tokens. -/
theorem periods (h : Aligned tokens pieces) :
    Piece.rangesOf .dot pieces = Leaf.rangesOf .dot tokens := by
  unfold Piece.rangesOf Leaf.rangesOf
  induction h with
  | nil => rfl
  | separator separator _ ih =>
      rw [ih, List.filter_cons_of_neg]
      simpa using kind_ne_dot_of_isSeparator separator
  | @same token _ piece _ _ range dots _ ih =>
      by_cases dot : token.kind = .dot
      · rw [List.filter_cons_of_pos (by simpa using dots.mp dot),
          List.filter_cons_of_pos (by simpa using dot), List.map_cons, List.map_cons, ih, range]
      · rw [List.filter_cons_of_neg (by simpa using fun rule => dot (dots.mpr rule)),
          List.filter_cons_of_neg (by simpa using dot), ih]
  | signed sign number _ other _ ih =>
      rw [List.filter_cons_of_neg (by simpa using other), ih, List.filter_cons_of_neg,
        List.filter_cons_of_neg]
      · simp [number]
      · rcases sign with sign | sign <;> simp [sign]
  | letter literal _ _ first second _ ih =>
      rw [List.filter_cons_of_neg (by simpa using first),
        List.filter_cons_of_neg (by simpa using second), ih, List.filter_cons_of_neg]
      simp [literal]

/-- A leaf begins where a token begins, or it is part of a literal behind a letter. -/
theorem starts (h : Aligned tokens pieces) : ∀ piece ∈ pieces,
    (∃ token ∈ tokens, token.isTrivia = false ∧ token.start = piece.start) ∨
      ∃ literal ∈ tokens, literal.kind = .stringLiteral ∧ ∃ letter ∈ pieces,
        letter.start = literal.start ∧ letter.range.stop < literal.range.stop := by
  have weaken {tokens more : List Leaf} {pieces others : List Piece} {piece : Piece}
      (within : tokens ⊆ more) (among : pieces ⊆ others)
      (h : (∃ token ∈ tokens, token.isTrivia = false ∧ token.start = piece.start) ∨
        ∃ literal ∈ tokens, literal.kind = .stringLiteral ∧ ∃ letter ∈ pieces,
          letter.start = literal.start ∧ letter.range.stop < literal.range.stop) :
      (∃ token ∈ more, token.isTrivia = false ∧ token.start = piece.start) ∨
        ∃ literal ∈ more, literal.kind = .stringLiteral ∧ ∃ letter ∈ others,
          letter.start = literal.start ∧ letter.range.stop < literal.range.stop := by
    rcases h with ⟨token, mem, found⟩ | ⟨literal, mem, kind, letter, there, found⟩
    · exact .inl ⟨token, within mem, found⟩
    · exact .inr ⟨literal, within mem, kind, letter, among there, found⟩
  induction h with
  | nil => nofun
  | separator _ _ ih =>
      exact fun piece mem => weaken (List.subset_cons_self _ _) (fun _ mem => mem) (ih piece mem)
  | @same token tokens piece pieces carries range _ _ ih =>
      refine List.forall_mem_cons.mpr ⟨.inl ⟨token, List.mem_cons_self, carries, ?_⟩,
        fun other mem => weaken (List.subset_cons_self _ _) (List.subset_cons_self _ _)
          (ih other mem)⟩
      exact congrArg Range.start range
  | @signed sign number tokens piece pieces isSign _ start _ _ ih =>
      refine List.forall_mem_cons.mpr ⟨.inl ⟨sign, List.mem_cons_self, ?_, start⟩, fun other mem =>
        weaken (fun _ mem => List.mem_cons_of_mem _ (List.mem_cons_of_mem _ mem))
          (List.subset_cons_self _ _) (ih other mem)⟩
      rcases isSign with kind | kind <;> simp [Lexeme.isTrivia, kind, Kind.isTrivia]
  | @letter literal tokens letter quoted pieces kind start wider _ _ _ ih =>
      have inside : ∃ found ∈ literal :: tokens, found.kind = .stringLiteral ∧
          ∃ first ∈ letter :: quoted :: pieces,
            first.start = found.start ∧ first.range.stop < found.range.stop :=
        ⟨literal, List.mem_cons_self, kind, letter, List.mem_cons_self, start.symm, wider⟩
      refine List.forall_mem_cons.mpr ⟨.inr inside, List.forall_mem_cons.mpr ⟨.inr inside, ?_⟩⟩
      exact fun other mem => weaken (List.subset_cons_self _ _)
        (fun _ mem => List.mem_cons_of_mem _ (List.mem_cons_of_mem _ mem)) (ih other mem)

/-- If every literal is a leaf, each leaf begins where a token begins. -/
theorem exists_token (h : Aligned tokens pieces)
    (ascending : pieces.Pairwise fun first second => first.start < second.start)
    (literals : ∀ range ∈ Leaf.rangesOf .stringLiteral tokens, range ∈ pieces.map Piece.range) :
    ∀ piece ∈ pieces, ∃ token ∈ tokens, token.isTrivia = false ∧ token.start = piece.start := by
  intro piece mem
  refine (h.starts piece mem).resolve_right ?_
  rintro ⟨literal, there, kind, letter, among, start, wider⟩
  obtain ⟨whole, also, range⟩ := List.mem_map.mp
    (literals literal.range (Leaf.mem_rangesOf.mpr ⟨literal, there, kind, rfl⟩))
  have begins : whole.start = letter.start := (congrArg Range.start range).trans start.symm
  have same : whole = letter := by
    have distinct : (pieces.map Piece.start).Nodup :=
      (List.pairwise_map.mpr ascending).imp Nat.ne_of_lt
    exact List.inj_on_of_nodup_map distinct also among begins
  rw [same] at range
  rw [range] at wider
  exact Nat.lt_irrefl _ wider

end Aligned

end CobolTree
