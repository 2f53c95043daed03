import CobolTree.Source.Text
import CobolTree.Text.Blank
import CobolTree.Token.Context
import CobolTree.Token.Kind

/-!
Recognition of one token at the start of a text. Each pattern is a function from a text
to the length, in characters, of its longest match there, zero if there is none. In word
mode the longest match over all patterns is the token (`scanWord`); the other modes
refine it. Blanks come first in every mode, and a text with a character left always
yields a token (`scan_pos`).
-/

namespace CobolTree.Scan

/-! ### Classes of characters -/

def isLineBreak (c : Char) : Bool := c == '\r' || c == '\n'

/-- Blanks inside a line. -/
def isSpace (c : Char) : Bool := c == ' ' || c == '\t' || c == '\x0c'

/-- Letters, digits, underscores and hyphens. -/
def isWordChar (c : Char) : Bool := c.isAlphanum || c == '_' || c == '-'

def isQuote (c : Char) : Bool := c == '\x27' || c == '\x22'

/-- The letters that may stand before the opening quote of a literal. -/
def isLiteralLetter (c : Char) : Bool :=
  c.toUpper == 'X' || c.toUpper == 'N' || c.toUpper == 'Z' || c.toUpper == 'G' ||
    c.toUpper == 'B'

/-! ### Patterns -/

/-- A line break, or a run of blanks inside a line. -/
def blankLength (text : Text) : Nat :=
  match text with
  | '\r' :: '\n' :: _ => 2
  | c :: _ => if isLineBreak c then 1 else (text.takeWhile isSpace).length
  | [] => 0

/-- Everything up to the end of the line. -/
def lineLength (text : Text) : Nat := (text.takeWhile (!isLineBreak ·)).length

/-- A comment runs from its mark to the end of the line. -/
def commentLength : Text → Nat
  | '*' :: '>' :: rest => lineLength rest + 2
  | _ => 0

/-- A word is a run of word characters that neither begins nor ends in a hyphen. -/
def wordLength (text : Text) : Nat :=
  let run := text.takeWhile isWordChar
  if run.head? = some '-' then 0 else (run.reverse.dropWhile (· == '-')).length

/-- The opening of a literal: its length, the quote, and the text behind it. -/
def opening? : Text → Option (Nat × Char × Text)
  | [] => none
  | c :: rest =>
      if isQuote c then some (1, c, rest)
      else if isLiteralLetter c then
        match rest with
        | q :: behind => if isQuote q then some (2, q, behind) else none
        | [] => none
      else none

/-- Longest run of characters and doubled quotes within the line. -/
def bodyLength (quote : Char) : Text → Nat
  | [] => 0
  | [c] => if c == quote || isLineBreak c then 0 else 1
  | c :: d :: rest =>
      if c == quote then if d == quote then bodyLength quote rest + 2 else 0
      else if isLineBreak c then 0
      else bodyLength quote (d :: rest) + 1

/-- Longest run of characters and doubled quotes within the line that a quote closes, with
that quote. -/
def closedBodyLength? (quote : Char) : Text → Option Nat
  | [] => none
  | [c] => if c == quote then some 1 else none
  | c :: d :: rest =>
      if c == quote then
        if d == quote then ((closedBodyLength? quote rest).map (· + 2)).or (some 1) else some 1
      else if isLineBreak c then none
      else (closedBodyLength? quote (d :: rest)).map (· + 1)

/-- A literal with its closing quote. -/
def closedLiteralLength (text : Text) : Nat :=
  match opening? text with
  | some (size, quote, rest) => ((closedBodyLength? quote rest).map (· + size)).getD 0
  | none => 0

/-- A literal without a closing quote. -/
def openLiteralLength (text : Text) : Nat :=
  match opening? text with
  | some (size, quote, rest) => bodyLength quote rest + size
  | none => 0

/-- Punctuation and operators. -/
def symbols : List (Kind × Text) :=
  [(.starStar, ['*', '*']), (.lessEqual, ['<', '=']), (.greaterEqual, ['>', '=']),
   (.lessGreater, ['<', '>']),
   (.dot, ['.']), (.comma, [',']), (.semicolon, [';']), (.colon, [':']),
   (.leftParen, ['(']), (.rightParen, [')']), (.plus, ['+']), (.minus, ['-']),
   (.star, ['*']), (.slash, ['/']), (.equal, ['=']), (.less, ['<']), (.greater, ['>']),
   (.ampersand, ['&'])]

/-- The length of a symbol where it stands. -/
def symbolLength (symbol text : Text) : Nat :=
  if symbol.isPrefixOf text then symbol.length else 0

/-! ### Modes -/

/-- Every pattern of word mode with its match. -/
def candidates (text : Text) : List (Kind × Nat) :=
  [(.comment, commentLength text), (.word, wordLength text),
   (.stringLiteral, closedLiteralLength text), (.error, openLiteralLength text)] ++
    symbols.map fun (kind, symbol) => (kind, symbolLength symbol text)

/-- The longer of two matches, the earlier one of equals. -/
def longer (best next : Kind × Nat) : Kind × Nat := if best.2 < next.2 then next else best

/-- The longest match, the earliest one of equals. -/
def longest (found : List (Kind × Nat)) : Kind × Nat := found.foldl longer (.error, 0)

/-- Word mode: the longest match, or one character that no pattern accepts. -/
def scanWord (text : Text) : Kind × Nat :=
  let best := longest (candidates text)
  if best.2 = 0 then (.error, 1) else best

/-- A decimal point with the digits behind it. -/
def fractionLength : Text → Nat
  | '.' :: rest =>
      let digits := (rest.takeWhile Char.isDigit).length
      if digits = 0 then 0 else digits + 1
  | _ => 0

/-- Sentence mode: a word of digits is a numeric literal, with the fraction behind it. -/
def scanSentence (text : Text) : Kind × Nat :=
  let (kind, size) := scanWord text
  if kind = .word ∧ (text.take size).all Char.isDigit then
    (.numericLiteral, size + fractionLength (text.drop size))
  else (kind, size)

/-- Nothing, or a blank, follows. -/
def endsHere : Text → Bool
  | [] => true
  | c :: _ => Text.isBlank c

/-- A picture string runs up to a blank, or to a separator with a blank behind it. -/
def pictureLength : Text → Nat
  | [] => 0
  | c :: rest =>
      if isSpace c || isLineBreak c then 0
      else if (c == '.' || c == ',' || c == ';') && endsHere rest then 0
      else pictureLength rest + 1

/-- Picture mode: a picture string, or else what word mode finds. -/
def scanPicture (text : Text) : Kind × Nat :=
  let size := pictureLength text
  if size = 0 then scanWord text else (.pictureString, size)

/-- The kind and the length of the token that a text begins with. -/
def scan (mode : Mode) (text : Text) : Kind × Nat :=
  let blanks := blankLength text
  if blanks ≠ 0 then (.whitespace, blanks)
  else
    match mode with
    | .word => scanWord text
    | .sentence => scanSentence text
    | .commentEntry => (.commentEntry, lineLength text)
    | .picture => scanPicture text

/-! ### Progress -/

theorem scanWord_pos (text : Text) : 0 < (scanWord text).2 := by
  simp only [scanWord]
  split
  · exact Nat.one_pos
  · omega

theorem scanSentence_pos (text : Text) : 0 < (scanSentence text).2 := by
  have h := scanWord_pos text
  simp only [scanSentence]
  split
  · simp only; omega
  · exact h

theorem scanPicture_pos (text : Text) : 0 < (scanPicture text).2 := by
  simp only [scanPicture]
  split
  · exact scanWord_pos text
  · simp only; omega

/-- A line that does not begin at its end has a character. -/
theorem lineLength_pos {text : Text} (left : text ≠ []) (h : blankLength text = 0) :
    0 < lineLength text := by
  cases text with
  | nil => exact absurd rfl left
  | cons c rest =>
      have notBreak : isLineBreak c = false := by
        cases hc : isLineBreak c with
        | false => rfl
        | true =>
            unfold blankLength at h
            split at h
            · simp at h
            · rename_i heq
              obtain ⟨rfl, rfl⟩ := List.cons.inj heq
              simp [hc] at h
            · rename_i heq
              cases heq
      simp [lineLength, notBreak]

/-- A text with a character left begins with a token that is not empty. -/
theorem scan_pos (mode : Mode) {text : Text} (left : text ≠ []) : 0 < (scan mode text).2 := by
  simp only [scan]
  split
  · simp only; omega
  · rename_i blanks
    cases mode with
    | word => exact scanWord_pos text
    | sentence => exact scanSentence_pos text
    | commentEntry => exact lineLength_pos left (by simpa using blanks)
    | picture => exact scanPicture_pos text

end CobolTree.Scan
