import CobolTree.Grammar.Expr

/-!
The lexical rules that all division grammars share: words, literals, punctuation and a
few keywords. A keyword is a whole word; it does not match the beginning of a longer one.
-/

namespace CobolTree.Grammar

open CobolTree.Expr

/-- A letter, digit or underscore. -/
def wordChar : Expr := alphanumeric <|> text "_"

/-- No more of a word follows. -/
def wordEnd : Expr := absent (wordChar <|> plus (text "-") >> wordChar)

/-- A rule that matches any of some words in any case. -/
def keyword (named : Rule) (words : List String) : Expr :=
  rule named true (oneOf words >> wordEnd)

def cobolWord : Expr :=
  rule .cobolWord true (plus wordChar >> star (plus (text "-") >> plus wordChar))

/-- A letter before the opening quote of a literal. -/
def literalLetter : Expr := oneOf ["X", "N", "Z", "G", "B"]

/-- A literal within one line between two quotes, in which a doubled quote is a character. -/
def quoted (quote doubled : String) : Expr :=
  text quote >> star (text doubled <|> absent (text quote <|> lineBreak) >> anyChar) >>
    text quote

def alphanumericLiteral : Expr :=
  rule .alphanumericLiteral true
    (opt literalLetter >> (quoted "\x27" "\x27\x27" <|> quoted "\x22" "\x22\x22"))

def numericLiteral : Expr :=
  rule .numericLiteral true
    (opt (text "+" <|> text "-") >>
      (star digit >> text "." >> plus digit <|> plus digit) >> wordEnd)

def integer : Expr := rule .integer true (plus digit >> wordEnd)

def dot : Expr := rule .dot true (text ".")

def lparen : Expr := rule .lparen true (text "(")

def rparen : Expr := rule .rparen true (text ")")

def operator : Expr :=
  rule .operator true
    (text "**" <|> text ">=" <|> text "<=" <|> text "<>" <|> text "+" <|> text "-" <|>
      text "*" <|> text "/" <|> text "=" <|> text "<" <|> text ">" <|> text "&" <|> text ":")

/-- Any one token but a separator period. -/
def genericToken : Expr :=
  alphanumericLiteral <|> numericLiteral <|> cobolWord <|> lparen <|> rparen <|> operator

def kwDivision : Expr := keyword .kwDivision ["DIVISION"]
def kwSection : Expr := keyword .kwSection ["SECTION"]
def kwIs : Expr := keyword .kwIs ["IS"]
def kwProgram : Expr := keyword .kwProgram ["PROGRAM"]

/-- Nothing. First in a sequence, it lets blanks stand before the rule behind it. -/
def leading : Expr := text ""

/-- The end of the input, as a rule. -/
def eoi : Expr := rule .eoi false ending

end CobolTree.Grammar
