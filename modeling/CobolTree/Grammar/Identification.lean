import CobolTree.Grammar.Lexical

/-!
The grammar of the IDENTIFICATION DIVISION: a PROGRAM-ID paragraph with a name and its
attributes, and paragraphs of free text. Free text runs, line by line, up to the header
of the next paragraph.
-/

namespace CobolTree.Grammar

open CobolTree.Expr

def kwIdentification : Expr := keyword .kwIdentification ["IDENTIFICATION"]
def kwId : Expr := keyword .kwId ["ID"]
def kwProgramId : Expr := keyword .kwProgramId ["PROGRAM-ID"]
def kwCommon : Expr := keyword .kwCommon ["COMMON"]
def kwInitial : Expr := keyword .kwInitial ["INITIAL"]
def kwRecursive : Expr := keyword .kwRecursive ["RECURSIVE"]

def commentParagraphKeyword : Expr :=
  keyword .commentParagraphKeyword
    ["AUTHOR", "INSTALLATION", "DATE-WRITTEN", "DATE-COMPILED", "SECURITY", "REMARKS"]

/-- The header of a paragraph, whose period may stand on a later line. -/
def paragraphStart : Expr :=
  (commentParagraphKeyword <|> kwProgramId) >> star (text " " <|> text "\t" <|> lineBreak) >>
    text "."

def commentEntryLine : Expr := plus (absent lineBreak >> anyChar)

/-- Line breaks and the blanks behind them, with no header next. -/
def commentEntryBreak : Expr :=
  plus (lineBreak >> star (text " " <|> text "\t")) >> absent paragraphStart

def commentEntry : Expr :=
  rule .commentEntry true
    (absent paragraphStart >> commentEntryLine >> star (commentEntryBreak >> commentEntryLine))

def commentParagraph : Expr :=
  rule .commentParagraph false (commentParagraphKeyword >> dot >> opt commentEntry)

def programAttributes : Expr :=
  rule .programAttributes false
    (plus (kwIs <|> kwCommon <|> kwInitial <|> kwRecursive <|> kwProgram))

def programName : Expr := rule .programName false (alphanumericLiteral <|> cobolWord)

def programIdParagraph : Expr :=
  rule .programIdParagraph false
    (kwProgramId >> dot >> programName >> opt programAttributes >> dot)

def identificationHeader : Expr :=
  rule .identificationHeader false ((kwIdentification <|> kwId) >> kwDivision >> dot)

def identificationDivision : Expr :=
  rule .identificationDivision false
    (identificationHeader >> star (programIdParagraph <|> commentParagraph))

def identificationUnit : Expr :=
  rule .identificationUnit false (leading >> identificationDivision >> eoi)

end CobolTree.Grammar
