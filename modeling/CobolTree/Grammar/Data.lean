import CobolTree.Grammar.Lexical

/-!
The grammar of the DATA DIVISION: sections of file and data descriptions. A description
is a row of clauses with a period behind it; a clause that the grammar does not know is
read token by token.
-/

namespace CobolTree.Grammar

open CobolTree.Expr

def kwData : Expr := keyword .kwData ["DATA"]
def kwFile : Expr := keyword .kwFile ["FILE"]
def kwWorkingStorage : Expr := keyword .kwWorkingStorage ["WORKING-STORAGE"]
def kwLocalStorage : Expr := keyword .kwLocalStorage ["LOCAL-STORAGE"]
def kwLinkage : Expr := keyword .kwLinkage ["LINKAGE"]
def kwCommunication : Expr := keyword .kwCommunication ["COMMUNICATION"]
def kwReport : Expr := keyword .kwReport ["REPORT"]
def kwScreen : Expr := keyword .kwScreen ["SCREEN"]
def kwFiller : Expr := keyword .kwFiller ["FILLER"]
def kwPicture : Expr := keyword .kwPicture ["PICTURE"]
def kwPic : Expr := keyword .kwPic ["PIC"]
def kwValue : Expr := keyword .kwValue ["VALUE"]
def kwValues : Expr := keyword .kwValues ["VALUES"]
def kwAre : Expr := keyword .kwAre ["ARE"]
def kwAll : Expr := keyword .kwAll ["ALL"]
def kwThrough : Expr := keyword .kwThrough ["THROUGH"]
def kwThru : Expr := keyword .kwThru ["THRU"]
def kwRedefines : Expr := keyword .kwRedefines ["REDEFINES"]
def kwOccurs : Expr := keyword .kwOccurs ["OCCURS"]
def kwTo : Expr := keyword .kwTo ["TO"]
def kwTimes : Expr := keyword .kwTimes ["TIMES"]
def kwAscending : Expr := keyword .kwAscending ["ASCENDING"]
def kwDescending : Expr := keyword .kwDescending ["DESCENDING"]
def kwKey : Expr := keyword .kwKey ["KEY"]
def kwIndexed : Expr := keyword .kwIndexed ["INDEXED"]
def kwBy : Expr := keyword .kwBy ["BY"]
def kwDepending : Expr := keyword .kwDepending ["DEPENDING"]
def kwOn : Expr := keyword .kwOn ["ON"]
def kwUsage : Expr := keyword .kwUsage ["USAGE"]

def figurativeConstant : Expr :=
  keyword .figurativeConstant
    ["ZEROES", "ZEROS", "ZERO", "SPACES", "SPACE", "HIGH-VALUES", "HIGH-VALUE",
     "LOW-VALUES", "LOW-VALUE", "QUOTES", "QUOTE", "NULLS", "NULL"]

def usageKind : Expr :=
  keyword .usageKind
    ["COMPUTATIONAL-5", "COMPUTATIONAL-4", "COMPUTATIONAL-3", "COMPUTATIONAL-2",
     "COMPUTATIONAL-1", "COMPUTATIONAL", "COMP-5", "COMP-4", "COMP-3", "COMP-2", "COMP-1",
     "COMP", "PACKED-DECIMAL", "BINARY", "DISPLAY", "INDEX", "POINTER"]

def fileDescriptionIndicator : Expr :=
  keyword .fileDescriptionIndicator ["FD", "SD", "RD", "CD"]

/-! ### Clauses -/

/-- A word that begins a clause. -/
def clauseKeyword : Expr :=
  kwPicture <|> kwPic <|> kwValues <|> kwValue <|> kwRedefines <|> kwOccurs <|> kwUsage <|>
    usageKind <|> kwAscending <|> kwDescending <|> kwIndexed <|> kwDepending

/-- A separator with a blank, or the end of the input, behind it. -/
def pictureSeparator : Expr :=
  (text "." <|> text "," <|> text ";") >>
    (text " " <|> text "\t" <|> text "\x0d" <|> text "\n" <|> eoi)

def pictureString : Expr :=
  rule .pictureString true
    (plus
      (absent (text " " <|> text "\t" <|> text "\x0d" <|> text "\n" <|> pictureSeparator) >>
        anyChar))

def pictureClause : Expr :=
  rule .pictureClause false ((kwPicture <|> kwPic) >> opt kwIs >> pictureString)

def valueLiteral : Expr := alphanumericLiteral <|> numericLiteral <|> figurativeConstant

def valueItem : Expr :=
  opt kwAll >> valueLiteral >> opt ((kwThrough <|> kwThru) >> valueLiteral)

def valueClause : Expr :=
  rule .valueClause false
    ((kwValues >> opt kwAre <|> kwValue >> opt kwIs) >> plus valueItem)

def redefinesClause : Expr := rule .redefinesClause false (kwRedefines >> cobolWord)

def occursOperand : Expr := absent clauseKeyword >> cobolWord

def occursOption : Expr :=
  (kwAscending <|> kwDescending) >> opt kwKey >> opt kwIs >> plus occursOperand <|>
    kwIndexed >> opt kwBy >> plus occursOperand <|>
    kwDepending >> opt kwOn >> occursOperand

def occursClause : Expr :=
  rule .occursClause false
    (kwOccurs >> integer >> opt (kwTo >> integer) >> opt kwTimes >> star occursOption)

def usageClause : Expr :=
  rule .usageClause false (kwUsage >> opt kwIs >> usageKind <|> usageKind)

def dataClause : Expr :=
  pictureClause <|> valueClause <|> redefinesClause <|> occursClause <|> usageClause <|>
    genericToken

/-! ### Descriptions -/

def describedFileName : Expr := rule .describedFileName false cobolWord

def fileDescriptionEntry : Expr :=
  rule .fileDescriptionEntry false
    (fileDescriptionIndicator >> describedFileName >> star dataClause >> dot)

/-- One or two digits. -/
def levelNumber : Expr := rule .levelNumber true ((digit >> opt digit) >> wordEnd)

def dataName : Expr := rule .dataName false (kwFiller <|> absent clauseKeyword >> cobolWord)

def dataDescriptionEntry : Expr :=
  rule .dataDescriptionEntry false (levelNumber >> opt dataName >> star dataClause >> dot)

/-! ### Sections -/

def dataSectionName : Expr :=
  rule .dataSectionName false
    (kwFile <|> kwWorkingStorage <|> kwLocalStorage <|> kwLinkage <|> kwCommunication <|>
      kwReport <|> kwScreen)

def dataSectionHeader : Expr :=
  rule .dataSectionHeader false (dataSectionName >> kwSection >> dot)

def dataSection : Expr :=
  rule .dataSection false
    (dataSectionHeader >> star (fileDescriptionEntry <|> dataDescriptionEntry <|> dot))

def dataHeader : Expr := rule .dataHeader false (kwData >> kwDivision >> dot)

def dataDivision : Expr := rule .dataDivision false (dataHeader >> star dataSection)

def dataUnit : Expr := rule .dataUnit false (leading >> dataDivision >> eoi)

end CobolTree.Grammar
