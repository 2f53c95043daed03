import CobolTree.Grammar.Lexical

/-!
The grammar of the ENVIRONMENT DIVISION: sections, paragraphs and their entries. An entry
is a SELECT clause, or clauses of any tokens up to a period or to the next header.
-/

namespace CobolTree.Grammar

open CobolTree.Expr

def kwEnvironment : Expr := keyword .kwEnvironment ["ENVIRONMENT"]
def kwConfiguration : Expr := keyword .kwConfiguration ["CONFIGURATION"]
def kwInputOutput : Expr := keyword .kwInputOutput ["INPUT-OUTPUT"]
def kwSourceComputer : Expr := keyword .kwSourceComputer ["SOURCE-COMPUTER"]
def kwObjectComputer : Expr := keyword .kwObjectComputer ["OBJECT-COMPUTER"]
def kwSpecialNames : Expr := keyword .kwSpecialNames ["SPECIAL-NAMES"]
def kwRepository : Expr := keyword .kwRepository ["REPOSITORY"]
def kwFileControl : Expr := keyword .kwFileControl ["FILE-CONTROL"]
def kwIOControl : Expr := keyword .kwIOControl ["I-O-CONTROL"]
def kwSelect : Expr := keyword .kwSelect ["SELECT"]
def kwOptional : Expr := keyword .kwOptional ["OPTIONAL"]

def environmentSectionName : Expr :=
  rule .environmentSectionName false (kwConfiguration <|> kwInputOutput)

def environmentParagraphName : Expr :=
  rule .environmentParagraphName false
    (kwSourceComputer <|> kwObjectComputer <|> kwSpecialNames <|> kwRepository <|>
      kwFileControl <|> kwIOControl)

/-- The beginning of the next entry, paragraph or section. -/
def environmentBoundary : Expr :=
  environmentParagraphName >> dot <|> environmentSectionName >> kwSection <|> kwSelect

def environmentClause : Expr := absent environmentBoundary >> genericToken

def selectedFileName : Expr := rule .selectedFileName false cobolWord

def fileControlEntry : Expr :=
  rule .fileControlEntry false
    (kwSelect >> opt kwOptional >> selectedFileName >> star environmentClause >> dot)

def environmentEntry : Expr :=
  rule .environmentEntry false
    (fileControlEntry <|> plus environmentClause >> opt dot <|> dot)

def environmentParagraph : Expr :=
  rule .environmentParagraph false (environmentParagraphName >> dot >> star environmentEntry)

def environmentSection : Expr :=
  rule .environmentSection false
    (environmentSectionName >> kwSection >> dot >> star environmentParagraph)

def environmentHeader : Expr :=
  rule .environmentHeader false (kwEnvironment >> kwDivision >> dot)

def environmentDivision : Expr :=
  rule .environmentDivision false
    (environmentHeader >> star (environmentSection <|> environmentParagraph))

def environmentUnit : Expr :=
  rule .environmentUnit false (leading >> environmentDivision >> eoi)

end CobolTree.Grammar
