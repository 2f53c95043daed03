/-!
The kinds of leaves and nodes of a source tree. Reserved words are not kinds of their
own: whether a word is reserved depends on where it stands, so every word is a `word`.
-/

namespace CobolTree

/-- What a leaf or a node of a source tree is. -/
inductive Kind where
  | whitespace | comment
  | word | stringLiteral | numericLiteral | pictureString | commentEntry
  | dot | comma | semicolon | colon | leftParen | rightParen
  | plus | minus | star | starStar | slash
  | equal | less | greater | lessEqual | greaterEqual | lessGreater | ampersand
  | error
  | sourceUnit | programUnit
  | identificationDivision | programIdParagraph | commentEntryParagraph
  | environmentDivision | dataDivision
  | procedureDivision | procedureSection | procedureParagraph | sentence
  | adaptedNode | errorNode
deriving DecidableEq, Repr, Inhabited

namespace Kind

/-- All kinds, in the order of their numbers. -/
def all : List Kind :=
  [.whitespace, .comment,
   .word, .stringLiteral, .numericLiteral, .pictureString, .commentEntry,
   .dot, .comma, .semicolon, .colon, .leftParen, .rightParen,
   .plus, .minus, .star, .starStar, .slash,
   .equal, .less, .greater, .lessEqual, .greaterEqual, .lessGreater, .ampersand,
   .error,
   .sourceUnit, .programUnit,
   .identificationDivision, .programIdParagraph, .commentEntryParagraph,
   .environmentDivision, .dataDivision,
   .procedureDivision, .procedureSection, .procedureParagraph, .sentence,
   .adaptedNode, .errorNode]

/-- The kind with a given number, if there is one. -/
def ofNumber? (number : Nat) : Option Kind := all[number]?

/-- The number of a kind. -/
def number (kind : Kind) : Nat := all.idxOf kind

theorem ofNumber?_number (kind : Kind) : ofNumber? kind.number = some kind := by
  cases kind <;> rfl

/-- The spelling of a kind in listings. -/
def name : Kind → String
  | whitespace => "WHITESPACE"
  | comment => "COMMENT"
  | word => "WORD"
  | stringLiteral => "STRING_LITERAL"
  | numericLiteral => "NUMERIC_LITERAL"
  | pictureString => "PICTURE_STRING"
  | commentEntry => "COMMENT_ENTRY"
  | dot => "DOT"
  | comma => "COMMA"
  | semicolon => "SEMICOLON"
  | colon => "COLON"
  | leftParen => "L_PAREN"
  | rightParen => "R_PAREN"
  | plus => "PLUS"
  | minus => "MINUS"
  | star => "STAR"
  | starStar => "STAR_STAR"
  | slash => "SLASH"
  | equal => "EQ"
  | less => "LT"
  | greater => "GT"
  | lessEqual => "LT_EQ"
  | greaterEqual => "GT_EQ"
  | lessGreater => "LT_GT"
  | ampersand => "AMP"
  | error => "ERROR"
  | sourceUnit => "SOURCE_UNIT"
  | programUnit => "PROGRAM_UNIT"
  | identificationDivision => "IDENTIFICATION_DIVISION"
  | programIdParagraph => "PROGRAM_ID_PARAGRAPH"
  | commentEntryParagraph => "COMMENT_ENTRY_PARAGRAPH"
  | environmentDivision => "ENVIRONMENT_DIVISION"
  | dataDivision => "DATA_DIVISION"
  | procedureDivision => "PROCEDURE_DIVISION"
  | procedureSection => "SECTION"
  | procedureParagraph => "PARAGRAPH"
  | sentence => "SENTENCE"
  | adaptedNode => "ADAPTED_NODE"
  | errorNode => "ERROR_NODE"

/-- The kind with a given spelling. -/
def ofName? (name : String) : Option Kind := all.find? (·.name == name)

/-- Blanks and comments carry no meaning. -/
def isTrivia : Kind → Bool
  | whitespace | comment => true
  | _ => false

end Kind

end CobolTree
