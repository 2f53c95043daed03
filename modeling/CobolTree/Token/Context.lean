/-!
The syntactic contexts in which tokens are read. The lexer keeps no state of its own:
each time it reads a token it is told the context, and the context alone decides how
characters are grouped.
-/

namespace CobolTree

/-- How characters are grouped into tokens. -/
inductive Mode where
  /-- Words, literals and punctuation. -/
  | word
  /-- As `word`, with numeric literals that may hold a decimal point. -/
  | sentence
  /-- The rest of the line is one token. -/
  | commentEntry
  /-- A picture character-string is one token. -/
  | picture
deriving DecidableEq, Repr

/-- What is expected where a token is read. -/
inductive Context where
  | programUnit
  | identificationDivision | environmentDivision | dataDivision | procedureDivision
  | sectionHeader | paragraphHeader
  | sentence | commentEntry | pictureString
  | endProgram
deriving DecidableEq, Repr

namespace Context

def all : List Context :=
  [.programUnit, .identificationDivision, .environmentDivision, .dataDivision,
   .procedureDivision, .sectionHeader, .paragraphHeader, .sentence, .commentEntry,
   .pictureString, .endProgram]

/-- The mode a context reads in. -/
def mode : Context → Mode
  | sentence => .sentence
  | commentEntry => .commentEntry
  | pictureString => .picture
  | _ => .word

/-- The context as named in messages. -/
def description : Context → String
  | programUnit => "at program unit level"
  | identificationDivision => "in IDENTIFICATION DIVISION"
  | environmentDivision => "in ENVIRONMENT DIVISION"
  | dataDivision => "in DATA DIVISION"
  | procedureDivision => "in PROCEDURE DIVISION"
  | sectionHeader => "in section header"
  | paragraphHeader => "in paragraph header"
  | sentence => "in sentence"
  | commentEntry => "in comment entry"
  | pictureString => "in PICTURE clause"
  | endProgram => "in END PROGRAM"

end Context

end CobolTree
