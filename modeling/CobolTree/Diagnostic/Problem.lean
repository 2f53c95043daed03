import CobolTree.Diagnostic.Basic
import CobolTree.Token.Lexer

/-!
What can be wrong with the structure of a source text, as causes. Each cause determines
its code, message, hint and related places; a diagnostic is a cause at a place.
-/

namespace CobolTree

/-- What a separator period is missing after. -/
inductive PeriodSite where
  | divisionHeader (division : Division)
  | programId | programName | paragraphName | sectionHeader
  | endProgram
  | sentence
deriving DecidableEq, Repr

/-- The site as named in messages. -/
def PeriodSite.phrase : PeriodSite → String
  | divisionHeader division => "after " ++ division.title
  | programId => "after PROGRAM-ID"
  | programName => "after the program name"
  | paragraphName => "after the paragraph name"
  | sectionHeader => "after the section header"
  | endProgram => "after END PROGRAM"
  | sentence => "at the end of the sentence"

/-- The name a program declares, and where. -/
structure ProgramIdentity where
  name : Text
  declared : Range
deriving DecidableEq, Repr

/-- What is wrong at some place of a source text. -/
inductive Problem where
  | unrecognized (text : Text)
  | unclosedLiteral
  | missingPeriod (site : PeriodSite)
  | divisionOrder (division : Division)
  | duplicateDivision (division : Division)
  | noIdentificationDivision
  | noProgramId
  | noProgramName
  | endProgramMismatch (found : Text) (program : ProgramIdentity)
  | noEndProgramName
  | strayText (context : Context)
  | strayToken (text : Text)
  | tooMany
deriving DecidableEq, Repr

namespace Problem

/-- What is wrong with a token that is no token at all: a literal that does not end, or
characters that begin no token. -/
def ofOpaque (text : Text) : Problem :=
  match (text.dropWhile Scan.isLiteralLetter).head? with
  | some c => if Scan.isQuote c then unclosedLiteral else unrecognized text
  | none => unrecognized text

def code : Problem → Code
  | unrecognized _ => .unrecognizedSequence
  | unclosedLiteral => .unclosedLiteral
  | missingPeriod _ => .missingPeriod
  | divisionOrder _ => .divisionOrder
  | duplicateDivision _ => .duplicateDivision
  | noIdentificationDivision => .missingIdentification
  | noProgramId => .missingProgramId
  | noProgramName => .missingProgramName
  | endProgramMismatch _ _ => .endProgramMismatch
  | noEndProgramName => .missingEndProgramName
  | strayText _ => .unexpectedToken
  | strayToken _ => .unexpectedToken
  | tooMany => .tooManyDiagnostics

def message : Problem → String
  | unrecognized text => "unrecognized character sequence '" ++ String.ofList text ++ "'"
  | unclosedLiteral => "alphanumeric literal is not closed"
  | missingPeriod site => "expected '.' " ++ site.phrase
  | divisionOrder division => division.title ++ " is out of order"
  | duplicateDivision division => "duplicate " ++ division.title
  | noIdentificationDivision => "program unit has no IDENTIFICATION DIVISION"
  | noProgramId => "IDENTIFICATION DIVISION has no PROGRAM-ID paragraph"
  | noProgramName => "expected a program name after PROGRAM-ID"
  | endProgramMismatch found program =>
      "END PROGRAM " ++ String.ofList found ++ " does not match PROGRAM-ID " ++
        String.ofList program.name
  | noEndProgramName => "expected a program name after END PROGRAM"
  | strayText context => "unexpected text " ++ context.description
  | strayToken text => "unexpected '" ++ String.ofList text ++ "'"
  | tooMany => "too many diagnostics, later ones were dropped"

/-- How the problem may be mended. -/
def hint? : Problem → Option String
  | endProgramMismatch _ program => some ("use END PROGRAM " ++ String.ofList program.name)
  | _ => none

/-- Other places that bear on the problem. -/
def related : Problem → List Related
  | endProgramMismatch _ program => [⟨"PROGRAM-ID declared here", program.declared⟩]
  | _ => []

/-- How grave the problem is, unless settings say otherwise. -/
def severity : Problem → Severity
  | tooMany => .hint
  | _ => .error

/-- The diagnostic of a problem that takes some bytes, the first of them at a position. -/
def within (range : Range) (position : Position) (problem : Problem) : Diagnostic :=
  { message := problem.message
    range := range
    position := position
    code := problem.code
    severity := problem.severity
    division := none
    hint := problem.hint?
    related := problem.related }

/-- The diagnostic of a problem with a token. -/
def ofToken (token : Token) (problem : Problem) : Diagnostic :=
  problem.within token.range token.position

/-- The diagnostic of a problem between two tokens. -/
def atPosition (position : Position) (problem : Problem) : Diagnostic :=
  problem.within (Range.empty position.index) position

end Problem

end CobolTree
