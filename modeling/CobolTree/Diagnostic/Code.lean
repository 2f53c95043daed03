/-!
The labelled problems that a diagnostic can name. The second digit of a label is its
group: lexical, structural, program identity, division grammar, and the rest.
-/

namespace CobolTree

/-- One labelled problem. -/
inductive Code where
  | unrecognizedSequence | unclosedLiteral
  | missingPeriod | divisionOrder | duplicateDivision | missingIdentification
  | missingProgramId | missingProgramName | endProgramMismatch | missingEndProgramName
  | divisionGrammar
  | unexpectedToken | tooManyDiagnostics
deriving DecidableEq, Repr

namespace Code

def all : List Code :=
  [unrecognizedSequence, unclosedLiteral,
   missingPeriod, divisionOrder, duplicateDivision, missingIdentification,
   missingProgramId, missingProgramName, endProgramMismatch, missingEndProgramName,
   divisionGrammar,
   unexpectedToken, tooManyDiagnostics]

/-- The label under which a problem is printed. -/
def label : Code → String
  | unrecognizedSequence => "E0101"
  | unclosedLiteral => "E0102"
  | missingPeriod => "E0201"
  | divisionOrder => "E0202"
  | duplicateDivision => "E0203"
  | missingIdentification => "E0204"
  | missingProgramId => "E0301"
  | missingProgramName => "E0302"
  | endProgramMismatch => "E0303"
  | missingEndProgramName => "E0304"
  | divisionGrammar => "E0401"
  | unexpectedToken => "E0901"
  | tooManyDiagnostics => "E0902"

/-- The problem with a given label. -/
def ofLabel? (label : String) : Option Code := all.find? (·.label == label)

/-- The key under which localized messages are looked up. -/
def messageKey : Code → String
  | unrecognizedSequence => "lexer.unrecognizedSequence"
  | unclosedLiteral => "lexer.unclosedLiteral"
  | missingPeriod => "parser.missingPeriod"
  | divisionOrder => "parser.divisionOrder"
  | duplicateDivision => "parser.duplicateDivision"
  | missingIdentification => "parser.missingIdentificationDivision"
  | missingProgramId => "parser.missingProgramId"
  | missingProgramName => "parser.missingProgramName"
  | endProgramMismatch => "parser.endProgramMismatch"
  | missingEndProgramName => "parser.missingEndProgramName"
  | divisionGrammar => "adapter.divisionReparse"
  | unexpectedToken => "parser.unexpectedToken"
  | tooManyDiagnostics => "parser.tooManyDiagnostics"

/-- Problems with characters. -/
def isLexical : Code → Bool
  | unrecognizedSequence | unclosedLiteral => true
  | _ => false

/-- Problems with divisions, their headers and their periods. -/
def isStructural : Code → Bool
  | missingPeriod | divisionOrder | duplicateDivision | missingIdentification => true
  | _ => false

/-- What the group of a problem is about. -/
def category : Code → String
  | unrecognizedSequence | unclosedLiteral => "lexical error"
  | missingPeriod | divisionOrder | duplicateDivision | missingIdentification =>
      "structural error"
  | missingProgramId | missingProgramName | endProgramMismatch | missingEndProgramName =>
      "program identity error"
  | divisionGrammar => "division grammar error"
  | unexpectedToken | tooManyDiagnostics => "syntax error"

/-- The message of a diagnostic that states none of its own. -/
def defaultMessage : Code → String
  | unrecognizedSequence => "unrecognized character sequence"
  | unclosedLiteral => "alphanumeric literal is not closed"
  | missingPeriod => "missing separator period"
  | divisionOrder => "division out of order"
  | duplicateDivision => "duplicate division"
  | missingIdentification => "missing IDENTIFICATION DIVISION"
  | missingProgramId => "missing PROGRAM-ID paragraph"
  | missingProgramName => "missing program name"
  | endProgramMismatch => "END PROGRAM name does not match PROGRAM-ID"
  | missingEndProgramName => "missing program name after END PROGRAM"
  | divisionGrammar => "division does not match its grammar"
  | unexpectedToken => "unexpected token"
  | tooManyDiagnostics => "too many diagnostics"

end Code

end CobolTree
