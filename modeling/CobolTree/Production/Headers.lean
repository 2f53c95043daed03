import CobolTree.Division
import CobolTree.Settings
import CobolTree.Token.Lexer

/-!
What stands at a cursor: headers of divisions, sections and paragraphs, and the trailer
of a program. Each is recognised by the next two tokens that are neither blanks nor
comments, without moving the cursor.
-/

namespace CobolTree

/-- Paragraphs of the IDENTIFICATION DIVISION that hold free text. -/
def commentEntryWords : List Text :=
  ["AUTHOR".toList, "INSTALLATION".toList, "DATE-WRITTEN".toList, "DATE-COMPILED".toList,
   "SECURITY".toList, "REMARKS".toList]

/-- Words that may stand between a program's name and the period behind it. -/
def programAttributeWords : List Text :=
  ["IS".toList, "COMMON".toList, "INITIAL".toList, "RECURSIVE".toList, "PROGRAM".toList]

namespace Cursor

def atEnd (cursor : Cursor) : Bool := cursor.rest.isEmpty

/-- The division whose header stands here: a header word and the word DIVISION. -/
def divisionHeader? (cursor : Cursor) : Option Division :=
  match cursor.ahead .programUnit 2 with
  | [name, division] =>
      if name.kind = .word ∧ division.isWord "DIVISION".toList then
        Division.ofHeaderWord? name.text
      else none
  | _ => none

/-- The words END PROGRAM stand here. -/
def atEndProgram (cursor : Cursor) : Bool :=
  match cursor.ahead .endProgram 2 with
  | [first, second] => first.isWord "END".toList && second.isWord "PROGRAM".toList
  | _ => false

/-- A division header or END PROGRAM stands here. -/
def atHeader (cursor : Cursor) : Bool := cursor.divisionHeader?.isSome || cursor.atEndProgram

/-- Nothing more of the current division stands here. -/
def atUnitBoundary (cursor : Cursor) : Bool := cursor.atEnd || cursor.atHeader

/-- A word and the word SECTION stand here. -/
def atSectionHeader (cursor : Cursor) : Bool :=
  match cursor.ahead .sectionHeader 2 with
  | [name, second] => name.kind == .word && second.isWord "SECTION".toList
  | _ => false

/-- A word that is no statement verb and a period stand here. -/
def atParagraphHeader (settings : Settings) (cursor : Cursor) : Bool :=
  match cursor.ahead .paragraphHeader 2 with
  | [name, period] =>
      name.kind == .word && period.kind == .dot && !settings.isStatementVerb name.text
  | _ => false

/-- The name of an identification paragraph and a period stand here. -/
def atIdentificationParagraph (cursor : Cursor) : Bool :=
  match cursor.ahead .identificationDivision 2 with
  | [name, period] =>
      period.kind == .dot &&
        (name.isWord "PROGRAM-ID".toList || commentEntryWords.any (name.isWord ·))
  | _ => false

end Cursor

end CobolTree
