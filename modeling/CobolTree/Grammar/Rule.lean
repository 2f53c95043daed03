/-!
The rules of the division grammars. Each rule has the name under which it is printed and
named in messages; `Rule.all` lists the rules of a grammar in the order in which messages
name them: the end of input, the rules that all grammars share, and its own.
-/

namespace CobolTree

/-- A rule of a division grammar. -/
inductive Rule where
  | eoi | cobolWord | alphanumericLiteral | numericLiteral | integer | dot | lparen | rparen
  | operator | kwDivision | kwSection | kwIs | kwProgram
  -- IDENTIFICATION DIVISION
  | identificationUnit | identificationDivision | identificationHeader | programIdParagraph
  | programName | programAttributes | commentParagraph | commentParagraphKeyword | commentEntry
  | kwIdentification | kwId | kwProgramId | kwCommon | kwInitial | kwRecursive
  -- ENVIRONMENT DIVISION
  | environmentUnit | environmentDivision | environmentHeader | environmentSection
  | environmentSectionName | environmentParagraph | environmentParagraphName | environmentEntry
  | fileControlEntry | selectedFileName | kwEnvironment | kwConfiguration | kwInputOutput
  | kwSourceComputer | kwObjectComputer | kwSpecialNames | kwRepository | kwFileControl
  | kwIOControl | kwSelect | kwOptional
  -- DATA DIVISION
  | dataUnit | dataDivision | dataHeader | dataSection | dataSectionHeader | dataSectionName
  | fileDescriptionEntry | fileDescriptionIndicator | describedFileName | dataDescriptionEntry
  | levelNumber | dataName | pictureClause | pictureString | valueClause | figurativeConstant
  | redefinesClause | occursClause | usageClause | usageKind | kwData | kwFile | kwWorkingStorage
  | kwLocalStorage | kwLinkage | kwCommunication | kwReport | kwScreen | kwFiller | kwPicture
  | kwPic | kwValue | kwValues | kwAre | kwAll | kwThrough | kwThru | kwRedefines | kwOccurs
  | kwTo | kwTimes | kwAscending | kwDescending | kwKey | kwIndexed | kwBy | kwDepending | kwOn
  | kwUsage
deriving DecidableEq, Repr

namespace Rule

/-- The rules in the order in which messages name them. -/
def all : List Rule :=
  [eoi, cobolWord, alphanumericLiteral, numericLiteral, integer, dot, lparen, rparen, operator,
   kwDivision, kwSection, kwIs, kwProgram, identificationUnit, identificationDivision,
   identificationHeader, programIdParagraph, programName, programAttributes, commentParagraph,
   commentParagraphKeyword, commentEntry, kwIdentification, kwId, kwProgramId, kwCommon,
   kwInitial, kwRecursive, environmentUnit, environmentDivision, environmentHeader,
   environmentSection, environmentSectionName, environmentParagraph, environmentParagraphName,
   environmentEntry, fileControlEntry, selectedFileName, kwEnvironment, kwConfiguration,
   kwInputOutput, kwSourceComputer, kwObjectComputer, kwSpecialNames, kwRepository,
   kwFileControl, kwIOControl, kwSelect, kwOptional, dataUnit, dataDivision, dataHeader,
   dataSection, dataSectionHeader, dataSectionName, fileDescriptionEntry,
   fileDescriptionIndicator, describedFileName, dataDescriptionEntry, levelNumber, dataName,
   pictureClause, pictureString, valueClause, figurativeConstant, redefinesClause, occursClause,
   usageClause, usageKind, kwData, kwFile, kwWorkingStorage, kwLocalStorage, kwLinkage,
   kwCommunication, kwReport, kwScreen, kwFiller, kwPicture, kwPic, kwValue, kwValues, kwAre,
   kwAll, kwThrough, kwThru, kwRedefines, kwOccurs, kwTo, kwTimes, kwAscending, kwDescending,
   kwKey, kwIndexed, kwBy, kwDepending, kwOn, kwUsage]

/-- The name of a rule. -/
def name : Rule → String
  | eoi => "EOI"
  | cobolWord => "cobol_word"
  | alphanumericLiteral => "alphanumeric_literal"
  | numericLiteral => "numeric_literal"
  | integer => "integer"
  | dot => "dot"
  | lparen => "lparen"
  | rparen => "rparen"
  | operator => "operator"
  | kwDivision => "kw_division"
  | kwSection => "kw_section"
  | kwIs => "kw_is"
  | kwProgram => "kw_program"
  | identificationUnit => "identification_unit"
  | identificationDivision => "identification_division"
  | identificationHeader => "identification_header"
  | programIdParagraph => "program_id_paragraph"
  | programName => "program_name"
  | programAttributes => "program_attributes"
  | commentParagraph => "comment_paragraph"
  | commentParagraphKeyword => "comment_paragraph_keyword"
  | commentEntry => "comment_entry"
  | kwIdentification => "kw_identification"
  | kwId => "kw_id"
  | kwProgramId => "kw_program_id"
  | kwCommon => "kw_common"
  | kwInitial => "kw_initial"
  | kwRecursive => "kw_recursive"
  | environmentUnit => "environment_unit"
  | environmentDivision => "environment_division"
  | environmentHeader => "environment_header"
  | environmentSection => "environment_section"
  | environmentSectionName => "environment_section_name"
  | environmentParagraph => "environment_paragraph"
  | environmentParagraphName => "environment_paragraph_name"
  | environmentEntry => "environment_entry"
  | fileControlEntry => "file_control_entry"
  | selectedFileName => "file_name"
  | kwEnvironment => "kw_environment"
  | kwConfiguration => "kw_configuration"
  | kwInputOutput => "kw_input_output"
  | kwSourceComputer => "kw_source_computer"
  | kwObjectComputer => "kw_object_computer"
  | kwSpecialNames => "kw_special_names"
  | kwRepository => "kw_repository"
  | kwFileControl => "kw_file_control"
  | kwIOControl => "kw_i_o_control"
  | kwSelect => "kw_select"
  | kwOptional => "kw_optional"
  | dataUnit => "data_unit"
  | dataDivision => "data_division"
  | dataHeader => "data_header"
  | dataSection => "data_section"
  | dataSectionHeader => "data_section_header"
  | dataSectionName => "data_section_name"
  | fileDescriptionEntry => "file_description_entry"
  | fileDescriptionIndicator => "file_description_indicator"
  | describedFileName => "file_name"
  | dataDescriptionEntry => "data_description_entry"
  | levelNumber => "level_number"
  | dataName => "data_name"
  | pictureClause => "picture_clause"
  | pictureString => "picture_string"
  | valueClause => "value_clause"
  | figurativeConstant => "figurative_constant"
  | redefinesClause => "redefines_clause"
  | occursClause => "occurs_clause"
  | usageClause => "usage_clause"
  | usageKind => "usage_kind"
  | kwData => "kw_data"
  | kwFile => "kw_file"
  | kwWorkingStorage => "kw_working_storage"
  | kwLocalStorage => "kw_local_storage"
  | kwLinkage => "kw_linkage"
  | kwCommunication => "kw_communication"
  | kwReport => "kw_report"
  | kwScreen => "kw_screen"
  | kwFiller => "kw_filler"
  | kwPicture => "kw_picture"
  | kwPic => "kw_pic"
  | kwValue => "kw_value"
  | kwValues => "kw_values"
  | kwAre => "kw_are"
  | kwAll => "kw_all"
  | kwThrough => "kw_through"
  | kwThru => "kw_thru"
  | kwRedefines => "kw_redefines"
  | kwOccurs => "kw_occurs"
  | kwTo => "kw_to"
  | kwTimes => "kw_times"
  | kwAscending => "kw_ascending"
  | kwDescending => "kw_descending"
  | kwKey => "kw_key"
  | kwIndexed => "kw_indexed"
  | kwBy => "kw_by"
  | kwDepending => "kw_depending"
  | kwOn => "kw_on"
  | kwUsage => "kw_usage"

theorem mem_all (rule : Rule) : rule ∈ all := by
  cases rule <;> decide

end Rule

end CobolTree
