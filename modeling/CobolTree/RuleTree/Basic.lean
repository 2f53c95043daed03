import CobolTree.Provenance.Mapping
import CobolTree.Source.Text
import CobolTree.Token.Kind
import CobolTree.Tree.Walk

/-!
Rule trees: parse trees in the shape of a grammar. A node is an applied rule with its
first and last terminal; a leaf is a terminal, placed in the source text. Rules are
either those of program structure or those of a division's own grammar.
-/

namespace CobolTree

/-- What a terminal was read as. -/
inductive TerminalType where
  /-- A leaf of a source tree. -/
  | lexeme (kind : Kind)
  /-- A rule of a division grammar that has no parts. -/
  | grammarRule (rule : String)
  | endOfInput
deriving DecidableEq, Repr

/-- A leaf of a rule tree. -/
structure Terminal where
  type : TerminalType
  text : Text
  position : Position
  range : Range
  /-- Where the text was written, if that is known. -/
  origin : Option Location
deriving DecidableEq, Repr

namespace Terminal

def isEndOfInput (terminal : Terminal) : Bool := terminal.type == .endOfInput

end Terminal

/-- A division that has a grammar of its own. -/
inductive GrammarName where
  | identification | environment | data
deriving DecidableEq, Repr

namespace GrammarName

def all : List GrammarName := [identification, environment, data]

def name : GrammarName → String
  | identification => "identification"
  | environment => "environment"
  | data => "data"

/-- The rule that spans the whole division. -/
def divisionRule : GrammarName → String
  | identification => "identification_division"
  | environment => "environment_division"
  | data => "data_division"

end GrammarName

/-- The rule that a node applies. -/
inductive RuleKind where
  | startRule | compilationUnit | programUnit
  | endProgramStatement | programName
  | procedureDivision | procedureDivisionHeader
  | procedureSection | procedureSectionHeader
  | paragraph | paragraphName
  | sentence
  /-- Text that no construct claims. -/
  | unrecognized
  /-- A rule of a division grammar. -/
  | grammar (division : GrammarName) (rule : String)
deriving DecidableEq, Repr

namespace RuleKind

/-- The rules of program structure. -/
def structural : List RuleKind :=
  [startRule, compilationUnit, programUnit, endProgramStatement, programName,
   procedureDivision, procedureDivisionHeader, procedureSection, procedureSectionHeader,
   paragraph, paragraphName, sentence, unrecognized]

/-- The rule as printed. -/
def name : RuleKind → String
  | startRule => "StartRule"
  | compilationUnit => "CompilationUnit"
  | programUnit => "ProgramUnit"
  | endProgramStatement => "EndProgramStatement"
  | programName => "ProgramName"
  | procedureDivision => "ProcedureDivision"
  | procedureDivisionHeader => "ProcedureDivisionHeader"
  | procedureSection => "ProcedureSection"
  | procedureSectionHeader => "ProcedureSectionHeader"
  | paragraph => "Paragraph"
  | paragraphName => "ParagraphName"
  | sentence => "Sentence"
  | unrecognized => "Unrecognized"
  | grammar division rule => division.name ++ "::" ++ rule

end RuleKind

/-- What a node of a rule tree says about itself. -/
structure RuleHead where
  kind : RuleKind
  start : Option Terminal
  stop : Option Terminal
  /-- Why the division could not be read by its grammar. -/
  exception : Option String
deriving DecidableEq, Repr

/-- A parse tree in the shape of a grammar. -/
abbrev RuleTree := Tree RuleHead Terminal

namespace RuleTree

/-- The terminals below a node, in order. -/
def terminals (tree : RuleTree) : List Terminal := (LeafWalk.ofTree tree).toList

/-- The node of a rule over given parts, from their first terminal to their last. -/
def bounded (kind : RuleKind) (children : List RuleTree) : RuleTree :=
  let terminals := LeafWalk.toList ⟨[children]⟩
  .node ⟨kind, terminals.head?, terminals.getLast?, none⟩ children

/-- The node of a rule over terminals alone. -/
def ofTerminals (kind : RuleKind) (terminals : List Terminal) : RuleTree :=
  bounded kind (terminals.map .leaf)

/-- The rule of a node. -/
def kind? (tree : RuleTree) : Option RuleKind := tree.label?.map (·.kind)

/-- The first terminal of a node. -/
def start? (tree : RuleTree) : Option Terminal := tree.label?.bind (·.start)

/-- The nodes of one rule right below. -/
def rulesOf (kind : RuleKind) (tree : RuleTree) : List RuleTree :=
  tree.childNodes.filter fun child => RuleTree.kind? child == some kind

/-- The first node, parents first, that applies a grammar rule of a given name. -/
def findGrammarRule? (name : String) (tree : RuleTree) : Option RuleTree :=
  tree.nodes.find? fun node =>
    match RuleTree.kind? node with
    | some (.grammar _ rule) => rule == name
    | _ => false

/-- The texts of the terminals with a space between each two, the end of input left out. -/
def text (tree : RuleTree) : Text :=
  [' '].intercalate (((terminals tree).filter (!·.isEndOfInput)).map (·.text))

/-- Some division below could not be read by its grammar. -/
def hasException (tree : RuleTree) : Bool :=
  tree.nodes.any fun node => (node.label?.bind (·.exception)).isSome

end RuleTree

end CobolTree
