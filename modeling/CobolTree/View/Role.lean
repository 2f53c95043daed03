import CobolTree.Tree.Located

/-!
The role of a part of a source tree: which construct it is, whether it is a token, or
neither. Comment-entry paragraphs and error nodes have no role of their own.
-/

namespace CobolTree

/-- The construct that a part of a source tree is. -/
inductive Role where
  | sourceUnit | programUnit
  | identificationDivision | programIdParagraph
  | environmentDivision | dataDivision
  | procedureDivision | procedureSection | procedureParagraph | sentence
  | adaptedNode
  | other
  | token
deriving DecidableEq, Repr

namespace Role

/-- The role of a node of some kind. -/
def ofKind : Kind → Role
  | .sourceUnit => sourceUnit
  | .programUnit => programUnit
  | .identificationDivision => identificationDivision
  | .programIdParagraph => programIdParagraph
  | .environmentDivision => environmentDivision
  | .dataDivision => dataDivision
  | .procedureDivision => procedureDivision
  | .procedureSection => procedureSection
  | .procedureParagraph => procedureParagraph
  | .sentence => sentence
  | .adaptedNode => adaptedNode
  | _ => other

/-- The role of a part of a tree. -/
def ofTree : LocatedTree → Role
  | .leaf _ => token
  | .node extent _ => ofKind extent.kind

end Role

end CobolTree
