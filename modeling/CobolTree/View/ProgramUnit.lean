import CobolTree.Division
import CobolTree.Production.Identification
import CobolTree.Tree.Located

/-!
A program unit as seen in its tree: its divisions, the programs nested in it, the name
that it declares, and the name that its trailer repeats.
-/

namespace CobolTree.ProgramUnit

/-- The divisions of a unit, in the order of the text. -/
def divisions (unit : LocatedTree) : List (Division × LocatedTree) :=
  unit.childNodes.filterMap fun node =>
    (Division.ofKind? (LocatedTree.kind node)).map fun division => (division, node)

/-- The first division of a unit that is the given one. -/
def division? (division : Division) (unit : LocatedTree) : Option LocatedTree :=
  (unit.childrenOf division.kind).head?

/-- The units right inside a unit, or right below a root. -/
def nested (unit : LocatedTree) : List LocatedTree := unit.childrenOf .programUnit

/-- The node that stands for a unit whose parts have been taken out. -/
def adapted? (unit : LocatedTree) : Option LocatedTree := (unit.childrenOf .adaptedNode).head?

/-- The first PROGRAM-ID paragraph of an IDENTIFICATION DIVISION. -/
def programId? (division : LocatedTree) : Option LocatedTree :=
  (division.childrenOf .programIdParagraph).head?

/-- The name in a PROGRAM-ID paragraph: the word or literal behind its first period. -/
def declaredName? (paragraph : LocatedTree) : Option Leaf :=
  match paragraph.ownTokens.dropWhile (·.kind != .dot) with
  | _ :: name :: _ => if name.kind = .word ∨ name.kind = .stringLiteral then some name else none
  | _ => none

/-- The token that names a unit. -/
def nameToken? (unit : LocatedTree) : Option Leaf :=
  (division? .identification unit).bind programId? |>.bind declaredName?

/-- The name of a unit, without quotes. -/
def name? (unit : LocatedTree) : Option Text := (nameToken? unit).map (programName ·.text)

/-- The tokens between END PROGRAM and the period behind it, if there are any. -/
def trailerName? (unit : LocatedTree) : Option (List Leaf) :=
  let trailer := unit.ownTokens.dropWhile (!Text.sameWord ·.text "END".toList)
  let name := (trailer.drop 2).takeWhile (·.kind != .dot)
  if name.isEmpty then none else some name

end CobolTree.ProgramUnit
