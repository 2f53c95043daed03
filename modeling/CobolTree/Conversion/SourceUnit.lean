import CobolTree.Conversion.ProgramUnit
import CobolTree.Source.Layout

/-!
The conversion of a whole source tree. Units are converted last to first, so every
nested unit before the unit around it; once converted, a unit is replaced by blanks of
the same bytes, so that nothing is converted twice and every offset stays what it was.
-/

namespace CobolTree

namespace Tree

variable {ν α : Type}

mutual

/-- The tree with its first node of some sort, parents first, replaced. -/
def replaceFirst? (sort : Tree ν α → Bool) (replacement : Tree ν α → Tree ν α) :
    Tree ν α → Option (Tree ν α)
  | .leaf _ => none
  | .node label children =>
      if sort (.node label children) then some (replacement (.node label children))
      else (replaceFirstOf? sort replacement children).map (.node label)

/-- The forest with its first node of some sort, parents first, replaced. -/
def replaceFirstOf? (sort : Tree ν α → Bool) (replacement : Tree ν α → Tree ν α) :
    List (Tree ν α) → Option (List (Tree ν α))
  | [] => none
  | tree :: rest =>
      match replaceFirst? sort replacement tree with
      | some replaced => some (replaced :: rest)
      | none => (replaceFirstOf? sort replacement rest).map (tree :: ·)

end

end Tree

namespace LocatedTree

def isUnit (tree : LocatedTree) : Bool := tree.isNode && tree.kind == .programUnit

/-- A unit that takes a given range. -/
def isUnitAt (range : Range) (tree : LocatedTree) : Bool := tree.isUnit && tree.range == range

/-- The unit with nothing below it but blanks of the same bytes. -/
def blanked (unit : LocatedTree) : LocatedTree :=
  let blanks : Leaf := ⟨⟨.whitespace, unit.text.blank⟩, unit.range.start⟩
  .node ⟨.programUnit, unit.range⟩ [.node ⟨.adaptedNode, unit.range⟩ [.leaf blanks]]

end LocatedTree

namespace Conversion

/-- The conversion of a tree in progress: the tree as it stands, and what was converted. -/
structure State where
  tree : LocatedTree
  progress : Progress

/-- Converts the first unit that takes a range, and blanks it. -/
def convertUnit (stream : Stream) (state : State) (range : Range) :
    Except ConversionError State := do
  match state.tree.nodes.find? (LocatedTree.isUnitAt range) with
  | none => throw (.unconvertedUnit range)
  | some unit =>
      let (tree, progress) ← programUnit stream state.progress unit
      let rest := state.tree.replaceFirst? (LocatedTree.isUnitAt range) LocatedTree.blanked
      return ⟨rest.getD state.tree, { progress with table := putUnit range tree progress.table }⟩

/-- The ranges of all units, outer ones first. -/
def unitRanges (tree : LocatedTree) : List Range :=
  (tree.nodes.filter (LocatedTree.isUnit ·)).map (LocatedTree.range ·)

/-- The rule trees of the parts of a root: units from the table, other nodes unrecognised. -/
def compilationParts (stream : Stream) (table : UnitTable) :
    List LocatedTree → Except ConversionError (List RuleTree)
  | [] => .ok []
  | .leaf leaf :: rest => do
      let others ← compilationParts stream table rest
      return if leaf.isTrivia then others else .leaf (stream.terminalOf leaf) :: others
  | .node extent children :: rest => do
      if extent.kind = .programUnit then
        match takeUnit? extent.range table with
        | none => throw (.unconvertedUnit extent.range)
        | some (tree, table) =>
            let others ← compilationParts stream table rest
            return tree :: others
      else
        let others ← compilationParts stream table rest
        return unrecognized stream (.node extent children) :: others

/-- The rule tree of a whole source: the compilation unit, then the end of the input. -/
def startRule (stream : Stream) (leaves : List Leaf) (parts : List RuleTree) : RuleTree :=
  .node
    ⟨.startRule, leaves.head?.map stream.terminalOf, leaves.getLast?.map stream.terminalOf, none⟩
    [RuleTree.bounded .compilationUnit parts, .leaf stream.endOfInput]

end Conversion

/-- A converted source: its rule tree, its source tree with all units blanked, and the
divisions that were refused by their grammars. -/
structure Adapted where
  tree : RuleTree
  source : LocatedTree
  diagnostics : List Diagnostic

namespace Adapted

/-- Converts a source tree whose text is that of a stream. -/
def ofTree (stream : Stream) (root : LocatedTree) : Except ConversionError Adapted := do
  let state ←
    (Conversion.unitRanges root).reverse.foldlM (Conversion.convertUnit stream) ⟨root, ⟨[], []⟩⟩
  let parts ← Conversion.compilationParts stream state.progress.table state.tree.children
  return ⟨Conversion.startRule stream root.tokens parts, state.tree, state.progress.reports⟩

/-- Every division was accepted by its grammar. -/
def isOk (adapted : Adapted) : Bool := !adapted.diagnostics.any (·.isError)

/-- The rule trees of the units that no other encloses. -/
def programUnits (adapted : Adapted) : List RuleTree :=
  match (adapted.tree.rulesOf .compilationUnit).head? with
  | some unit => unit.rulesOf .programUnit
  | none => []

/-- The rule tree of the unit that a blanked node stands for: of the units that begin within the
node, the first to begin. -/
def unitOf? (adapted : Adapted) (node : LocatedTree) : Option RuleTree :=
  let starts := (adapted.tree.nodes.filter (RuleTree.kind? · == some .programUnit)).filterMap
    fun unit =>
      ((RuleTree.start? unit).filter (node.range.covers ·.range)).map fun start =>
        (start.range.start, unit)
  let earlier (best : Option (Nat × RuleTree)) (next : Nat × RuleTree) :=
    match best with
    | some found => if next.1 < found.1 then some next else some found
    | none => some next
  (starts.foldl earlier none).map (·.2)

/-- The blanked nodes, each with the rule tree of the unit that it stands for. -/
def units (adapted : Adapted) : List (LocatedTree × RuleTree) :=
  if adapted.source.isNode ∧ adapted.source.kind = .sourceUnit then
    let nodes := (adapted.source.childrenOf .programUnit).filterMap fun unit =>
      (LocatedTree.childrenOf .adaptedNode unit).head?
    nodes.filterMap fun node => (adapted.unitOf? node).map fun unit => (node, unit)
  else []

end Adapted

end CobolTree
