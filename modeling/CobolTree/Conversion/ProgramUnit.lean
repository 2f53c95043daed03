import CobolTree.Conversion.Division

/-!
The rule tree of a program unit. Nested units are converted before their parents; a unit
takes the rule trees of the units nested in it from those converted so far, by the range
that each of them takes in the text.
-/

namespace CobolTree.Conversion

/-- Rule trees of converted units, by the range of the unit. -/
abbrev UnitTable := List (Range × RuleTree)

/-- The rule tree of a range, and the table without it. -/
def takeUnit? (range : Range) (table : UnitTable) : Option (RuleTree × UnitTable) :=
  (table.find? (·.1 = range)).map fun entry => (entry.2, table.filter (·.1 ≠ range))

/-- The table with a rule tree for a range, in place of any other. -/
def putUnit (range : Range) (tree : RuleTree) (table : UnitTable) : UnitTable :=
  (range, tree) :: table.filter (·.1 ≠ range)

/-- What has been converted so far: the units, and the problems found. -/
structure Progress where
  table : UnitTable
  reports : List Diagnostic

/-- The rule tree of a node right below a unit that is no unit itself, with the problems found:
a division, or text that no construct claims. -/
def plainPart (stream : Stream) (node : LocatedTree) : Converted RuleTree :=
  match Division.ofKind? (LocatedTree.kind node) with
  | some found => division stream found node
  | none => .ok (unrecognized stream node, [])

/-- The rule tree of one node right below a unit. -/
def unitPart (stream : Stream) (progress : Progress) (node : LocatedTree) :
    Except ConversionError (RuleTree × Progress) :=
  if LocatedTree.kind node = .programUnit then
    match takeUnit? node.range progress.table with
    | some (tree, table) => .ok (tree, { progress with table := table })
    | none => .error (.unconvertedUnit node.range)
  else do
    let (tree, reports) ← plainPart stream node
    return (tree, { progress with reports := progress.reports ++ reports })

/-- The rule trees of the nodes right below a unit, in order. -/
def unitParts (stream : Stream) (progress : Progress) :
    List LocatedTree → Except ConversionError (List RuleTree × Progress)
  | [] => .ok ([], progress)
  | node :: rest => do
      let (tree, progress) ← unitPart stream progress node
      let (trees, progress) ← unitParts stream progress rest
      return (tree :: trees, progress)

/-- The name in a trailer, if any of it has been read. -/
def trailerName (name : List Terminal) : List RuleTree :=
  if name.isEmpty then [] else [.ofTerminals .programName name]

/-- The parts of a trailer behind END PROGRAM: names, each up to a period, and the periods. -/
def trailerParts (stream : Stream) (name : List Terminal) : List Leaf → List RuleTree
  | [] => trailerName name
  | leaf :: rest =>
      let terminal := stream.terminalOf leaf
      if leaf.kind = .dot then trailerName name ++ .leaf terminal :: trailerParts stream [] rest
      else trailerParts stream (name ++ [terminal]) rest

/-- The rule trees of the tokens right below a unit: what stands before END is not recognised,
and the trailer begins there. -/
def trailer (stream : Stream) (leaves : List Leaf) : List RuleTree :=
  let isEnd (leaf : Leaf) : Bool := Text.sameWord leaf.text "END".toList
  let stray := leaves.takeWhile (!isEnd ·)
  let statement := leaves.dropWhile (!isEnd ·)
  (if stray.isEmpty then [] else [stream.ruleOf .unrecognized stray]) ++
    if statement.isEmpty then []
    else
      [.bounded .endProgramStatement
        (((statement.take 2).map fun leaf => .leaf (stream.terminalOf leaf)) ++
          trailerParts stream [] (statement.drop 2))]

/-- The rule tree of a unit, from its first token to its last. -/
def programUnit (stream : Stream) (progress : Progress) (unit : LocatedTree) :
    Except ConversionError (RuleTree × Progress) :=
  match unit.tokens.head?, unit.tokens.getLast? with
  | some first, some last => do
      let (parts, progress) ← unitParts stream progress unit.childNodes
      let head : RuleHead :=
        ⟨.programUnit, some (stream.terminalOf first), some (stream.terminalOf last), none⟩
      return (.node head (parts ++ trailer stream unit.ownTokens), progress)
  | _, _ => .error (.missingStart .programUnit unit.range.start)

end CobolTree.Conversion
