import CobolTree.Conversion.Error
import CobolTree.Stream
import CobolTree.Tree.Located

/-!
The rule tree of a PROCEDURE DIVISION, taken from its source tree part by part. What
follows a section header up to the next one belongs to that section; the statements of a
sentence stay terminals in a row.
-/

namespace CobolTree

namespace Stream

/-- The terminal of a leaf of a source tree. -/
def terminalOf (stream : Stream) (leaf : Leaf) : Terminal :=
  stream.terminal (.lexeme leaf.kind) leaf.text leaf.range

/-- The node of a rule over the terminals of some leaves. -/
def ruleOf (stream : Stream) (kind : RuleKind) (leaves : List Leaf) : RuleTree :=
  .ofTerminals kind (leaves.map stream.terminalOf)

end Stream

namespace Conversion

/-- A part that no construct claims, as the row of its tokens. -/
def unrecognized (stream : Stream) (node : LocatedTree) : RuleTree :=
  stream.ruleOf .unrecognized node.tokens

/-- The rule tree of a sentence. -/
def sentence (stream : Stream) (node : LocatedTree) : RuleTree :=
  if node.kind = .sentence then stream.ruleOf .sentence node.ownTokens
  else unrecognized stream node

/-- The parts of a section: its header and the sentences right behind it. -/
def sectionParts (stream : Stream) (node : LocatedTree) :
    Except ConversionError (List RuleTree) :=
  match node.ownTokens with
  | [] => .error (.missingStart .sectionHeader node.range.start)
  | header =>
      .ok (stream.ruleOf .procedureSectionHeader header :: node.childNodes.map (sentence stream))

/-- The rule tree of a paragraph: its name, what is left of its header, and its sentences. -/
def paragraph (stream : Stream) (node : LocatedTree) : Except ConversionError RuleTree :=
  match node.ownTokens with
  | [] => .error (.missingStart .paragraphHeader node.range.start)
  | name :: header =>
      .ok (.bounded .paragraph
        (stream.ruleOf .paragraphName [name] ::
          (header.map fun leaf => .leaf (stream.terminalOf leaf)) ++
          node.childNodes.map (sentence stream)))

/-- The rule tree of a paragraph, or of what stands outside of paragraphs. -/
def procedurePart (stream : Stream) (node : LocatedTree) : Except ConversionError RuleTree :=
  if LocatedTree.kind node = .procedureParagraph then paragraph stream node
  else .ok (sentence stream node)

/-- The rule tree of the section that is open, if there is one. -/
def closed (current : Option (List RuleTree)) : List RuleTree :=
  (current.map (RuleTree.bounded .procedureSection)).toList

/-- The rule trees of the parts of a division, given the parts of the section that is open. -/
def procedureParts (stream : Stream) (current : Option (List RuleTree)) :
    List LocatedTree → Except ConversionError (List RuleTree)
  | [] => .ok (closed current)
  | node :: rest => do
      if LocatedTree.kind node = .procedureSection then
        let parts ← sectionParts stream node
        let others ← procedureParts stream (some parts) rest
        return closed current ++ others
      else
        let part ← procedurePart stream node
        match current with
        | some parts => procedureParts stream (some (parts ++ [part])) rest
        | none =>
            let others ← procedureParts stream none rest
            return part :: others

/-- The rule tree of a PROCEDURE DIVISION. -/
def procedure (stream : Stream) (node : LocatedTree) : Except ConversionError RuleTree :=
  match node.ownTokens with
  | [] => .error (.missingStart .procedureHeader node.range.start)
  | header => do
      let parts ← procedureParts stream none node.childNodes
      return .bounded .procedureDivision
        (stream.ruleOf .procedureDivisionHeader header :: parts)

end Conversion

end CobolTree
