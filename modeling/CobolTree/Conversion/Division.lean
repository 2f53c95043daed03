import CobolTree.Conversion.Procedure
import CobolTree.Diagnostic.Basic
import CobolTree.Grammar.Reparse

/-!
The rule tree of a division. All divisions but the last are read again, by grammars of
their own; a division that its grammar refuses becomes the row of its tokens, with the
reason, and is reported.
-/

namespace CobolTree

/-- A result, or why there is none, together with the problems found in the source text. -/
abbrev Converted (α : Type) := Except ConversionError (α × List Diagnostic)

namespace Conversion

/-- The report of a division that does not match its grammar. -/
def grammarReport (stream : Stream) (division : Division) (failure : ReparseFailure) :
    Diagnostic :=
  { message := division.title ++ " does not match its grammar"
    range := Range.empty failure.offset
    position := stream.position failure.offset
    code := .divisionGrammar
    severity := .error
    division := some division
    hint := some failure.message
    related := [] }

/-- The row of a division's tokens, with the reason why its grammar refuses them. -/
def refused (stream : Stream) (grammar : GrammarName) (leaves : List Leaf) (reason : String) :
    RuleTree :=
  let terminals := leaves.map stream.terminalOf
  .node ⟨.grammar grammar grammar.divisionRule, terminals.head?, terminals.getLast?, some reason⟩
    (terminals.map .leaf)

/-- Reads a division by its grammar, from its first token on, behind padding for everything
before that token. -/
def byGrammar (stream : Stream) (grammar : GrammarName) (division : Division)
    (node : LocatedTree) (first : Leaf) : RuleTree × List Diagnostic :=
  let padding := stream.paddingBefore first.start
  let text := ((node.text).dropBytes? (first.start - node.range.start)).getD []
  let projection : Projection := ⟨padding.byteLength, first.start⟩
  match Reparse.run stream grammar projection (padding ++ text) with
  | .ok tree => (tree, [])
  | .error failure =>
      (refused stream grammar node.tokens failure.message, [grammarReport stream division failure])

/-- The rule tree of a division. -/
def division (stream : Stream) (division : Division) (node : LocatedTree) :
    Converted RuleTree :=
  match node.tokens with
  | [] => .error (.missingStart (.division division) node.range.start)
  | first :: _ =>
      match GrammarName.ofDivision? division with
      | some grammar => .ok (byGrammar stream grammar division node first)
      | none => (procedure stream node).map fun tree => (tree, [])

end Conversion

end CobolTree
