import CobolTree.Division
import CobolTree.Grammar.Attempts
import CobolTree.Grammar.Data
import CobolTree.Grammar.Environment
import CobolTree.Grammar.Identification
import CobolTree.Stream

/-!
Reading a division by its own grammar. The text of the division is put behind padding
that takes the lines and columns of what stands before it; a `Projection` turns offsets
of that input back into offsets of the stream, so every terminal is placed where it
stands in the source text.
-/

namespace CobolTree

namespace GrammarName

/-- The grammar of a whole division. -/
def unit : GrammarName → Expr
  | identification => Grammar.identificationUnit
  | environment => Grammar.environmentUnit
  | data => Grammar.dataUnit

/-- The grammar that a division is read by. -/
def ofDivision? : Division → Option GrammarName
  | .identification => some identification
  | .environment => some environment
  | .data => some data
  | .procedure => none

end GrammarName

/-- From the offsets of a padded division to those of the stream. -/
structure Projection where
  /-- Bytes of padding in front of the division. -/
  padding : Nat
  /-- Where the division begins in the stream. -/
  base : Nat
deriving DecidableEq, Repr

namespace Projection

/-- The stream offset of an input offset; all of the padding is at the beginning. -/
def offset (projection : Projection) (inputOffset : Nat) : Nat :=
  projection.base + (inputOffset - projection.padding)

/-- The bytes of the stream that a text at an input offset takes. -/
def range (projection : Projection) (start : Nat) (text : Text) : Range :=
  ⟨projection.offset start, projection.offset (start + text.byteLength)⟩

end Projection

/-- Why a division could not be read by its grammar, and where in the stream. -/
structure ReparseFailure where
  message : String
  offset : Nat
deriving DecidableEq, Repr

namespace Reparse

/-- The terminal of a text that a grammar rule has read. -/
def terminal (stream : Stream) (projection : Projection) (piece : Piece) : Terminal :=
  stream.terminal (.grammarRule piece.rule.name) piece.text
    (projection.range piece.start piece.text)

mutual

/-- The rule tree of a grammar tree. -/
def ruleTree (stream : Stream) (grammar : GrammarName) (projection : Projection) :
    GrammarTree → RuleTree
  | .leaf piece => .leaf (terminal stream projection piece)
  | .node rule parts =>
      .bounded (.grammar grammar rule.name) (ruleTrees stream grammar projection parts)

/-- The rule trees of a row of grammar trees. -/
def ruleTrees (stream : Stream) (grammar : GrammarName) (projection : Projection) :
    List GrammarTree → List RuleTree
  | [] => []
  | tree :: rest =>
      ruleTree stream grammar projection tree :: ruleTrees stream grammar projection rest

end

/-- The grammar tree of the division in a padded input: the first part of the whole unit. -/
def division? (grammar : GrammarName) (input : Text) : Option GrammarTree :=
  match grammar.unit.read? false ⟨0, input⟩ with
  | some reading => (reading.trees.head?.map Tree.children).bind (·.head?)
  | none => none

/-- The division in a padded input as a rule tree, or why it cannot be read. -/
def run (stream : Stream) (grammar : GrammarName) (projection : Projection) (input : Text) :
    Except ReparseFailure RuleTree :=
  match division? grammar input with
  | some tree =>
      match ruleTree stream grammar projection tree with
      | .leaf terminal =>
          .ok (.ofTerminals (.grammar grammar grammar.divisionRule) [terminal])
      | context => .ok context
  | none =>
      let attempts := grammar.unit.trace false false ⟨0, input⟩ .none
      .error ⟨attempts.message, projection.offset attempts.offset⟩

end Reparse

end CobolTree
