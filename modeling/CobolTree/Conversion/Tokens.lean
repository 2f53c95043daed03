import CobolTree.Conversion.Procedure

/-!
The terminals of a source tree in a row, without going through rules.
-/

namespace CobolTree.Conversion

/-- A terminal for every leaf but the blanks, then the end of the input. -/
def flatTerminals (stream : Stream) (tree : LocatedTree) : List Terminal :=
  (tree.leaves.filter (!·.isWhitespace)).map stream.terminalOf ++ [stream.endOfInput]

end CobolTree.Conversion
