import CobolTree.Conversion.SourceUnit
import CobolTree.Parsed

/-!
The whole way of a source text: it is parsed, and its tree is converted. Problems found
by the parser come before those found by the division grammars.
-/

namespace CobolTree

/-- A parsed and converted source text. -/
structure Analysis where
  parsed : Parsed
  adapted : Adapted

namespace Analysis

/-- Parses and converts the text of a stream. -/
def ofStream (settings : Settings) (stream : Stream) : Except ConversionError Analysis := do
  let parsed := Parsed.ofText settings stream.text
  let adapted ← Adapted.ofTree stream parsed.tree.locate
  return ⟨parsed, adapted⟩

/-- Parses and converts a text. -/
def ofText (settings : Settings) (text : Text) : Except ConversionError Analysis :=
  ofStream settings (.ofText text)

/-- Parses and converts an expanded text; its terminals know where they were written. -/
def ofDocument (settings : Settings) (document : Document) : Except ConversionError Analysis :=
  ofStream settings (.ofDocument document)

/-- The problems found by the parser, then those found by the division grammars. -/
def diagnostics (analysis : Analysis) : List Diagnostic :=
  analysis.parsed.diagnostics ++ analysis.adapted.diagnostics

/-- Neither step found a grave problem. -/
def isOk (analysis : Analysis) : Bool := analysis.parsed.isOk && analysis.adapted.isOk

end Analysis

end CobolTree
