import CobolTree.Provenance.Document
import CobolTree.RuleTree.Basic
import CobolTree.Source.Layout

/-!
The character stream of one source text. Terminals are placed by it: their positions
are those of the text, and their origins those of the document it was expanded from, if
it was.
-/

namespace CobolTree

/-- A source text with its lines and, where it was expanded, its provenance. -/
structure Stream where
  source : LinedText
  document : Option Document

namespace Stream

def ofText (text : Text) : Stream := ⟨LinedText.ofText text, none⟩

/-- The stream of an expanded text. -/
def ofDocument (document : Document) : Stream := ⟨document.source, some document⟩

def text (stream : Stream) : Text := stream.source.text

def position (stream : Stream) (offset : Nat) : Position := stream.source.position offset

/-- Where a range was written, if that is known. -/
def origin? (stream : Stream) (range : Range) : Option Location :=
  stream.document.map (·.locationOf range)

/-- The terminal with a given text at a given range. -/
def terminal (stream : Stream) (type : TerminalType) (text : Text) (range : Range) : Terminal :=
  ⟨type, text, stream.position range.start, range, stream.origin? range⟩

/-- The terminal behind the last character. -/
def endOfInput (stream : Stream) : Terminal :=
  stream.terminal .endOfInput "<EOF>".toList (Range.empty stream.text.byteLength)

/-- Everything before an offset as blanks of the same lines and columns; nothing if the offset
lies inside a character. -/
def paddingBefore (stream : Stream) (offset : Nat) : Text :=
  ((stream.text.takeBytes? (min offset stream.text.byteLength)).getD []).padding

end Stream

end CobolTree
