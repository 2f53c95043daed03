import CobolTree.Provenance.Mapping
import CobolTree.Source.LineTable

/-!
An expanded text together with its mapping. `resolve` tells where one offset was
written and `locationOf` where a range was; `mappedCharacters` goes through the text
once and tells for each character where it was written and through which entry.
-/

namespace CobolTree

/-- An expanded text and where its parts were written. -/
structure Document where
  source : LinedText
  mapping : DocumentMapping

/-- Where a character was written. -/
structure Provenance where
  written : Position
  uri : String
  /-- The range it was put in with, if it was written elsewhere. -/
  parent : Option Range
  /-- The stretch that the character takes where it was written. -/
  instant : Location
  /-- The same stretch under the name of its region. -/
  regions : List (String × Location)
deriving DecidableEq, Repr

/-- A character that knows where it was written. Two of them are the same only if their
identities are; equal provenance is not enough. -/
structure MappedCharacter where
  id : Nat
  character : Char
  provenance : Provenance
deriving DecidableEq, Repr

/-- Another character with the same provenance. -/
def MappedCharacter.shadowCopy (fresh : Nat) (character : MappedCharacter) : MappedCharacter :=
  { character with id := fresh }

namespace Document

def ofText (text : Text) (mapping : DocumentMapping) : Document :=
  ⟨LinedText.ofText text, mapping⟩

def text (document : Document) : Text := document.source.text

/-- The text between two offsets, cut off at the end; nothing if an offset is no character
boundary. -/
def between (document : Document) (start stop : Nat) : Text :=
  (document.text.slice? start (min stop document.text.byteLength)).getD []

/-- The document and the place where an offset was written. -/
def resolve (document : Document) (offset : Nat) : String × Position :=
  match document.mapping.entryAt? offset with
  | some entry =>
      (entry.uri, entry.written.advance (document.between entry.expanded.start offset))
  | none => (document.mapping.uri, document.source.position offset)

/-- Where a range was written, taken to lie where its first character does. -/
def locationOf (document : Document) (range : Range) : Location :=
  let (uri, start) := document.resolve range.start
  let stop :=
    if range.isEmpty then start else start.advance (document.between range.start range.stop)
  ⟨uri, ⟨start, stop⟩⟩

/-- The provenance of a character written in a named document at a position. -/
def provenanceAt (uri : String) (parent : Option Range) (name : Option String)
    (position : Position) (character : Char) : Provenance :=
  let location : Location := ⟨uri, ⟨position, position.step character⟩⟩
  { written := position
    uri := uri
    parent := parent
    instant := location
    regions := (name.map fun name => (name, location)).toList }

/-- The provenance of the characters from an offset on. `running` is the range of the entry
that the character before belongs to, with the place behind that character. -/
def charactersFrom (document : Document) (offset id : Nat)
    (running : Option (Range × Position)) : Text → List MappedCharacter
  | [] => []
  | c :: rest =>
      let next := offset + c.utf8Size
      match document.mapping.entryAt? offset with
      | some entry =>
          let position :=
            match running with
            | some (range, place) => if range = entry.expanded then place else entry.written
            | none => entry.written
          ⟨id, c, provenanceAt entry.uri (some entry.expanded) entry.name position c⟩ ::
            document.charactersFrom next (id + 1) (some (entry.expanded, position.step c)) rest
      | none =>
          let position := document.source.position offset
          ⟨id, c, provenanceAt document.mapping.uri none none position c⟩ ::
            document.charactersFrom next (id + 1) none rest

/-- Every character of the text with its provenance. -/
def mappedCharacters (document : Document) : List MappedCharacter :=
  document.charactersFrom 0 0 none document.text

end Document

end CobolTree
