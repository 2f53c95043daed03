import CobolTree.Tree.Sharing

/-!
Sentences, paragraphs and sections as seen in the tree of a division. Paragraphs are
siblings of the section they belong to: a section owns the paragraphs behind it up to
the next section, and those before the first section stand alone. The owners of
`ownership` are the sections of the division, in the order of the text
(`map_fst_ownership`).
-/

namespace CobolTree.Procedure

/-- The sentences right below a node. -/
def sentences (node : LocatedTree) : List LocatedTree := node.childrenOf .sentence

/-- The sections of a division. -/
def sections (division : LocatedTree) : List LocatedTree := division.childrenOf .procedureSection

/-- The paragraphs of a division, in the order of the text. -/
def paragraphs (division : LocatedTree) : List LocatedTree :=
  division.childrenOf .procedureParagraph

def isSection (node : LocatedTree) : Bool := node.kind == .procedureSection

def isParagraph (node : LocatedTree) : Bool := node.kind == .procedureParagraph

/-- The paragraphs before the first section. -/
def standaloneParagraphs (division : LocatedTree) : List LocatedTree :=
  (division.childNodes.takeWhile (!isSection ·)).filter (isParagraph ·)

/-- The sections of a division, each with the paragraphs that it owns: those behind it, up to
the next section. -/
def ownership (division : LocatedTree) : List (LocatedTree × List LocatedTree) :=
  ((LocatedTree.occurrences division.childNodes).filter (isSection ·.1)).map
    fun (owner, behind) => (owner, (behind.takeWhile (!isSection ·)).filter (isParagraph ·))

/-- The owners are the sections of the division. -/
theorem map_fst_ownership (division : LocatedTree) :
    (ownership division).map (·.1) = sections division := by
  have kept : ((LocatedTree.occurrences division.childNodes).map (·.1)).filter isSection =
      ((LocatedTree.occurrences division.childNodes).filter (isSection ·.1)).map (·.1) :=
    List.filter_map
  rw [ownership, List.map_map]
  rw [LocatedTree.map_fst_occurrences] at kept
  exact kept.symm

/-- The name of a section or paragraph: its first token, if that is a word. -/
def nameToken? (node : LocatedTree) : Option Leaf := node.ownTokens.head?.filter (·.kind == .word)

def name? (node : LocatedTree) : Option Text := (nameToken? node).map (·.text)

/-- A sentence ends in a period. -/
def isTerminated (sentence : LocatedTree) : Bool :=
  (sentence.ownTokens.getLast?.map (·.kind == .dot)).getD false

end CobolTree.Procedure
