import CobolTree.Token.Lexer
import CobolTree.Tree.Basic

/-!
Source trees and where their parts lie. A `SourceTree` holds the lexemes of a text in
order; a `LocatedTree` is the same tree with the bytes that every part takes, counted
from the beginning of the text.
-/

namespace CobolTree

/-- A tree whose leaves are pieces of a source text. -/
abbrev SourceTree := Tree Kind Lexeme

/-- What a node is and the bytes it takes. -/
structure Extent where
  kind : Kind
  range : Range
deriving DecidableEq, Repr

/-- A lexeme and the offset where it begins. -/
structure Leaf extends Lexeme where
  start : Nat
deriving DecidableEq, Repr

namespace Leaf

/-- The bytes a leaf takes. -/
def range (leaf : Leaf) : Range := Range.ofText leaf.start leaf.text

end Leaf

/-- A source tree with the place of every part. -/
abbrev LocatedTree := Tree Extent Leaf

namespace SourceTree

/-- The text of a forest, leaf by leaf. -/
def textOf (forest : List SourceTree) : Text := (Tree.leavesOf forest).flatMap (·.text)

/-- The text of a tree, leaf by leaf. -/
def text (tree : SourceTree) : Text := tree.leaves.flatMap (·.text)

mutual

/-- The tree with the place of every part, when its text begins at an offset. -/
def locateAt (start : Nat) : SourceTree → LocatedTree
  | .leaf lexeme => .leaf ⟨lexeme, start⟩
  | .node kind children =>
      .node ⟨kind, Range.ofText start (textOf children)⟩ (locateAllAt start children)

/-- The forest with the place of every part, when its text begins at an offset. -/
def locateAllAt (start : Nat) : List SourceTree → List LocatedTree
  | [] => []
  | tree :: rest => locateAt start tree :: locateAllAt (start + (text tree).byteLength) rest

end

/-- The tree with the place of every part. -/
def locate (tree : SourceTree) : LocatedTree := locateAt 0 tree

mutual

/-- Places add nothing to the lexemes of a tree and take nothing away. -/
theorem leaves_locateAt (start : Nat) (tree : SourceTree) :
    (locateAt start tree).leaves.map (·.toLexeme) = tree.leaves := by
  cases tree with
  | leaf lexeme => rfl
  | node kind children =>
      rw [locateAt, Tree.leaves, Tree.leaves]
      exact leavesOf_locateAllAt start children

theorem leavesOf_locateAllAt (start : Nat) (forest : List SourceTree) :
    (Tree.leavesOf (locateAllAt start forest)).map (·.toLexeme) = Tree.leavesOf forest := by
  cases forest with
  | nil => rfl
  | cons tree rest =>
      rw [locateAllAt, Tree.leavesOf, Tree.leavesOf, List.map_append]
      rw [leaves_locateAt, leavesOf_locateAllAt]

end

end SourceTree

namespace LocatedTree

/-- What a part is. -/
def kind : LocatedTree → Kind
  | .leaf leaf => leaf.kind
  | .node extent _ => extent.kind

/-- The bytes a part takes. -/
def range : LocatedTree → Range
  | .leaf leaf => leaf.range
  | .node extent _ => extent.range

/-- The text of a part. -/
def text (tree : LocatedTree) : Text := tree.leaves.flatMap (·.text)

/-- The tree without places. -/
def forget (tree : LocatedTree) : SourceTree := tree.map (·.kind) (·.toLexeme)

/-- The nodes of one kind right below. -/
def childrenOf (kind : Kind) (tree : LocatedTree) : List LocatedTree :=
  tree.childNodes.filter (LocatedTree.kind · == kind)

/-- The leaves right below that are neither blank nor comment. -/
def ownTokens (tree : LocatedTree) : List Leaf := tree.ownLeaves.filter (!·.isTrivia)

/-- The leaves at any depth that are neither blank nor comment. -/
def tokens (tree : LocatedTree) : List Leaf := tree.leaves.filter (!·.isTrivia)

end LocatedTree

end CobolTree
