import CobolTree.Proofs.Token.Reading
import CobolTree.Tree.Located

/-!
Where the leaves of a located tree begin. Leaves lie in a row: each begins where the text before
it ends (`Leaf.row`), so a located forest is known from its lexemes and its first offset alone
(`leavesOf_locateAllAt_eq_row`). Tokens that lie one after another between two cursors are such
a row (`Cursor.Reads.row_eq`).
-/

namespace CobolTree

/-- The token as a leaf, at the offset where the token begins. -/
def Token.leaf (token : Token) : Leaf := ⟨token.toLexeme, token.position.index⟩

namespace Leaf

/-- Lexemes one behind another, the first at an offset. -/
def row (start : Nat) : List Lexeme → List Leaf
  | [] => []
  | lexeme :: rest => ⟨lexeme, start⟩ :: row (start + lexeme.text.byteLength) rest

theorem row_append (start : Nat) (s t : List Lexeme) :
    row start (s ++ t) = row start s ++ row (start + (Lexeme.textOf s).byteLength) t := by
  induction s generalizing start with
  | nil => rfl
  | cons lexeme rest ih => simp [row, ih, Nat.add_assoc]

/-- A leaf of a row is one of its lexemes, behind the text of those before it. -/
theorem exists_split_of_mem_row {start : Nat} {lexemes : List Lexeme} {leaf : Leaf}
    (mem : leaf ∈ row start lexemes) :
    ∃ before after, lexemes = before ++ leaf.toLexeme :: after ∧
      leaf.start = start + (Lexeme.textOf before).byteLength := by
  induction lexemes generalizing start with
  | nil => cases mem
  | cons lexeme rest ih =>
      rcases List.mem_cons.mp mem with rfl | behind
      · exact ⟨[], rest, rfl, rfl⟩
      · obtain ⟨before, after, rfl, place⟩ := ih behind
        refine ⟨lexeme :: before, after, rfl, ?_⟩
        rw [place, Lexeme.textOf_cons, Text.byteLength_append, Nat.add_assoc]

theorem toLexeme_mem_of_mem_row {start : Nat} {lexemes : List Lexeme} {leaf : Leaf}
    (mem : leaf ∈ row start lexemes) : leaf.toLexeme ∈ lexemes := by
  obtain ⟨before, after, rfl, -⟩ := exists_split_of_mem_row mem
  exact List.mem_append_right _ List.mem_cons_self

/-- A leaf of a row lies in the bytes of the row. -/
theorem range_le_of_mem_row {start : Nat} {lexemes : List Lexeme} {leaf : Leaf}
    (mem : leaf ∈ row start lexemes) :
    start ≤ leaf.start ∧ leaf.range.stop ≤ start + (Lexeme.textOf lexemes).byteLength := by
  obtain ⟨before, after, rfl, place⟩ := exists_split_of_mem_row mem
  rw [Lexeme.textOf_append, Lexeme.textOf_cons, Text.byteLength_append, Text.byteLength_append]
  simp only [range, Range.ofText]
  omega

end Leaf

namespace SourceTree

/-- Lexemes as a forest, each a leaf of its own. -/
def row (lexemes : List Lexeme) : List SourceTree := lexemes.map .leaf

@[simp] theorem row_nil : row [] = [] := rfl

@[simp] theorem row_cons (lexeme : Lexeme) (rest : List Lexeme) :
    row (lexeme :: rest) = .leaf lexeme :: row rest := rfl

@[simp] theorem row_append (s t : List Lexeme) : row (s ++ t) = row s ++ row t := by
  simp [row]

@[simp] theorem leavesOf_row (lexemes : List Lexeme) : Tree.leavesOf (row lexemes) = lexemes :=
  Tree.leavesOf_map_leaf lexemes

theorem text_eq_textOf (tree : SourceTree) : text tree = Lexeme.textOf tree.leaves := rfl

mutual

theorem leaves_locateAt_eq_row (start : Nat) (tree : SourceTree) :
    (locateAt start tree).leaves = Leaf.row start tree.leaves := by
  cases tree with
  | leaf lexeme => rfl
  | node kind children =>
      rw [locateAt, Tree.leaves, Tree.leaves]
      exact leavesOf_locateAllAt_eq_row start children

/-- The leaves of a located forest lie in a row from its first offset. -/
theorem leavesOf_locateAllAt_eq_row (start : Nat) (forest : List SourceTree) :
    Tree.leavesOf (locateAllAt start forest) = Leaf.row start (Tree.leavesOf forest) := by
  cases forest with
  | nil => rfl
  | cons tree rest =>
      rw [locateAllAt, Tree.leavesOf, Tree.leavesOf, Leaf.row_append]
      rw [leaves_locateAt_eq_row, leavesOf_locateAllAt_eq_row, text_eq_textOf]

end

theorem textOf_eq (forest : List SourceTree) :
    textOf forest = Lexeme.textOf (Tree.leavesOf forest) := rfl

theorem textOf_cons (tree : SourceTree) (rest : List SourceTree) :
    textOf (tree :: rest) = text tree ++ textOf rest := by
  simp [textOf_eq, text_eq_textOf, Tree.leavesOf]

theorem textOf_append (s t : List SourceTree) : textOf (s ++ t) = textOf s ++ textOf t := by
  simp [textOf_eq]

theorem locateAllAt_append (start : Nat) (s t : List SourceTree) :
    locateAllAt start (s ++ t) =
      locateAllAt start s ++ locateAllAt (start + (textOf s).byteLength) t := by
  induction s generalizing start with
  | nil => rfl
  | cons tree rest ih =>
      simp only [List.cons_append, locateAllAt, ih, textOf_cons, Text.byteLength_append,
        Nat.add_assoc]

/-- A located row is a row of leaves. -/
theorem locateAllAt_row (start : Nat) (lexemes : List Lexeme) :
    locateAllAt start (row lexemes) = (Leaf.row start lexemes).map .leaf := by
  induction lexemes generalizing start with
  | nil => rfl
  | cons lexeme rest ih =>
      rw [row_cons, locateAllAt, locateAt, ih, Leaf.row, List.map_cons]
      simp [text, Tree.leaves]

/-! ### One tree -/

theorem tokens_locateAt (start : Nat) (tree : SourceTree) :
    (locateAt start tree).tokens = (Leaf.row start tree.leaves).filter (!·.isTrivia) := by
  rw [LocatedTree.tokens, leaves_locateAt_eq_row]

theorem text_locateAt (start : Nat) (tree : SourceTree) :
    LocatedTree.text (locateAt start tree) = text tree := by
  have same := leaves_locateAt start tree
  rw [text_eq_textOf, ← same, LocatedTree.text, Lexeme.textOf, List.flatMap_map]

theorem start_locateAt (start : Nat) (tree : SourceTree) :
    (LocatedTree.range (locateAt start tree)).start = start := by
  cases tree with
  | leaf => rfl
  | node => rfl

theorem isNode_locateAt (start : Nat) (tree : SourceTree) :
    (locateAt start tree).isNode = tree.isNode := by
  cases tree with
  | leaf => rfl
  | node => rfl

/-- The leaves of a located forest that carry meaning are those of the forest. -/
theorem significant_locateAllAt (start : Nat) (forest : List SourceTree) :
    ((Tree.leavesOf (locateAllAt start forest)).filter (!·.isTrivia)).map (·.toLexeme) =
      Lexeme.significant (Tree.leavesOf forest) := by
  rw [← leavesOf_locateAllAt start forest, Lexeme.significant, List.filter_map]
  rfl

theorem significant_row (start : Nat) (lexemes : List Lexeme) :
    ((Leaf.row start lexemes).filter (!·.isTrivia)).map (·.toLexeme) =
      Lexeme.significant lexemes := by
  have same := significant_locateAllAt start (row lexemes)
  rwa [leavesOf_locateAllAt_eq_row, leavesOf_row] at same

end SourceTree

/-- Tokens read between two cursors begin where a row of their lexemes puts them. -/
theorem Cursor.Reads.row_eq {cursor last : Cursor} {tokens : List Token}
    (reads : cursor.Reads tokens last) :
    Leaf.row cursor.position.index (Token.lexemes tokens) = tokens.map Token.leaf := by
  induction reads with
  | nil => rfl
  | cons h _ ih =>
      obtain ⟨place, behind⟩ := Cursor.place_of_next? h
      rw [behind, Position.index_advance] at ih
      simp [Leaf.row, Token.leaf, place, ih]

end CobolTree
