import CobolTree.Proofs.Tree.Shape

/-!
Nodes that begin with a header in a row. The tokens right below such a node begin with those of
its header (`ownTokens_headed_ne_nil`), and are no others where nodes and blanks are all that is
behind the header (`ownTokens_headed`); the nodes right below it are those behind the header
(`childNodes_headed`).
-/

namespace CobolTree

/-- The leaves of a forest that are trees of their own and neither blank nor comment. -/
def LocatedTree.ownTokensOf (forest : List LocatedTree) : List Leaf :=
  (forest.filterMap Tree.value?).filter (!·.isTrivia)

namespace SourceTree

open LocatedTree (ownTokensOf)

theorem ownTokensOf_append (s t : List LocatedTree) :
    ownTokensOf (s ++ t) = ownTokensOf s ++ ownTokensOf t := by
  rw [ownTokensOf, List.filterMap_append, List.filter_append]
  rfl

theorem ownTokensOf_row (start : Nat) (lexemes : List Lexeme) :
    ownTokensOf (locateAllAt start (row lexemes)) =
      (Leaf.row start lexemes).filter (!·.isTrivia) := by
  have values : ((Leaf.row start lexemes).map (Tree.leaf : Leaf → LocatedTree)).filterMap
      Tree.value? = Leaf.row start lexemes := by
    simp [List.filterMap_map, Function.comp_def, Tree.value?]
  rw [locateAllAt_row, ownTokensOf, values]

/-- A node and a blank have no token right beside what is behind them. -/
theorem ownTokensOf_cons {tree : SourceTree} (here : IsTrivia tree ∨ tree.isNode = true)
    (rest : List SourceTree) (start : Nat) :
    ownTokensOf (locateAllAt start (tree :: rest)) =
      ownTokensOf (locateAllAt (start + (text tree).byteLength) rest) := by
  rcases here with ⟨lexeme, rfl, trivial⟩ | isNode
  · exact List.filter_cons_of_neg (by simp [trivial])
  · cases tree with
    | leaf => cases isNode
    | node => rfl

/-- Nodes and blanks have no tokens right beside them. -/
theorem ownTokensOf_nodes {body : List SourceTree}
    (nodes : Among (fun tree => tree.isNode = true) body) (start : Nat) :
    ownTokensOf (locateAllAt start body) = [] := by
  induction body generalizing start with
  | nil => rfl
  | cons tree rest ih =>
      obtain ⟨here, behind⟩ := among_cons.mp nodes
      rw [ownTokensOf_cons here]
      exact ih behind _

section Headed

variable (header : List Lexeme) (body : List SourceTree) (extent : Extent) (start : Nat)

theorem ownTokens_append_row :
    LocatedTree.ownTokens (.node extent (locateAllAt start (row header ++ body))) =
      (Leaf.row start header).filter (!·.isTrivia) ++
        ownTokensOf (locateAllAt (start + (textOf (row header)).byteLength) body) := by
  rw [← ownTokensOf_row, ← ownTokensOf_append, ← locateAllAt_append]
  rfl

/-- The tokens right below a node are those of its header, where nodes and blanks are all that is
behind it. -/
theorem ownTokens_headed (nodes : Among (fun tree => tree.isNode = true) body) :
    LocatedTree.ownTokens (.node extent (locateAllAt start (row header ++ body))) =
      (Leaf.row start header).filter (!·.isTrivia) := by
  rw [ownTokens_append_row, ownTokensOf_nodes nodes, List.append_nil]

/-- The tokens of a header stand right below its node. -/
theorem ownTokens_headed_ne_nil (h : Lexeme.significant header ≠ []) :
    LocatedTree.ownTokens (.node extent (locateAllAt start (row header ++ body))) ≠ [] := by
  have same := significant_row start header
  rw [ownTokens_append_row]
  apply List.append_ne_nil_of_left_ne_nil
  intro empty
  rw [empty] at same
  exact h same.symm

/-- The nodes right below a node with a header in a row are those behind the header. -/
theorem childNodes_headed :
    Tree.childNodes (.node extent (locateAllAt start (row header ++ body))) =
      (locateAllAt (start + (Lexeme.textOf header).byteLength) body).filter Tree.isNode := by
  have none : ((Leaf.row start header).map (Tree.leaf : Leaf → LocatedTree)).filter
      Tree.isNode = [] := by
    apply List.filter_eq_nil_iff.mpr
    intro node mem
    obtain ⟨leaf, -, rfl⟩ := List.mem_map.mp mem
    exact Bool.false_ne_true
  rw [Tree.childNodes, Tree.children, locateAllAt_append, locateAllAt_row, List.filter_append, none,
    List.nil_append, textOf_eq, leavesOf_row]

/-- The nodes of a node with a header in a row are the node itself and those behind the header. -/
theorem nodes_headed :
    Tree.nodes (.node extent (locateAllAt start (row header ++ body))) =
      .node extent (locateAllAt start (row header ++ body)) ::
        Tree.nodesOf (locateAllAt (start + (Lexeme.textOf header).byteLength) body) := by
  rw [Tree.nodes, locateAllAt_append, Tree.nodesOf_append, locateAllAt_row, Tree.nodesOf_map_leaf,
    textOf_eq, leavesOf_row]
  rfl

end Headed

end SourceTree

end CobolTree
