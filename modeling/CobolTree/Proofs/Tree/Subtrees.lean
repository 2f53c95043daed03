import CobolTree.Proofs.Tree.Forest
import CobolTree.Proofs.Tree.Located

/-!
The parts of a located forest are parts of the forest, each at the place where the text before it
ends: one level down (`exists_split_of_mem`), where they lie one behind another
(`pairwise_locateAllAt`), and at any depth (`exists_subtree`). A located tree is known from the
tree without places (`forget_locateAt`).
-/

namespace CobolTree.SourceTree

/-- Every tree of a located forest is a tree of the forest, behind the text of those before it. -/
theorem exists_split_of_mem {forest : List SourceTree} {start : Nat} {located : LocatedTree}
    (mem : located ∈ locateAllAt start forest) :
    ∃ before tree after, forest = before ++ tree :: after ∧
      located = locateAt (start + (textOf before).byteLength) tree := by
  induction forest generalizing start with
  | nil => cases mem
  | cons tree rest ih =>
      rcases List.mem_cons.mp mem with same | behind
      · exact ⟨[], tree, rest, rfl, same⟩
      · obtain ⟨before, other, after, rfl, same⟩ := ih behind
        refine ⟨tree :: before, other, after, rfl, ?_⟩
        rw [same, textOf_cons, Text.byteLength_append, Nat.add_assoc]

theorem range_locateAt (start : Nat) (tree : SourceTree) :
    LocatedTree.range (locateAt start tree) = Range.ofText start (text tree) := by
  cases tree with
  | leaf lexeme => simp [locateAt, LocatedTree.range, Leaf.range, text, Tree.leaves]
  | node kind children => rfl

/-- The trees of a located forest lie one behind another. -/
theorem pairwise_locateAllAt (start : Nat) (forest : List SourceTree) :
    (locateAllAt start forest).Pairwise fun first second =>
      (LocatedTree.range first).stop ≤ (LocatedTree.range second).start := by
  induction forest generalizing start with
  | nil => exact .nil
  | cons tree rest ih =>
      refine .cons (fun later mem => ?_) (ih _)
      obtain ⟨before, other, after, rfl, rfl⟩ := exists_split_of_mem mem
      rw [range_locateAt, start_locateAt]
      exact Nat.le_add_right _ _

/-- Every node in a located forest is a node in the forest, behind the text of all leaves before
it. -/
theorem exists_subtree {forest : List SourceTree} {start : Nat} {node : LocatedTree}
    (mem : node ∈ Tree.nodesOf (locateAllAt start forest)) :
    ∃ before kind children after,
      Tree.leavesOf forest = before ++ (Tree.leavesOf children ++ after) ∧
        node = locateAt (start + (Lexeme.textOf before).byteLength) (.node kind children) := by
  induction forest using Tree.forest_induction generalizing start with
  | nil => cases mem
  | leaf lexeme rest ih =>
      rw [locateAllAt, locateAt, Tree.nodesOf, Tree.nodes, List.nil_append] at mem
      obtain ⟨before, kind, children, after, split, same⟩ := ih mem
      refine ⟨lexeme :: before, kind, children, after, ?_, ?_⟩
      · rw [Tree.leavesOf_cons, split]
        rfl
      · have size : (text (.leaf lexeme)).byteLength = lexeme.text.byteLength := by
          simp [text, Tree.leaves]
        rw [same, Lexeme.textOf_cons, Text.byteLength_append, size, Nat.add_assoc]
  | node label inner rest below behind =>
      rw [locateAllAt, locateAt, Tree.nodesOf, Tree.nodes, List.cons_append] at mem
      rw [Tree.leavesOf_cons, Tree.leaves]
      rcases List.mem_cons.mp mem with rfl | mem
      · exact ⟨[], label, inner, Tree.leavesOf rest, rfl, rfl⟩
      · rcases List.mem_append.mp mem with inside | later
        · obtain ⟨before, kind, children, after, split, same⟩ := below inside
          refine ⟨before, kind, children, after ++ Tree.leavesOf rest, ?_, same⟩
          rw [split]
          simp only [List.append_assoc]
        · obtain ⟨before, kind, children, after, split, same⟩ := behind later
          refine ⟨Tree.leavesOf inner ++ before, kind, children, after, ?_, ?_⟩
          · rw [split, List.append_assoc]
          · rw [same, Lexeme.textOf_append, Text.byteLength_append, ← Nat.add_assoc]
            rfl

theorem mapAll_locateAllAt (start : Nat) (forest : List SourceTree) :
    Tree.mapAll (·.kind) (·.toLexeme) (locateAllAt start forest) = forest := by
  induction forest using Tree.forest_induction generalizing start with
  | nil => rfl
  | leaf lexeme rest ih => rw [locateAllAt, locateAt, Tree.mapAll, Tree.map, ih]
  | node label inner rest below behind =>
      rw [locateAllAt, locateAt, Tree.mapAll, Tree.map, below, behind]

/-- A located tree without its places is the tree. -/
theorem forget_locateAt (start : Nat) (tree : SourceTree) :
    LocatedTree.forget (locateAt start tree) = tree :=
  (List.cons.inj (mapAll_locateAllAt start [tree])).1

end CobolTree.SourceTree
