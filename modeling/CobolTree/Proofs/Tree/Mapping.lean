import CobolTree.Proofs.Tree.Forest
import CobolTree.RuleTree.Basic

/-!
Trees under a map. A map keeps the shape of a tree, so what is read off the shape is the same in the
mapped tree: its leaves in order, its children, and which of them are nodes. `RuleTree.mapTerminals`
changes the terminals of a rule tree, those at its leaves and those that its rules begin and end
with; it leaves the rules and the reasons of failed divisions alone.
-/

namespace CobolTree

namespace Tree

variable {ν ν' α α' : Type} (f : ν → ν') (g : α → α')

theorem leavesOf_mapAll (forest : List (Tree ν α)) :
    leavesOf (mapAll f g forest) = (leavesOf forest).map g := by
  induction forest using forest_induction with
  | nil => rfl
  | leaf value rest ih => rw [mapAll, map, leavesOf, leavesOf, ih, List.map_append]; rfl
  | node label children rest below behind =>
      rw [mapAll, map, leavesOf, leavesOf, leaves, leaves, below, behind, List.map_append]

theorem leavesOf_map (forest : List (Tree ν α)) :
    leavesOf (forest.map (map f g)) = (leavesOf forest).map g := by
  rw [← mapAll_eq_map, leavesOf_mapAll]

@[simp] theorem leaves_map (tree : Tree ν α) : (tree.map f g).leaves = tree.leaves.map g := by
  have single := leavesOf_mapAll f g [tree]
  simpa [mapAll, leavesOf] using single

@[simp] theorem children_map (tree : Tree ν α) :
    (tree.map f g).children = tree.children.map (map f g) := by
  cases tree with
  | leaf value => rfl
  | node label children => exact mapAll_eq_map f g children

@[simp] theorem isNode_map (tree : Tree ν α) : (tree.map f g).isNode = tree.isNode := by
  cases tree with
  | leaf value => rfl
  | node label children => rfl

@[simp] theorem childNodes_map (tree : Tree ν α) :
    (tree.map f g).childNodes = tree.childNodes.map (map f g) := by
  simp only [childNodes, children_map, List.filter_map, Function.comp_def, isNode_map]

theorem value?_map (tree : Tree ν α) : (tree.map f g).value? = tree.value?.map g := by
  cases tree with
  | leaf value => rfl
  | node label children => rfl

@[simp] theorem ownLeaves_map (tree : Tree ν α) :
    (tree.map f g).ownLeaves = tree.ownLeaves.map g := by
  simp only [ownLeaves, children_map, List.filterMap_map, List.map_filterMap, Function.comp_def,
    value?_map]

end Tree

/-- The head with its terminals changed. -/
def RuleHead.mapTerminals (f : Terminal → Terminal) (head : RuleHead) : RuleHead :=
  { head with start := head.start.map f, stop := head.stop.map f }

namespace RuleTree

variable (f : Terminal → Terminal)

/-- The tree with its terminals changed. -/
def mapTerminals (tree : RuleTree) : RuleTree := tree.map (RuleHead.mapTerminals f) f

theorem mapTerminals_leaf (terminal : Terminal) :
    mapTerminals f (.leaf terminal) = .leaf (f terminal) := rfl

theorem mapTerminals_node (head : RuleHead) (children : List RuleTree) :
    mapTerminals f (.node head children) =
      .node (head.mapTerminals f) (children.map (mapTerminals f)) := by
  rw [mapTerminals, Tree.map, Tree.mapAll_eq_map]
  rfl

/-- A rule has its bounds changed with its parts. -/
theorem mapTerminals_bounded (kind : RuleKind) (children : List RuleTree) :
    mapTerminals f (bounded kind children) = bounded kind (children.map (mapTerminals f)) := by
  have leaves : Tree.leavesOf (children.map (mapTerminals f)) = (Tree.leavesOf children).map f :=
    Tree.leavesOf_map (RuleHead.mapTerminals f) f children
  simp only [bounded, LeafWalk.toList, LeafWalk.drain_eq_leavesLeft, LeafWalk.leavesLeft,
    List.flatMap_cons, List.flatMap_nil, List.append_nil, leaves, mapTerminals_node,
    RuleHead.mapTerminals, List.head?_map, List.getLast?_map]

theorem mapTerminals_ofTerminals (kind : RuleKind) (terminals : List Terminal) :
    mapTerminals f (ofTerminals kind terminals) = ofTerminals kind (terminals.map f) := by
  simp only [ofTerminals, mapTerminals_bounded, List.map_map, Function.comp_def,
    mapTerminals_leaf]

end RuleTree

end CobolTree
