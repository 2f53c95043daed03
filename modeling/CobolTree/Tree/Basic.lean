/-!
Ordered trees with labelled nodes and valued leaves. `leaves` is the left-to-right
reading of a tree and `nodes` its labels in preorder; both are given for a tree and for
a forest (`leavesOf`, `nodesOf`), and a forest reads as the concatenation of its trees.
-/

namespace CobolTree

/-- An ordered tree: nodes carry a label, leaves a value. -/
inductive Tree (ν α : Type) where
  | leaf (value : α)
  | node (label : ν) (children : List (Tree ν α))
deriving Repr

namespace Tree

variable {ν ν' α α' : Type}

instance [Inhabited α] : Inhabited (Tree ν α) := ⟨.leaf default⟩

/-! ### Readings -/

mutual

/-- The leaves of a tree from left to right. -/
def leaves : Tree ν α → List α
  | .leaf value => [value]
  | .node _ children => leavesOf children

/-- The leaves of a forest from left to right. -/
def leavesOf : List (Tree ν α) → List α
  | [] => []
  | tree :: rest => leaves tree ++ leavesOf rest

end

mutual

/-- Every subtree that is a node, parents first. -/
def nodes : Tree ν α → List (Tree ν α)
  | .leaf _ => []
  | .node label children => .node label children :: nodesOf children

/-- Every subtree of a forest that is a node, parents first. -/
def nodesOf : List (Tree ν α) → List (Tree ν α)
  | [] => []
  | tree :: rest => nodes tree ++ nodesOf rest

end

/-- The trees right below. -/
def children : Tree ν α → List (Tree ν α)
  | .leaf _ => []
  | .node _ children => children

/-- The label, if the tree is a node. -/
def label? : Tree ν α → Option ν
  | .leaf _ => none
  | .node label _ => some label

/-- The value, if the tree is a leaf. -/
def value? : Tree ν α → Option α
  | .leaf value => some value
  | .node _ _ => none

def isNode (tree : Tree ν α) : Bool := tree.label?.isSome

/-- The trees right below that are nodes. -/
def childNodes (tree : Tree ν α) : List (Tree ν α) := tree.children.filter isNode

/-- The leaves right below. -/
def ownLeaves (tree : Tree ν α) : List α := tree.children.filterMap value?

mutual

/-- The tree of the same shape with other labels and values. -/
def map (f : ν → ν') (g : α → α') : Tree ν α → Tree ν' α'
  | .leaf value => .leaf (g value)
  | .node label children => .node (f label) (mapAll f g children)

/-- The forest of the same shape with other labels and values. -/
def mapAll (f : ν → ν') (g : α → α') : List (Tree ν α) → List (Tree ν' α')
  | [] => []
  | tree :: rest => map f g tree :: mapAll f g rest

end

theorem leavesOf_eq_flatMap (forest : List (Tree ν α)) :
    leavesOf forest = forest.flatMap leaves := by
  induction forest with
  | nil => rfl
  | cons tree rest ih => simp [leavesOf, ih]

theorem nodesOf_eq_flatMap (forest : List (Tree ν α)) :
    nodesOf forest = forest.flatMap nodes := by
  induction forest with
  | nil => rfl
  | cons tree rest ih => simp [nodesOf, ih]

theorem mapAll_eq_map (f : ν → ν') (g : α → α') (forest : List (Tree ν α)) :
    mapAll f g forest = forest.map (map f g) := by
  induction forest with
  | nil => rfl
  | cons tree rest ih => simp [mapAll, ih]

theorem leavesOf_cons (tree : Tree ν α) (rest : List (Tree ν α)) :
    leavesOf (tree :: rest) = tree.leaves ++ leavesOf rest := rfl

/-- A row of leaves reads as their values. -/
theorem leavesOf_map_leaf (values : List α) :
    leavesOf (values.map (.leaf : α → Tree ν α)) = values := by
  induction values with
  | nil => rfl
  | cons value rest ih => rw [List.map_cons, leavesOf_cons, leaves, ih, List.singleton_append]

/-- In a row of leaves there are no nodes. -/
theorem nodesOf_map_leaf (values : List α) :
    nodesOf (values.map (.leaf : α → Tree ν α)) = [] := by
  induction values with
  | nil => rfl
  | cons value rest ih => rw [List.map_cons, nodesOf, nodes, ih, List.nil_append]

@[simp] theorem leavesOf_append (s t : List (Tree ν α)) :
    leavesOf (s ++ t) = leavesOf s ++ leavesOf t := by
  simp [leavesOf_eq_flatMap]

@[simp] theorem nodesOf_append (s t : List (Tree ν α)) :
    nodesOf (s ++ t) = nodesOf s ++ nodesOf t := by
  simp [nodesOf_eq_flatMap]

/-! ### Equality -/

mutual

/-- Trees are compared label by label and value by value. -/
def decEq [DecidableEq ν] [DecidableEq α] : (s t : Tree ν α) → Decidable (s = t)
  | .leaf a, .leaf b => if h : a = b then isTrue (h ▸ rfl) else isFalse fun e => h (Tree.leaf.inj e)
  | .leaf _, .node _ _ => isFalse nofun
  | .node _ _, .leaf _ => isFalse nofun
  | .node k cs, .node l ds =>
      if h : k = l then
        match decEqAll cs ds with
        | isTrue same => isTrue (by rw [h, same])
        | isFalse differ => isFalse fun e => differ (Tree.node.inj e).2
      else isFalse fun e => h (Tree.node.inj e).1

/-- Forests are compared tree by tree. -/
def decEqAll [DecidableEq ν] [DecidableEq α] : (s t : List (Tree ν α)) → Decidable (s = t)
  | [], [] => isTrue rfl
  | [], _ :: _ => isFalse nofun
  | _ :: _, [] => isFalse nofun
  | s :: ss, t :: ts =>
      match decEq s t, decEqAll ss ts with
      | isTrue first, isTrue others => isTrue (by rw [first, others])
      | isFalse differ, _ => isFalse fun e => differ (List.cons.inj e).1
      | _, isFalse differ => isFalse fun e => differ (List.cons.inj e).2

end

instance [DecidableEq ν] [DecidableEq α] : DecidableEq (Tree ν α) := decEq

end Tree

end CobolTree
