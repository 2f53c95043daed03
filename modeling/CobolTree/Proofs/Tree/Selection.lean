import CobolTree.Proofs.Tree.Forest

/-!
The forest of selected nodes. `selectAll` keeps the nodes of a forest that are given a value, each
with its value as its label and under the nearest kept node above it, in the order of the forest;
all other nodes and all leaves are left out. Two forests have the same nodes of some sort, in the
same order and nesting, when they select the same forest.
-/

namespace CobolTree.Tree

variable {ν α β : Type}

mutual

/-- The selected nodes of a tree, by their values. -/
def select (value? : Tree ν α → Option β) : Tree ν α → List (Tree β Empty)
  | .leaf _ => []
  | .node label children =>
      match value? (.node label children) with
      | some value => [.node value (selectAll value? children)]
      | none => selectAll value? children

/-- The selected nodes of a forest, by their values. -/
def selectAll (value? : Tree ν α → Option β) : List (Tree ν α) → List (Tree β Empty)
  | [] => []
  | tree :: rest => select value? tree ++ selectAll value? rest

end

section Select

variable {value? : Tree ν α → Option β}

theorem selectAll_cons (tree : Tree ν α) (rest : List (Tree ν α)) :
    selectAll value? (tree :: rest) = selectAll value? [tree] ++ selectAll value? rest := by
  simp [selectAll]

theorem selectAll_append (s t : List (Tree ν α)) :
    selectAll value? (s ++ t) = selectAll value? s ++ selectAll value? t := by
  induction s with
  | nil => rfl
  | cons tree rest ih => simp [selectAll, ih]

theorem selectAll_of_some {label : ν} {children : List (Tree ν α)} {value : β}
    (h : value? (.node label children) = some value) :
    selectAll value? [.node label children] = [.node value (selectAll value? children)] := by
  simp [selectAll, select, h]

theorem selectAll_of_none {label : ν} {children : List (Tree ν α)}
    (h : value? (.node label children) = none) :
    selectAll value? [.node label children] = selectAll value? children := by
  simp [selectAll, select, h]

/-- Nothing is selected from a forest none of whose nodes is. -/
theorem selectAll_eq_nil {forest : List (Tree ν α)}
    (h : ∀ node ∈ nodesOf forest, value? node = none) : selectAll value? forest = [] := by
  induction forest using forest_induction with
  | nil => rfl
  | leaf leaf rest ih => exact ih h
  | node label children rest below behind =>
      have root := h (.node label children) (by simp [nodesOf, nodes])
      have inner := below fun node mem => h node (by simp [nodesOf, nodes, mem])
      have others := behind fun node mem => h node (by simp [nodesOf, nodes, mem])
      rw [selectAll_cons, selectAll_of_none root, inner, others]
      rfl

/-- The labels of the selected nodes are their values, in the order of the forest. -/
theorem labels_selectAll (forest : List (Tree ν α)) :
    (nodesOf (selectAll value? forest)).filterMap label? = (nodesOf forest).filterMap value? := by
  induction forest using forest_induction with
  | nil => rfl
  | leaf leaf rest ih => exact ih
  | node label children rest below behind =>
      rw [selectAll_cons, nodesOf_append, List.filterMap_append, behind]
      cases value : value? (.node label children) with
      | none => simp [selectAll_of_none value, below, nodesOf, nodes, value]
      | some given => simp [selectAll_of_some value, below, nodesOf, nodes, value, label?]

/-- What is told of the nodes that are selected holds of them, if nothing but truth is selected
from another forest of the same shape. -/
theorem forall_of_selectAll {ν' α' : Type} {p told : Tree ν α → Prop} {q : Tree ν' α' → Prop}
    [DecidablePred p] [DecidablePred q] {forest : List (Tree ν α)} {others : List (Tree ν' α')}
    (same : selectAll (fun tree => if p tree then some (told tree) else none) forest =
      selectAll (fun tree => if q tree then some True else none) others) :
    ∀ tree ∈ nodesOf forest, p tree → told tree := by
  intro tree mem selected
  have labels := congrArg (fun trees => (nodesOf trees).filterMap label?) same
  simp only [labels_selectAll] at labels
  have here : told tree ∈ (nodesOf forest).filterMap fun tree =>
      if p tree then some (told tree) else none :=
    List.mem_filterMap.mpr ⟨tree, mem, if_pos selected⟩
  rw [labels] at here
  obtain ⟨other, -, holds⟩ := List.mem_filterMap.mp here
  split at holds
  · exact of_eq_true (Option.some.inj holds).symm
  · cases holds

end Select

end CobolTree.Tree
