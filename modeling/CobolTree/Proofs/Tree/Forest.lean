import CobolTree.Conversion.SourceUnit

/-!
Forests with a hole. `forest_induction` follows a forest down and along at once. A context with
a hole is a search's `Hole` when whatever the search finds first in the forest put there it finds
first in the whole tree: this holds when nothing before the hole is of the sort it looks for, and
it is kept when the hole moves behind a tree (`Hole.behind`) or into a node (`Hole.within`).
-/

namespace CobolTree.Tree

variable {ν α : Type}

/-- Induction on a forest: what is below its first tree, and what is behind it. -/
theorem forest_induction {motive : List (Tree ν α) → Prop} (nil : motive [])
    (leaf : ∀ value rest, motive rest → motive (.leaf value :: rest))
    (node : ∀ label children rest, motive children → motive rest →
      motive (.node label children :: rest))
    (forest : List (Tree ν α)) : motive forest := by
  cases forest with
  | nil => exact nil
  | cons tree rest =>
      cases tree with
      | leaf value => exact leaf value rest (forest_induction nil leaf node rest)
      | node label children =>
          exact node label children rest (forest_induction nil leaf node children)
            (forest_induction nil leaf node rest)
termination_by sizeOf forest

/-- The leaves below a node of a forest are leaves of the forest. -/
theorem leaves_subset_of_mem_nodesOf {part : Tree ν α} {forest : List (Tree ν α)}
    (mem : part ∈ nodesOf forest) :
    part.leaves ⊆ leavesOf forest := by
  induction forest using forest_induction with
  | nil => cases mem
  | leaf value rest behind => exact List.subset_cons_of_subset value (behind mem)
  | node label children rest below behind =>
      rw [nodesOf, nodes, List.cons_append, List.mem_cons, List.mem_append] at mem
      rw [leavesOf, leaves]
      rcases mem with rfl | mem | mem
      · exact List.subset_append_left _ _
      · exact List.Subset.trans (below mem) (List.subset_append_left _ _)
      · exact List.Subset.trans (behind mem) (List.subset_append_right _ _)

section Search

variable {sort : Tree ν α → Bool} {replacement : Tree ν α → Tree ν α}

/-- Nothing is replaced where nothing is of the sort. -/
theorem replaceFirstOf?_eq_none (forest : List (Tree ν α))
    (h : ∀ node ∈ nodesOf forest, sort node = false) :
    replaceFirstOf? sort replacement forest = none := by
  induction forest using forest_induction with
  | nil => rfl
  | leaf value rest ih =>
      have others := ih fun node mem => h node (by simpa [nodesOf, nodes] using mem)
      simp [replaceFirstOf?, replaceFirst?, others]
  | node label children rest below behind =>
      have root := h (.node label children) (by simp [nodesOf, nodes])
      have inner := below fun node mem => h node (by simp [nodesOf, nodes, mem])
      have others := behind fun node mem => h node (by simp [nodesOf, nodes, mem])
      simp [replaceFirstOf?, replaceFirst?, root, inner, others]

theorem replaceFirst?_eq_none (tree : Tree ν α) (h : ∀ node ∈ nodes tree, sort node = false) :
    replaceFirst? sort replacement tree = none := by
  have none : replaceFirstOf? sort replacement [tree] = none :=
    replaceFirstOf?_eq_none [tree] fun node mem => h node (by simpa [nodesOf] using mem)
  cases found : replaceFirst? sort replacement tree with
  | none => rfl
  | some other => simp [replaceFirstOf?, found] at none

/-- What a search finds first in a forest it finds first in the context around the forest. -/
structure Hole (sort : Tree ν α → Bool) (replacement : Tree ν α → Tree ν α)
    (context : List (Tree ν α) → Tree ν α) : Prop where
  find? {forest : List (Tree ν α)} {found : Tree ν α} :
    (nodesOf forest).find? sort = some found → (context forest).nodes.find? sort = some found
  replaceFirst? {forest other : List (Tree ν α)} :
    replaceFirstOf? sort replacement forest = some other →
      (context forest).replaceFirst? sort replacement = some (context other)

namespace Hole

variable {context : List (Tree ν α) → Tree ν α}

/-- The hole right below a root that is not of the sort. -/
theorem root {label : ν} (h : ∀ children, sort (.node label children) = false) :
    Hole sort replacement (.node label) where
  find? found := by rw [nodes, List.find?_cons_of_neg (by simp [h]), found]
  replaceFirst? found := by simp [Tree.replaceFirst?, h, found]

/-- The hole behind a tree in which nothing is of the sort. -/
theorem behind (hole : Hole sort replacement context) {tree : Tree ν α}
    (h : ∀ node ∈ nodes tree, sort node = false) :
    Hole sort replacement fun forest => context (tree :: forest) where
  find? found := by
    have none : (nodes tree).find? sort = none := List.find?_eq_none.mpr (by simpa using h)
    exact hole.find? (by rw [nodesOf, List.find?_append, none, Option.none_or, found])
  replaceFirst? found := by
    have none : Tree.replaceFirst? sort replacement tree = none := replaceFirst?_eq_none tree h
    exact hole.replaceFirst? (by simp [replaceFirstOf?, none, found])

/-- The hole within a node that is not of the sort, with a forest behind it. -/
theorem within (hole : Hole sort replacement context) {label : ν}
    (h : ∀ children, sort (.node label children) = false) (rest : List (Tree ν α)) :
    Hole sort replacement fun forest => context (.node label forest :: rest) where
  find? found := by
    refine hole.find? ?_
    rw [nodesOf, nodes, List.cons_append, List.find?_cons_of_neg (by simp [h]), List.find?_append,
      found]
    rfl
  replaceFirst? found := by
    exact hole.replaceFirst? (by simp [replaceFirstOf?, Tree.replaceFirst?, h, found])

end Hole

end Search

end CobolTree.Tree
