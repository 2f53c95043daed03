import CobolTree.Tree.Located

/-!
Sharing of small trees. Equal small trees are kept once, so all that tells one occurrence
from another is the offset where it begins; a larger tree is kept as often as it occurs.
Occurrences begin at one offset only where a tree takes no bytes. `occurrences` looks
along a row of trees: a shared tree is found where it first begins, any other where it
stands, and no place in the row is lost (`map_fst_occurrences`).
-/

namespace CobolTree.LocatedTree

/-- A tree with more parts than this is not shared. -/
def mostSharedParts : Nat := 3

/-- A node of blanks without parts has no mark to be recognised by. -/
def isUnmarked : LocatedTree → Bool
  | .node extent [] => extent.kind == .whitespace
  | _ => false

mutual

/-- Equal trees like this one are kept once: no node has many parts or an unmarked part. -/
def isShared : LocatedTree → Bool
  | .leaf _ => true
  | .node _ parts => decide (parts.length ≤ mostSharedParts) && areShared parts

/-- All of these trees can be parts of a shared tree. -/
def areShared : List LocatedTree → Bool
  | [] => true
  | tree :: rest => isShared tree && !isUnmarked tree && areShared rest

end

/-- The trees of a row, each with those behind it. -/
def withRest : List LocatedTree → List (LocatedTree × List LocatedTree)
  | [] => []
  | tree :: rest => (tree, rest) :: withRest rest

/-- The trees of a row, each with those behind the place where it is found. -/
def occurrences (row : List LocatedTree) : List (LocatedTree × List LocatedTree) :=
  (withRest row).map fun (tree, rest) =>
    (tree, if tree.isShared then (row.dropWhile (· ≠ tree)).drop 1 else rest)

theorem map_fst_withRest (row : List LocatedTree) : (withRest row).map (·.1) = row := by
  induction row with
  | nil => rfl
  | cons tree rest ih => rw [withRest, List.map_cons, ih]

/-- Every tree of a row is found, in the order of the row. -/
theorem map_fst_occurrences (row : List LocatedTree) : (occurrences row).map (·.1) = row := by
  rw [occurrences, List.map_map]
  exact map_fst_withRest row

end CobolTree.LocatedTree
