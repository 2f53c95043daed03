import CobolTree.Tree.Basic

/-!
A walk over the leaves of a tree, one at a time. The walk keeps the siblings still to be
visited on every level, innermost level first; `work` bounds what is left, so asking for
the next leaf ends on every forest, empty nodes included.
-/

namespace CobolTree

variable {ν α : Type}

namespace Tree

mutual

/-- Steps that visiting a tree can take. -/
def work : Tree ν α → Nat
  | .leaf _ => 1
  | .node _ children => 2 + workAll children

/-- Steps that visiting a forest can take. -/
def workAll : List (Tree ν α) → Nat
  | [] => 0
  | tree :: rest => work tree + workAll rest

end

end Tree

/-- A walk in progress: on every level the trees still to be visited. -/
structure LeafWalk (ν α : Type) where
  pending : List (List (Tree ν α))

namespace LeafWalk

/-- Steps that a stack of forests can still take. -/
def workLeft : List (List (Tree ν α)) → Nat
  | [] => 0
  | forest :: outer => 1 + Tree.workAll forest + workLeft outer

/-- The next leaf on a stack of forests, with the stack behind it. -/
def nextOf? (pending : List (List (Tree ν α))) : Option (α × List (List (Tree ν α))) :=
  match pending with
  | [] => none
  | [] :: outer => nextOf? outer
  | (.leaf value :: rest) :: outer => some (value, rest :: outer)
  | (.node _ children :: rest) :: outer => nextOf? (children :: rest :: outer)
termination_by workLeft pending
decreasing_by
  all_goals simp only [workLeft, Tree.workAll, Tree.work]
  all_goals omega

/-- The walk over the leaves below a tree's root. -/
def ofTree (tree : Tree ν α) : LeafWalk ν α := ⟨[tree.children]⟩

/-- The next leaf, with the walk behind it. -/
def next? (walk : LeafWalk ν α) : Option (α × LeafWalk ν α) :=
  (nextOf? walk.pending).map fun (value, pending) => (value, ⟨pending⟩)

/-- The leaves in the order of a stack of forests. -/
def leavesLeft (pending : List (List (Tree ν α))) : List α := pending.flatMap Tree.leavesOf

/-- The next leaf is the first of those left, and the walk behind it has the others. -/
theorem leavesLeft_eq_of_nextOf? {pending behind : List (List (Tree ν α))} {value : α}
    (h : nextOf? pending = some (value, behind)) :
    leavesLeft pending = value :: leavesLeft behind := by
  fun_induction nextOf? pending with
  | case1 => cases h
  | case2 outer ih => simpa [leavesLeft, Tree.leavesOf] using ih h
  | case3 v rest outer =>
      simp only [Option.some.injEq, Prod.mk.injEq] at h
      obtain ⟨rfl, rfl⟩ := h
      simp [leavesLeft, Tree.leavesOf, Tree.leaves]
  | case4 label children rest outer ih =>
      have := ih h
      simp only [leavesLeft, List.flatMap_cons, Tree.leavesOf, Tree.leaves] at this ⊢
      simpa using this

/-- All leaves that a stack of forests still yields. -/
def drain (pending : List (List (Tree ν α))) : List α :=
  match h : nextOf? pending with
  | none => []
  | some (value, behind) =>
      have : (leavesLeft behind).length < (leavesLeft pending).length := by
        rw [leavesLeft_eq_of_nextOf? h]
        simp
      value :: drain behind
termination_by (leavesLeft pending).length

/-- A stack of forests without a next leaf has no leaves left. -/
theorem leavesLeft_eq_nil_of_nextOf? {pending : List (List (Tree ν α))}
    (h : nextOf? pending = none) : leavesLeft pending = [] := by
  fun_induction nextOf? pending with
  | case1 => rfl
  | case2 outer ih => simpa [leavesLeft, Tree.leavesOf] using ih h
  | case3 => cases h
  | case4 label children rest outer ih =>
      have := ih h
      simp only [leavesLeft, List.flatMap_cons, Tree.leavesOf, Tree.leaves] at this ⊢
      simpa using this

/-- Going through a stack of forests to the end yields its leaves in order. -/
theorem drain_eq_leavesLeft (pending : List (List (Tree ν α))) :
    drain pending = leavesLeft pending := by
  fun_induction drain pending with
  | case1 pending h => exact (leavesLeft_eq_nil_of_nextOf? h).symm
  | case2 pending value behind h shorter ih => rw [leavesLeft_eq_of_nextOf? h, ih]

/-- All leaves that a walk still yields. -/
def toList (walk : LeafWalk ν α) : List α := drain walk.pending

/-- The walk below a root yields the leaves of the forest there. -/
theorem toList_ofTree (tree : Tree ν α) : (ofTree tree).toList = Tree.leavesOf tree.children := by
  simp [toList, ofTree, drain_eq_leavesLeft, leavesLeft]

end LeafWalk

end CobolTree
