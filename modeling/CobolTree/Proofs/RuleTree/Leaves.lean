import CobolTree.Proofs.Tree.Forest
import CobolTree.RuleTree.Basic

/-!
The walk over the leaves of a rule tree. Main statement (`RuleTree.walksLeaves`): asked again and
again, the walk answers with the leaves of the recursive reading `Tree.leaves`, each in its turn,
and then with nothing; and the bounds that a rule takes from the walk are its first and its last
leaf at any depth.

One call of the walk is a loop over a stack of forests. `LeafWalk.Turn` is a turn of the loop that
finds no leaf: it leaves a level or enters a node, keeps the leaves that are left and takes one from
`workLeft` (`Turn.leavesLeft_eq`, `Turn.work_eq`), so the loop ends, and what it ends with is what
the call answers (`LeafWalk.ask_eq_iff`).
-/

namespace CobolTree

variable {ν α : Type}

namespace LeafWalk

/-! ### The loop of one call -/

/-- A turn of the loop that finds no leaf: a level without trees is left, and a node that comes
first gives way to the trees below it. -/
inductive Turn : List (List (Tree ν α)) → List (List (Tree ν α)) → Prop
  | leave (outer : List (List (Tree ν α))) : Turn ([] :: outer) outer
  | enter (label : ν) (children rest : List (Tree ν α)) (outer : List (List (Tree ν α))) :
      Turn ((.node label children :: rest) :: outer) (children :: rest :: outer)

/-- Turns one after another, and how many. -/
inductive Turns : Nat → List (List (Tree ν α)) → List (List (Tree ν α)) → Prop
  | none (pending : List (List (Tree ν α))) : Turns 0 pending pending
  | more {count : Nat} {pending next last : List (List (Tree ν α))} :
      Turn pending next → Turns count next last → Turns (count + 1) pending last

/-- Where the loop ends, with what the call answers and leaves pending: nothing is pending, or a
leaf comes first. -/
inductive Ends : List (List (Tree ν α)) → Option α × LeafWalk ν α → Prop
  | exhausted : Ends [] (none, ⟨[]⟩)
  | leaf (value : α) (rest : List (Tree ν α)) (outer : List (List (Tree ν α))) :
      Ends ((.leaf value :: rest) :: outer) (some value, ⟨rest :: outer⟩)

/-- The answer to a call, and the walk behind it. Where there is no next leaf, nothing is left
pending. -/
def ask (walk : LeafWalk ν α) : Option α × LeafWalk ν α :=
  match walk.next? with
  | some (value, behind) => (some value, behind)
  | none => (none, ⟨[]⟩)

section Loop

variable {pending next last : List (List (Tree ν α))} {result : Option α × LeafWalk ν α}
  {count : Nat}

/-- Every turn takes one from the work that is left. -/
theorem Turn.work_eq (turn : Turn pending next) : workLeft pending = workLeft next + 1 := by
  cases turn with
  | leave outer => rw [workLeft, Tree.workAll, Nat.add_zero, Nat.add_comm]
  | enter label children rest outer =>
      simp only [workLeft, Tree.workAll, Tree.work]
      omega

/-- No turn loses a leaf or brings one in. -/
theorem Turn.leavesLeft_eq (turn : Turn pending next) : leavesLeft pending = leavesLeft next := by
  cases turn with
  | leave outer => rfl
  | enter label children rest outer =>
      simp [leavesLeft, Tree.leavesOf_cons, Tree.leaves]

/-- A call that has made a turn answers as it would have before. -/
theorem Turn.nextOf?_eq (turn : Turn pending next) : nextOf? pending = nextOf? next := by
  cases turn with
  | leave outer => rw [nextOf?]
  | enter label children rest outer => rw [nextOf?]

theorem Turns.work_eq (turns : Turns count pending last) :
    workLeft pending = workLeft last + count := by
  induction turns with
  | none pending => rfl
  | more turn _ ih =>
      rw [turn.work_eq, ih]
      omega

theorem Turns.leavesLeft_eq (turns : Turns count pending last) :
    leavesLeft pending = leavesLeft last := by
  induction turns with
  | none pending => rfl
  | more turn _ ih => exact turn.leavesLeft_eq.trans ih

theorem Turns.nextOf?_eq (turns : Turns count pending last) : nextOf? pending = nextOf? last := by
  induction turns with
  | none pending => rfl
  | more turn _ ih => exact turn.nextOf?_eq.trans ih

/-- Where the loop has ended, the call answers at once. -/
theorem Ends.ask_eq (ends : Ends last result) : ask ⟨last⟩ = result := by
  cases ends with
  | exhausted => simp [ask, next?, nextOf?]
  | leaf value rest outer => simp [ask, next?, nextOf?]

/-- The loop ends. -/
theorem exists_turns (pending : List (List (Tree ν α))) :
    ∃ count last result, Turns count pending last ∧ Ends last result := by
  induction pending using nextOf?.induct with
  | case1 => exact ⟨0, _, _, .none _, .exhausted⟩
  | case2 outer ih =>
      obtain ⟨count, last, result, turns, ends⟩ := ih
      exact ⟨count + 1, last, result, .more (.leave outer) turns, ends⟩
  | case3 value rest outer => exact ⟨0, _, _, .none _, .leaf value rest outer⟩
  | case4 label children rest outer ih =>
      obtain ⟨count, last, result, turns, ends⟩ := ih
      exact ⟨count + 1, last, result, .more (.enter label children rest outer) turns, ends⟩

/-- A call answers what its loop ends with. -/
theorem ask_eq_iff : ask ⟨pending⟩ = result ↔
    ∃ count last, Turns count pending last ∧ Ends last result := by
  have same {count : Nat} {last : List (List (Tree ν α))} (turns : Turns count pending last) :
      ask ⟨pending⟩ = ask ⟨last⟩ := by
    simp only [ask, next?, turns.nextOf?_eq]
  constructor
  · rintro rfl
    obtain ⟨count, last, result, turns, ends⟩ := exists_turns pending
    refine ⟨count, last, turns, ?_⟩
    rwa [same turns, ends.ask_eq]
  · rintro ⟨count, last, turns, ends⟩
    rw [same turns, ends.ask_eq]

end Loop

/-! ### Call after call -/

/-- The walk behind some number of calls. -/
def behind (walk : LeafWalk ν α) : Nat → LeafWalk ν α
  | 0 => walk
  | count + 1 => walk.ask.2.behind count

/-- A call answers with the first of the leaves left, and leaves the others. -/
theorem ask_leavesLeft (walk : LeafWalk ν α) :
    walk.ask.1 = (leavesLeft walk.pending).head? ∧
      leavesLeft walk.ask.2.pending = (leavesLeft walk.pending).tail := by
  obtain ⟨count, last, turns, ends⟩ := ask_eq_iff.mp (rfl : walk.ask = walk.ask)
  rw [turns.leavesLeft_eq]
  generalize walk.ask = result at ends
  cases ends with
  | exhausted => exact ⟨rfl, rfl⟩
  | leaf value rest outer => simp [leavesLeft, Tree.leavesOf_cons, Tree.leaves]

theorem leavesLeft_behind (walk : LeafWalk ν α) (count : Nat) :
    leavesLeft (walk.behind count).pending = (leavesLeft walk.pending).drop count := by
  induction count generalizing walk with
  | zero => rfl
  | succ count ih => rw [behind, ih, walk.ask_leavesLeft.2, List.drop_tail]

/-- The calls answer with the leaves left, one after another. -/
theorem ask_behind (walk : LeafWalk ν α) (count : Nat) :
    (walk.behind count).ask.1 = (leavesLeft walk.pending)[count]? := by
  rw [(walk.behind count).ask_leavesLeft.1, leavesLeft_behind, List.head?_drop]

end LeafWalk

/-- The leaves of a forest are those in the row and those right below its nodes. -/
theorem Tree.mem_leavesOf_iff {forest : List (Tree ν α)} {value : α} :
    value ∈ leavesOf forest ↔
      .leaf value ∈ forest ∨ ∃ node ∈ nodesOf forest, .leaf value ∈ node.children := by
  induction forest using forest_induction with
  | nil => simp [leavesOf, nodesOf]
  | leaf other rest ih => simp [leavesOf, leaves, nodesOf, nodes, ih, or_assoc]
  | node label inner rest below behind =>
      have root : (.leaf value ∈ children (.node label inner)) = (.leaf value ∈ inner) := rfl
      rw [leavesOf_cons, leaves, List.mem_append, below, behind]
      simp [nodesOf, nodes, root, or_and_right, exists_or, or_assoc, or_left_comm]

theorem Tree.mem_leaves_iff {label : ν} {inner : List (Tree ν α)} {value : α} :
    value ∈ leaves (.node label inner) ↔
      ∃ node ∈ nodes (.node label inner), .leaf value ∈ node.children := by
  have root : (.leaf value ∈ children (.node label inner)) = (.leaf value ∈ inner) := rfl
  simp [leaves, mem_leavesOf_iff, nodes, root]

namespace RuleTree

/-- The last terminal of a node. -/
def stop? (tree : RuleTree) : Option Terminal := tree.label?.bind (·.stop)

/-- The node with its bounds taken from a walk over its leaves: what the first call answers, and
the last leaf that the walk comes to. -/
def boundByTerminals : RuleTree → RuleTree
  | .leaf terminal => .leaf terminal
  | .node head children =>
      let walk : LeafWalk RuleHead Terminal := .ofTree (.node head children)
      .node { head with start := walk.ask.1, stop := walk.toList.getLast? } children

/-- Rules over given parts are bound this way. -/
theorem boundByTerminals_eq (kind : RuleKind) (children : List RuleTree) :
    boundByTerminals (.node ⟨kind, none, none, none⟩ children) = bounded kind children := by
  have first := (LeafWalk.mk [children]).ask_leavesLeft.1
  simp only [boundByTerminals, LeafWalk.ofTree, Tree.children, first, bounded, LeafWalk.toList,
    LeafWalk.drain_eq_leavesLeft]

/-- Some node of the tree, the root or one below it, has a leaf right below. -/
def HasLeaf (tree : RuleTree) : Prop :=
  ∃ node ∈ tree.nodes, ∃ terminal, .leaf terminal ∈ node.children

/-- The walk over a rule tree goes through its leaves, and its bounds are the first leaf and the
last. -/
structure WalksLeaves (context : RuleTree) : Prop where
  /-- Call after call answers with the next leaf, and with nothing when there are no more. -/
  answers : ∀ count, ((LeafWalk.ofTree context).behind count).ask.1 = context.leaves[count]?
  /-- The loop of each call comes to an end, at the latest when no work is left. -/
  ends : ∀ count, ∃ turns last,
    LeafWalk.Turns turns ((LeafWalk.ofTree context).behind count).pending last ∧
      LeafWalk.Ends last ((LeafWalk.ofTree context).behind count).ask ∧
      turns ≤ LeafWalk.workLeft ((LeafWalk.ofTree context).behind count).pending
  start : start? context.boundByTerminals = context.leaves.head?
  stop : stop? context.boundByTerminals = context.leaves.getLast?
  /-- There are no bounds just where there is no leaf at any depth. -/
  start_none : start? context.boundByTerminals = none ↔ ¬ HasLeaf context
  stop_none : stop? context.boundByTerminals = none ↔ ¬ HasLeaf context
  /-- A rule that is built over the same parts gets the same bounds. -/
  built : ∀ kind, boundByTerminals (.node ⟨kind, none, none, none⟩ context.children) =
    bounded kind context.children

theorem leaves_eq_nil_iff (head : RuleHead) (children : List RuleTree) :
    Tree.leaves (.node head children) = [] ↔ ¬ HasLeaf (.node head children) := by
  constructor
  · rintro none ⟨node, mem, terminal, below⟩
    have leaf := Tree.mem_leaves_iff.mpr ⟨node, mem, below⟩
    rw [none] at leaf
    cases leaf
  · intro none
    refine List.eq_nil_iff_forall_not_mem.mpr fun terminal mem => none ?_
    obtain ⟨node, inside, below⟩ := Tree.mem_leaves_iff.mp mem
    exact ⟨node, inside, terminal, below⟩

theorem walksLeaves (head : RuleHead) (children : List RuleTree) :
    WalksLeaves (.node head children) := by
  have left : LeafWalk.leavesLeft (LeafWalk.ofTree (Tree.node head children)).pending =
      Tree.leaves (.node head children) := by
    simp [LeafWalk.leavesLeft, LeafWalk.ofTree, Tree.children, Tree.leaves]
  have start : start? (boundByTerminals (.node head children)) =
      (Tree.leaves (.node head children)).head? := by
    rw [← left, ← (LeafWalk.ofTree (Tree.node head children)).ask_leavesLeft.1]
    rfl
  have stop : stop? (boundByTerminals (.node head children)) =
      (Tree.leaves (.node head children)).getLast? := by
    rw [← left, ← LeafWalk.drain_eq_leavesLeft]
    rfl
  refine ⟨fun count => ?_, fun count => ?_, start, stop, ?_, ?_, fun kind => ?_⟩
  · rw [LeafWalk.ask_behind, left]
  · obtain ⟨turns, last, made, ends⟩ := LeafWalk.ask_eq_iff.mp
      (rfl : LeafWalk.ask ((LeafWalk.ofTree (Tree.node head children)).behind count) = _)
    have work := made.work_eq
    exact ⟨turns, last, made, ends, by omega⟩
  · rw [start, List.head?_eq_none_iff, leaves_eq_nil_iff]
  · rw [stop, List.getLast?_eq_none_iff, leaves_eq_nil_iff]
  · exact boundByTerminals_eq kind children

end RuleTree

end CobolTree
