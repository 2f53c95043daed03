import CobolTree.Proofs.Tree.Selection
import CobolTree.Proofs.Verbs.Fate

/-!
Trees when a word is made a statement verb. Text, program units and divisions stay where they are,
and each PROCEDURE DIVISION becomes another one (`Demotes`). This holds of rows of such trees, of
nodes above them, and of a division itself where each node of its body has its fate
(`demotes_procedureDivision`).
-/

namespace CobolTree

namespace LocatedTree

/-- What a program unit or a division is, and the bytes that it takes. -/
def construct? (node : LocatedTree) : Option Extent :=
  if kind node = .programUnit ∨ (Division.ofKind? (kind node)).isSome then
    some ⟨kind node, range node⟩
  else none

/-- The program units and divisions of a forest, each with those in it. -/
def outline (forest : List LocatedTree) : List (Tree Extent Empty) :=
  Tree.selectAll construct? forest

/-- The PROCEDURE DIVISIONs of a forest, in the order of the text. -/
def procedures (forest : List LocatedTree) : List LocatedTree :=
  (Tree.nodesOf forest).filter (kind · == .procedureDivision)

/-- A PROCEDURE DIVISION of a tree is a node of the tree, of that kind. -/
theorem mem_procedures {tree division : LocatedTree} (mem : division ∈ procedures [tree]) :
    division ∈ tree.nodes ∧ LocatedTree.kind division = Division.procedure.kind := by
  obtain ⟨among, isProcedure⟩ := List.mem_filter.mp mem
  rw [Tree.nodesOf, Tree.nodesOf, List.append_nil] at among
  exact ⟨among, eq_of_beq isProcedure⟩

theorem procedures_append (s t : List LocatedTree) :
    procedures (s ++ t) = procedures s ++ procedures t := by
  rw [procedures, Tree.nodesOf_append, List.filter_append]
  rfl

theorem procedures_node (extent : Extent) (children : List LocatedTree) :
    procedures [.node extent children] =
      if extent.kind = .procedureDivision then .node extent children :: procedures children
      else procedures children := by
  simp only [procedures, Tree.nodesOf, Tree.nodes, List.append_nil, List.filter_cons,
    beq_iff_eq]
  rfl

end LocatedTree

namespace SourceTree

open LocatedTree

variable {word : Text} {old new old' new' forest : List SourceTree} {kinds : List Kind}

/-- The second of two forests is what becomes of the first when a word is made a statement verb. -/
structure Demotes (word : Text) (old new : List SourceTree) : Prop where
  leaves : Tree.leavesOf new = Tree.leavesOf old
  outline : ∀ start, outline (locateAllAt start new) = outline (locateAllAt start old)
  divisions : ∀ start, List.Forall₂ (Procedure.Demotes word)
    (procedures (locateAllAt start old)) (procedures (locateAllAt start new))

theorem KindsIn.procedures_eq_nil (h : KindsIn kinds forest)
    (none : Kind.procedureDivision ∉ kinds) (start : Nat) :
    procedures (locateAllAt start forest) = [] := by
  apply List.filter_eq_nil_iff.mpr
  intro node mem isDivision
  exact none (eq_of_beq isDivision ▸ h start node mem)

/-- Below a division there are neither program units nor divisions. -/
theorem KindsIn.outline_eq_nil (h : KindsIn bodyKinds forest) (start : Nat) :
    LocatedTree.outline (locateAllAt start forest) = [] := by
  have none : ∀ kind ∈ bodyKinds, ¬(kind = .programUnit ∨ (Division.ofKind? kind).isSome) := by
    decide
  apply Tree.selectAll_eq_nil
  intro node mem
  exact if_neg (none _ (h start node mem))

/-- Nodes of one kind select the same if what is below them does. -/
theorem outline_node {start : Nat} (leaves : Tree.leavesOf new = Tree.leavesOf old)
    (below : LocatedTree.outline (locateAllAt start new) =
      LocatedTree.outline (locateAllAt start old)) (kind : Kind) :
    LocatedTree.outline (locateAllAt start [.node kind new]) =
      LocatedTree.outline (locateAllAt start [.node kind old]) := by
  simp only [LocatedTree.outline] at below ⊢
  simp only [locateAllAt, locateAt, textOf_eq, leaves]
  by_cases named : kind = .programUnit ∨ (Division.ofKind? kind).isSome
  · rw [Tree.selectAll_of_some (if_pos named), Tree.selectAll_of_some (if_pos named), below]
    rfl
  · rw [Tree.selectAll_of_none (if_neg named), Tree.selectAll_of_none (if_neg named), below]

namespace Demotes

/-- A forest without a PROCEDURE DIVISION stays as it is. -/
theorem refl (h : KindsIn kinds forest) (none : Kind.procedureDivision ∉ kinds) :
    Demotes word forest forest := by
  refine ⟨rfl, fun _ => rfl, fun start => ?_⟩
  rw [h.procedures_eq_nil none]
  exact .nil

theorem row (lexemes : List Lexeme) :
    Demotes word (SourceTree.row lexemes) (SourceTree.row lexemes) :=
  refl (kindsIn_row lexemes) List.not_mem_nil

theorem textOf_eq (h : Demotes word old new) : textOf new = textOf old :=
  congrArg Lexeme.textOf h.leaves

theorem append (h : Demotes word old new) (k : Demotes word old' new') :
    Demotes word (old ++ old') (new ++ new') := by
  constructor
  case leaves => rw [Tree.leavesOf_append, Tree.leavesOf_append, h.leaves, k.leaves]
  case outline =>
    intro start
    rw [locateAllAt_append, locateAllAt_append, h.textOf_eq, LocatedTree.outline,
      Tree.selectAll_append, LocatedTree.outline, Tree.selectAll_append]
    exact congrArg₂ _ (h.outline _) (k.outline _)
  case divisions =>
    intro start
    rw [locateAllAt_append, locateAllAt_append, h.textOf_eq, procedures_append, procedures_append]
    exact List.rel_append (h.divisions _) (k.divisions _)

/-- A node other than a PROCEDURE DIVISION becomes one of the same kind. -/
theorem node (h : Demotes word old new) {kind : Kind} (other : kind ≠ .procedureDivision) :
    Demotes word [.node kind old] [.node kind new] := by
  refine ⟨?_, fun start => outline_node h.leaves (h.outline start) kind, fun start => ?_⟩
  · simp [Tree.leavesOf, Tree.leaves, h.leaves]
  · have below := h.divisions start
    simpa [locateAllAt, locateAt, procedures_node, other] using below

end Demotes

/-- A PROCEDURE DIVISION with other nodes in its body, each of them what becomes of one of those
that there were. -/
theorem demotes_procedureDivision {header : List Lexeme} (one : Among (IsEntry .procedure) old)
    (another : Among (IsEntry .procedure) new) (leaves : Tree.leavesOf new = Tree.leavesOf old)
    (fates : ∀ start, List.Forall₂ (Procedure.Fate word) (Tree.nodesOf (locateAllAt start old))
      (Tree.nodesOf (locateAllAt start new))) :
    Demotes word [.node .procedureDivision (row header ++ old)]
      [.node .procedureDivision (row header ++ new)] := by
  have kinds {body : List SourceTree} (entries : Among (IsEntry .procedure) body) :
      KindsIn bodyKinds (row header ++ body) :=
    (kindsIn_row header).append (entries.kindsIn fun _ => IsEntry.kindsIn)
  have whole : Tree.leavesOf (row header ++ new) = Tree.leavesOf (row header ++ old) := by
    rw [Tree.leavesOf_append, Tree.leavesOf_append, leaves]
  constructor
  case leaves => simpa [Tree.leavesOf, Tree.leaves] using leaves
  case outline =>
    intro start
    apply outline_node whole
    rw [(kinds one).outline_eq_nil, (kinds another).outline_eq_nil]
  case divisions =>
    intro start
    have alone {body : List SourceTree} (entries : Among (IsEntry .procedure) body) :
        procedures (locateAllAt start [.node .procedureDivision (row header ++ body)]) =
          [locateAt start (.node .procedureDivision (row header ++ body))] := by
      rw [locateAllAt, locateAllAt, locateAt, procedures_node, if_pos rfl,
        (kinds entries).procedures_eq_nil (by decide)]
    rw [alone one, alone another]
    refine .cons ?_ .nil
    rw [locateAt, locateAt, textOf_eq, textOf_eq, whole]
    exact Procedure.demotes_of_fates one another start rfl fates

end SourceTree

end CobolTree
