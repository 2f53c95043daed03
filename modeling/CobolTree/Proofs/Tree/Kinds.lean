import CobolTree.Proofs.Tree.Shape

/-!
The kinds of the nodes of a tree. The nodes below a division are sentences, paragraphs, sections and
stray text (`IsDivision.kindsIn`), so neither a unit nor another division stands there.
-/

namespace CobolTree.SourceTree

/-- Every node of the forest is of one of some kinds, wherever the forest is located. -/
def KindsIn (kinds : List Kind) (forest : List SourceTree) : Prop :=
  ∀ start, ∀ node ∈ Tree.nodesOf (locateAllAt start forest), LocatedTree.kind node ∈ kinds

variable {kinds : List Kind}

theorem kindsIn_nil : KindsIn kinds [] := by
  intro start node mem
  cases mem

theorem KindsIn.append {s t : List SourceTree} (h : KindsIn kinds s) (k : KindsIn kinds t) :
    KindsIn kinds (s ++ t) := by
  intro start node mem
  rw [locateAllAt_append, Tree.nodesOf_append] at mem
  rcases List.mem_append.mp mem with left | right
  · exact h _ node left
  · exact k _ node right

theorem kindsIn_leaf (lexeme : Lexeme) : KindsIn kinds [.leaf lexeme] := by
  intro start node mem
  cases mem

theorem kindsIn_node {kind : Kind} {children : List SourceTree} (mem : kind ∈ kinds)
    (h : KindsIn kinds children) : KindsIn kinds [.node kind children] := by
  intro start node inside
  rw [locateAllAt, locateAt, Tree.nodesOf, Tree.nodes, locateAllAt, Tree.nodesOf,
    List.append_nil] at inside
  rcases List.mem_cons.mp inside with rfl | below
  · exact mem
  · exact h _ node below

theorem kindsIn_of_forall {forest : List SourceTree} (h : ∀ tree ∈ forest, KindsIn kinds [tree]) :
    KindsIn kinds forest := by
  induction forest with
  | nil => exact kindsIn_nil
  | cons tree rest ih =>
      obtain ⟨first, others⟩ := List.forall_mem_cons.mp h
      exact first.append (ih others)

theorem kindsIn_row (lexemes : List Lexeme) : KindsIn kinds (row lexemes) := by
  refine kindsIn_of_forall fun tree mem => ?_
  obtain ⟨lexeme, -, rfl⟩ := List.mem_map.mp mem
  exact kindsIn_leaf lexeme

theorem Among.kindsIn {sort : SourceTree → Prop} {forest : List SourceTree} (h : Among sort forest)
    (each : ∀ tree, sort tree → KindsIn kinds [tree]) : KindsIn kinds forest := by
  refine kindsIn_of_forall fun tree mem => ?_
  rcases h tree mem with ⟨lexeme, rfl, -⟩ | sorted
  · exact kindsIn_leaf lexeme
  · exact each tree sorted

theorem IsPlain.kindsIn {kind : Kind} {tree : SourceTree} (h : IsPlain kind tree)
    (mem : kind ∈ kinds) : KindsIn kinds [tree] := by
  cases h with
  | of _ => exact kindsIn_node mem (kindsIn_row _)

/-- The kinds of the nodes below a division. -/
def bodyKinds : List Kind :=
  [.sentence, .errorNode, .programIdParagraph, .commentEntryParagraph, .procedureSection,
    .procedureParagraph]

theorem IsBlock.kindsIn {tree : SourceTree} (h : IsBlock tree) : KindsIn bodyKinds [tree] := by
  cases h with
  | «section» _ body =>
      exact kindsIn_node (by decide)
        ((kindsIn_row _).append (body.kindsIn fun _ plain => plain.kindsIn (by decide)))
  | paragraph _ body =>
      exact kindsIn_node (by decide)
        ((kindsIn_row _).append (body.kindsIn fun _ plain => plain.kindsIn (by decide)))

theorem IsEntry.kindsIn {division : Division} {tree : SourceTree} (h : IsEntry division tree) :
    KindsIn bodyKinds [tree] := by
  cases division with
  | identification => rcases h with h | h | h <;> exact h.kindsIn (by decide)
  | environment => exact IsPlain.kindsIn h (by decide)
  | data => exact IsPlain.kindsIn h (by decide)
  | procedure =>
      rcases h with h | h
      · exact h.kindsIn (by decide)
      · exact h.kindsIn

/-- A division is the only node of its kind in its tree. -/
theorem IsDivision.kindsIn {division : Division} {tree : SourceTree}
    (h : IsDivision division tree) :
    ∃ children, tree = .node division.kind children ∧ KindsIn bodyKinds children := by
  cases h with
  | of _ body => exact ⟨_, rfl, (kindsIn_row _).append (body.kindsIn fun _ => IsEntry.kindsIn)⟩

end CobolTree.SourceTree
