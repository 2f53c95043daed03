import CobolTree.Proofs.Production.Local
import CobolTree.Proofs.Production.Names
import CobolTree.Proofs.Production.Origins
import CobolTree.Proofs.Token.Partition
import CobolTree.Proofs.Tree.Kinds
import CobolTree.Proofs.Tree.Subtrees

/-!
The units of a tree and their trailers. Every part of a located forest lies in the bytes that the
forest takes (`LocatedTree.Inside`), so what is read later lies behind what was read before
(`Outcome.inside_located`). The name in a trailer is its third token, if a program can be named so
(`LocatedTree.trailerName`); it is the name that the parser reads there
(`Production.nameAfter_trailer`).
-/

namespace CobolTree

namespace LocatedTree

/-- The units in a forest, at any depth. -/
def unitsOf (forest : List LocatedTree) : List LocatedTree :=
  (Tree.nodesOf forest).filter (kind · == .programUnit)

/-- The name in a trailer: what stands behind END PROGRAM, if it can name a program. -/
def nameAfter (trailer : List Leaf) : Option Leaf := trailer[2]?.filter Leaf.namesProgram

/-- The name in the trailer of a unit. -/
def trailerName (unit : LocatedTree) : Option Leaf := nameAfter unit.ownTokens

theorem unitsOf_append (s t : List LocatedTree) : unitsOf (s ++ t) = unitsOf s ++ unitsOf t := by
  rw [unitsOf, Tree.nodesOf_append, List.filter_append]
  rfl

theorem unitsOf_leaves (leaves : List Leaf) :
    unitsOf (leaves.map (Tree.leaf : Leaf → LocatedTree)) = [] := by
  rw [unitsOf, Tree.nodesOf_map_leaf, List.filter_nil]

theorem unitsOf_unit {extent : Extent} (isUnit : extent.kind = .programUnit)
    (children : List LocatedTree) :
    unitsOf [.node extent children] = .node extent children :: unitsOf children := by
  simp [unitsOf, Tree.nodesOf, Tree.nodes, kind, isUnit]

theorem unitsOf_other {extent : Extent} (other : extent.kind ≠ .programUnit)
    (children : List LocatedTree) : unitsOf [.node extent children] = unitsOf children := by
  simp [unitsOf, Tree.nodesOf, Tree.nodes, kind, other]

theorem mem_of_nameAfter {trailer : List Leaf} {name : Leaf} (h : name ∈ nameAfter trailer) :
    name ∈ trailer :=
  List.mem_of_getElem? (Option.filter_eq_some_iff.mp h).1

theorem ownTokensOf_sublist (forest : List LocatedTree) :
    (ownTokensOf forest).Sublist (Tree.leavesOf forest) := by
  refine List.filter_sublist.trans ?_
  induction forest with
  | nil => exact .slnil
  | cons tree rest ih =>
      rw [Tree.leavesOf]
      cases tree with
      | leaf leaf => exact ih.cons_cons leaf
      | node label children => exact ih.trans (List.sublist_append_right _ _)

/-- A token that stands right in a forest is a leaf of the forest. -/
theorem mem_leavesOf_of_own {forest : List LocatedTree} {leaf : Leaf}
    (h : leaf ∈ ownTokensOf forest) : leaf ∈ Tree.leavesOf forest :=
  (ownTokensOf_sublist forest).subset h

/-! ### Where the parts of a forest lie -/

/-- All leaves of a forest begin between two offsets, and all nodes lie between them, too, each with
its leaves between its bounds. -/
structure Inside (first last : Nat) (forest : List LocatedTree) : Prop where
  leaves : ∀ leaf ∈ Tree.leavesOf forest, first ≤ leaf.start ∧ leaf.start < last
  nodes : ∀ node ∈ Tree.nodesOf forest, first ≤ (range node).start ∧ (range node).stop ≤ last
  below : ∀ node ∈ Tree.nodesOf forest, ∀ leaf ∈ Tree.leavesOf node.children,
    (range node).start ≤ leaf.start ∧ leaf.start < (range node).stop

end LocatedTree

namespace SourceTree

open LocatedTree

/-- A row of lexemes that are not empty lies in the bytes of its text. -/
theorem between_of_mem_row {lexemes : List Lexeme} (solid : ∀ lexeme ∈ lexemes, lexeme.text ≠ [])
    {start : Nat} {leaf : Leaf} (mem : leaf ∈ Leaf.row start lexemes) :
    start ≤ leaf.start ∧ leaf.start < start + (Lexeme.textOf lexemes).byteLength := by
  obtain ⟨before, after, split, -⟩ := Leaf.exists_split_of_mem_row mem
  have some := List.length_pos_iff.mpr (solid leaf.toLexeme (by simp [split]))
  have size := Text.length_le_byteLength leaf.text
  have bounds := Leaf.range_le_of_mem_row mem
  simp only [Leaf.range, Range.ofText] at bounds
  omega

/-- Every node in a located forest is a node of the forest, put at its place. -/
theorem exists_placed {forest : List SourceTree} {start : Nat} {node : LocatedTree}
    (mem : node ∈ Tree.nodesOf (locateAllAt start forest)) :
    ∃ (place : Nat) (kind : Kind) (children : List SourceTree),
      node = .node ⟨kind, Range.ofText place (textOf children)⟩ (locateAllAt place children) ∧
        Tree.leavesOf children ⊆ Tree.leavesOf forest ∧ start ≤ place ∧
          place + (textOf children).byteLength ≤ start + (textOf forest).byteLength := by
  obtain ⟨before, kind, children, after, split, same⟩ := exists_subtree mem
  refine ⟨_, kind, children, same, ?_, Nat.le_add_right _ _, ?_⟩
  · rw [split]
    exact List.subset_append_of_subset_right _ (List.subset_append_left _ _)
  · rw [textOf_eq forest, split, Lexeme.textOf_append, Lexeme.textOf_append,
      Text.byteLength_append, Text.byteLength_append, ← textOf_eq]
    omega

/-- A located forest whose leaves are not empty lies in the bytes of its text. -/
theorem inside_locateAllAt {forest : List SourceTree}
    (solid : ∀ lexeme ∈ Tree.leavesOf forest, lexeme.text ≠ []) (start : Nat) :
    Inside start (start + (textOf forest).byteLength) (locateAllAt start forest) where
  leaves := by
    intro leaf mem
    rw [leavesOf_locateAllAt_eq_row] at mem
    exact between_of_mem_row solid mem
  nodes := by
    intro node mem
    obtain ⟨place, kind, children, rfl, -, from_, upTo⟩ := exists_placed mem
    exact ⟨from_, upTo⟩
  below := by
    intro node mem leaf below
    obtain ⟨place, kind, children, rfl, among, -, -⟩ := exists_placed mem
    rw [Tree.children, leavesOf_locateAllAt_eq_row] at below
    exact between_of_mem_row (fun lexeme mem => solid lexeme (among mem)) below

theorem pairwise_row (start : Nat) (lexemes : List Lexeme) :
    (Leaf.row start lexemes).Pairwise fun first second => first.start ≤ second.start := by
  induction lexemes generalizing start with
  | nil => exact .nil
  | cons lexeme rest ih =>
      refine .cons (fun leaf mem => ?_) (ih _)
      exact Nat.le_trans (Nat.le_add_right _ _) (Leaf.range_le_of_mem_row mem).1

/-- The tokens right below a node stand in the order of the text. -/
theorem pairwise_ownTokens {forest : List SourceTree} {start : Nat} {node : LocatedTree}
    (mem : node ∈ Tree.nodesOf (locateAllAt start forest)) :
    node.ownTokens.Pairwise fun first second => first.start ≤ second.start := by
  obtain ⟨place, kind, children, rfl, -⟩ := exists_placed mem
  have row := pairwise_row place (Tree.leavesOf children)
  rw [← leavesOf_locateAllAt_eq_row] at row
  exact row.sublist (ownTokensOf_sublist _)

end SourceTree

namespace Outcome

open SourceTree LocatedTree

variable {α : Type} {cursor : Cursor} {outcome : Outcome α}

@[simp] theorem located_withValue {β : Type} (value : β) :
    (outcome.withValue value).located cursor = outcome.located cursor := rfl

theorem text_ne_nil_of_reads {tokens : List Token} {last : Cursor}
    (reads : cursor.Reads tokens last) : ∀ lexeme ∈ Token.lexemes tokens, lexeme.text ≠ [] := by
  intro lexeme mem
  obtain ⟨token, inside, rfl⟩ := List.mem_map.mp mem
  obtain ⟨context, place, after, read⟩ := reads.exists_next? inside
  exact Cursor.text_ne_nil_of_next? read

/-- The trees of an outcome lie between the cursors before and behind it. -/
theorem inside_located (h : outcome.Faithful cursor) :
    Inside cursor.position.index outcome.next.position.index (outcome.located cursor) := by
  have solid : ∀ lexeme ∈ Tree.leavesOf outcome.trees, lexeme.text ≠ [] := by
    rw [h.leaves]
    exact text_ne_nil_of_reads h.reads
  have stop : outcome.next.position.index =
      cursor.position.index + (textOf outcome.trees).byteLength := by
    rw [h.reads.position_eq, Position.index_advance, textOf_eq, h.leaves]
  rw [stop]
  exact inside_locateAllAt solid _

theorem index_le_next (h : outcome.Faithful cursor) :
    cursor.position.index ≤ outcome.next.position.index := by
  rw [h.reads.position_eq, Position.index_advance]
  exact Nat.le_add_right _ _

end Outcome

namespace Production

open LocatedTree

theorem ownTokensOf_trivia (cursor : Cursor) :
    ownTokensOf ((trivia .programUnit cursor).located cursor) = [] := by
  rw [Outcome.ownTokensOf_located (flat_trivia .programUnit cursor), tokens_significant_trivia]
  rfl

/-- A part of a unit other than its trailer has no tokens right below the unit. -/
theorem ownTokensOf_unitStep (settings : Settings) (enclosing : List ProgramIdentity)
    (state : UnitState) (cursor : Cursor) :
    let lead := trivia .programUnit cursor
    ownTokensOf
      ((lead.andThen (unitStep settings enclosing state lead.next)).located cursor) = [] := by
  intro lead
  obtain ⟨kind, children, trees⟩ := trees_unitStep settings enclosing state lead.next
  rw [Outcome.located_andThen (flat_trivia .programUnit cursor).faithful,
    SourceTree.ownTokensOf_append, ownTokensOf_trivia, Outcome.located, trees]
  exact SourceTree.ownTokensOf_cons (.inr rfl) [] _

theorem unitsOf_flat {α : Type} {cursor : Cursor} {outcome : Outcome α} (h : outcome.Flat cursor) :
    unitsOf (outcome.located cursor) = [] := by
  rw [Outcome.located_flat h, unitsOf_leaves]

theorem unitsOf_of_kindsIn (kinds : List Kind) {forest : List SourceTree}
    (h : SourceTree.KindsIn kinds forest) (other : .programUnit ∉ kinds) (start : Nat) :
    unitsOf (SourceTree.locateAllAt start forest) = [] := by
  apply List.filter_eq_nil_iff.mpr
  intro node mem isUnit
  have kind := h start node mem
  rw [beq_iff_eq.mp isUnit] at kind
  exact other kind

/-- No unit is nested in a part of another kind. -/
theorem unitsOf_unitPart (settings : Settings) (state : UnitState) (cursor : Cursor) :
    unitsOf ((unitPart settings state cursor).located cursor) = [] := by
  rw [Outcome.located]
  cases header : cursor.divisionHeader? with
  | none =>
      rw [unitPart_of_stray settings state header, Outcome.trees_withValue,
        (gathered_strayText .programUnit cursor).trees]
      refine unitsOf_of_kindsIn [.errorNode] ?_ (by decide) _
      exact SourceTree.kindsIn_node List.mem_cons_self (SourceTree.kindsIn_row _)
  | some found =>
      obtain ⟨tree, trees, conforms⟩ := isDivision_division settings header
      obtain ⟨children, rfl, below⟩ := conforms.kindsIn
      rw [unitPart_of_header settings state header, Outcome.trees_withValue, Outcome.trees_andThen,
        (trees_checkOrder settings _ _ _).1, List.nil_append, trees]
      refine unitsOf_of_kindsIn (found.kind :: SourceTree.bodyKinds) ?_
        (by cases found <;> decide) _
      exact SourceTree.kindsIn_node List.mem_cons_self fun start node mem =>
        List.mem_cons_of_mem _ (below start node mem)

/-- A unit is its parts under a node, and a local report at most. -/
theorem closeUnit_eq (start : Cursor) (parts : Outcome UnitState) :
    ∃ ending : Outcome Unit, ending.Local ∧ ending.Flat parts.next ∧ ending.next = parts.next ∧
      closeUnit start parts = (parts.andThen ending).under .programUnit := by
  refine ⟨_, ?_, ?_, ?_, rfl⟩
  · exact local_ite (local_pure _) (local_reportAt _ rfl) _
  · exact flat_ite (flat_pure _) (flat_reportAt _ _) _
  · split
    · rfl
    · exact next_reportAt _ _ _

/-! ### Names in trailers -/

/-- The third token of a trailer is the name that is read in it, if it can name a program. -/
theorem nameAfter_trailer (current : Option ProgramIdentity) {cursor : Cursor}
    (h : cursor.atEndProgram = true) :
    nameAfter (ownTokensOf ((trailer current cursor).located cursor)) =
      (trailerName? cursor).map Token.leaf := by
  obtain ⟨first, second, ahead, words⟩ := Cursor.atEndProgram_iff.mp h
  obtain ⟨middle, after, one, two⟩ := Cursor.ahead_two_eq_iff.mp ahead
  have isProgram := (Bool.and_eq_true_iff.mp words).2
  rw [Outcome.ownTokensOf_located (flat_trailer current cursor),
    tokens_significant_trailer current one two isProgram, trailerName?,
    next_bump_eatWord one two isProgram, nameAfter]
  cases found : (eatIf .endProgram namesProgram after).value with
  | some token =>
      have names : token.leaf.namesProgram = true := test_of_eatIf found
      simp [names]
  | none =>
      cases period : (expectPeriod .endProgram .endProgram (checkTrailerName current none
          (eatIf .endProgram namesProgram after).next).next).value with
      | none => rfl
      | some token =>
          have other : token.leaf.namesProgram = false := by
            simp [Leaf.namesProgram, Token.leaf, kind_of_expectPeriod period]
          simp [other]

/-! ### Units as they were read -/

/-- The unit is what the parts of a unit were read as at some place. -/
def IsRead (settings : Settings) (unit : LocatedTree) : Prop :=
  ∃ enclosing place,
    unit = (unitRounds settings enclosing .fresh place).top .programUnit place

end Production

namespace Parsed

open LocatedTree

/-- The units of a parse, at any depth. -/
def units (parsed : Parsed) : List LocatedTree := unitsOf [parsed.tree.locate]

theorem units_ofText (settings : Settings) (text : Text) :
    (ofText settings text).units =
      unitsOf ((Production.programUnits settings (.start text)).located (.start text)) := by
  rw [units, ofText, SourceTree.locate, SourceTree.locateAt]
  exact unitsOf_other (by simp) _

/-- Every unit of a text is what its parts were read as. -/
theorem exists_unitRounds (settings : Settings) (text : Text) {unit : LocatedTree}
    (mem : unit ∈ (ofText settings text).units) : Production.IsRead settings unit := by
  obtain ⟨below, isUnit⟩ := List.mem_filter.mp mem
  rw [Tree.nodesOf, Tree.nodesOf, List.append_nil] at below
  have kind : LocatedTree.kind unit = .programUnit := eq_of_beq isUnit
  have inner : LocatedTree.kind unit ≠ .sourceUnit := by
    rw [kind]
    decide
  obtain ⟨place, part, made, origin⟩ := exists_origin settings text below inner
  obtain ⟨enclosing, rfl⟩ := origin.of_unit kind
  have located := made.located
  rw [Production.located_closeUnit] at located
  exact ⟨enclosing, place, (List.cons.inj located).1.symm⟩

end Parsed

end CobolTree
