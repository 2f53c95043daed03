import CobolTree.Proofs.Production.Origins

/-!
Where the divisions of a parsed text were read. No production but that of divisions makes a node of
a division's kind, so every such node, at whatever depth, is what a division was read as from a
place where its header stands (`Parsed.exists_place`).
-/

namespace CobolTree.Parsed

open LocatedTree

/-- A node of a division's kind is what the division was read as where its header stands. -/
theorem exists_place (settings : Settings) (text : Text) {division : Division} {node : LocatedTree}
    (mem : node ∈ (ofText settings text).tree.locate.nodes)
    (kind : LocatedTree.kind node = division.kind) : ∃ place : Cursor,
      place.divisionHeader? = some division ∧
        (Production.division settings division place).located place = [node] := by
  have inner : LocatedTree.kind node ≠ .sourceUnit := by
    rw [kind]
    cases division <;> decide
  obtain ⟨place, part, made, origin⟩ := exists_origin settings text mem inner
  obtain ⟨header, rfl⟩ := origin.of_division kind
  exact ⟨place, header, made.located⟩

/-- A node of a division's kind is the tree of the division, placed where its header stands, over
the tokens that are read there. -/
theorem exists_division (settings : Settings) (text : Text) {division : Division}
    {node : LocatedTree} (mem : node ∈ (ofText settings text).tree.locate.nodes)
    (kind : LocatedTree.kind node = division.kind) : ∃ (place : Cursor) (tree : SourceTree),
      place.divisionHeader? = some division ∧
        (Production.division settings division place).trees = [tree] ∧
          node = SourceTree.locateAt place.position.index tree ∧
            tree.leaves = Token.lexemes (Production.division settings division place).tokens := by
  obtain ⟨place, header, located⟩ := exists_place settings text mem kind
  obtain ⟨tree, trees, -⟩ := Production.isDivision_division settings header
  have leaves := (Production.faithful_division settings division place).leaves
  rw [Outcome.located, trees, SourceTree.locateAllAt, SourceTree.locateAllAt] at located
  rw [trees, Tree.leavesOf_cons, Tree.leavesOf, List.append_nil] at leaves
  exact ⟨place, tree, header, trees, (List.cons.inj located).1.symm, leaves⟩

end CobolTree.Parsed
