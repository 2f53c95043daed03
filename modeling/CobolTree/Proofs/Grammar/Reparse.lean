import CobolTree.Grammar.Reparse
import CobolTree.Proofs.Grammar.Reading

/-!
Reading a division again. All three division grammars keep what they read (`keeps_division`) and go
on to the end of the input (`unit_eq`), and the padding in front of a division is filler; so the
leaves of the grammar tree cover the text of the division (`covers_of_division?`). A projection
moves them to where the division stands, and the terminals of the rule tree cover it there
(`covers_of_run`).
-/

namespace CobolTree

/-- The terminal has the text and is placed where the text stands in the stream. -/
def Stream.StandsFor (stream : Stream) (terminal : Terminal) (start : Nat) (text : Text) : Prop :=
  ∃ type, terminal = stream.terminal type text (Range.ofText start text)

namespace Input

/-- Filler characters in front of a text are skipped before anything else. -/
theorem skipFrom_append {filler : Text} (h : ∀ c ∈ filler, isFiller c = true) (offset : Nat)
    (text : Text) :
    skipFrom false offset (filler ++ text) = skipFrom false (offset + filler.byteLength) text := by
  induction filler generalizing offset with
  | nil => rfl
  | cons c rest ih =>
      obtain ⟨first, others⟩ := List.forall_mem_cons.mp h
      rw [List.cons_append, skipFrom_blank_cons first, Text.byteLength, ← Nat.add_assoc]
      exact ih others _

end Input

theorem Text.isFiller_of_mem_padding {text : Text} {c : Char} (mem : c ∈ text.padding) :
    Input.isFiller c = true := by
  obtain ⟨d, -, rfl⟩ := List.mem_map.mp mem
  split
  · rfl
  · rfl

namespace GrammarName

/-- The grammar of a division without the blanks around it. -/
def division : GrammarName → Expr
  | identification => Grammar.identificationDivision
  | environment => Grammar.environmentDivision
  | data => Grammar.dataDivision

end GrammarName

namespace Reparse

/-- A grammar reads blanks, its division, and the end of the input; the division is a rule. -/
theorem unit_eq (grammar : GrammarName) : ∃ named whole body,
    grammar.unit =
      .rule named false (.seq Grammar.leading (.seq grammar.division Grammar.eoi)) ∧
        grammar.division = .rule whole false body ∧ whole.name = grammar.divisionRule := by
  cases grammar with
  | identification => exact ⟨_, _, _, rfl, rfl, rfl⟩
  | environment => exact ⟨_, _, _, rfl, rfl, rfl⟩
  | data => exact ⟨_, _, _, rfl, rfl, rfl⟩

theorem keeps_division (grammar : GrammarName) : grammar.division.keeps = true := by
  cases grammar <;> rfl

/-- The end of the input is read where nothing is left. -/
theorem eq_nil_of_read?_eoi {input : Input} {reading : Reading}
    (h : Grammar.eoi.read? false input = some reading) : input.rest = [] := by
  cases left : input.rest with
  | nil => rfl
  | cons c rest => simp [Grammar.eoi, Expr.read?, left] at h

/-- The division tree of an input is what the division reads behind the first blanks, and nothing
but blanks is behind it. -/
theorem read?_of_division? {grammar : GrammarName} {input : Text} {tree : GrammarTree}
    (h : division? grammar input = some tree) : ∃ next,
      grammar.division.read? false (Input.skipFrom false 0 input) = some ⟨[tree], next⟩ ∧
        (next.skip false).rest = [] := by
  obtain ⟨named, whole, body, unit, division, -⟩ := unit_eq grammar
  unfold division? at h
  split at h
  · rename_i reading read
    rw [unit] at read
    obtain ⟨parts, readParts, rfl⟩ := Expr.read?_rule read
    obtain ⟨leading, others, readLeading, readOthers, rfl⟩ := Expr.read?_seq readParts
    obtain ⟨found, final, readDivision, readEnd, rfl⟩ := Expr.read?_seq readOthers
    have nothing : leading = ⟨[], ⟨0, input⟩⟩ := (Option.some.inj readLeading).symm
    subst nothing
    refine ⟨found.next, ?_, eq_nil_of_read?_eoi readEnd⟩
    rw [division] at readDivision ⊢
    obtain ⟨inner, -, rfl⟩ := Expr.read?_rule readDivision
    rw [Expr.applied_of_trees (by simp)] at h
    have first : Expr.applied whole (Input.skipFrom false 0 input) inner = tree := Option.some.inj h
    rw [← first]
    exact readDivision
  · cases h

/-- The leaves of a division tree cover the text of the division, behind padding. -/
theorem covers_of_division? {grammar : GrammarName} {padding text : Text} {tree : GrammarTree}
    {stops : Nat → Prop} (ends : Input.StopsComments stops ⟨padding.byteLength, text⟩)
    (blank : ∀ c ∈ padding, Input.isFiller c = true)
    (h : division? grammar (padding ++ text) = some tree) :
    Covers stops Piece.StandsFor padding.byteLength text tree.leaves := by
  obtain ⟨next, read, none⟩ := read?_of_division? h
  rw [Input.skipFrom_append blank, Nat.zero_add] at read
  obtain ⟨leading, leads, blanks⟩ := Input.exists_moves_skipFrom false padding.byteLength text
  obtain ⟨consumed, reads⟩ := grammar.division.exists_reads false _ _ read
  obtain ⟨trailing, trails, filler⟩ := next.exists_moves_skip false
  have split : text = leading ++ (consumed ++ trailing) := by
    have rest := leads.rest
    rw [reads.moves.rest, trails.rest, none, List.append_nil] at rest
    exact rest
  have endsHere := ends.of_moves leads
  have covers := reads.covers (keeps_division grammar) rfl stops endsHere
  have behind := filler stops (endsHere.of_moves reads.moves)
  rw [reads.moves.offset] at behind
  have all := covers.before behind
  rw [leads.offset] at all
  have alone : Tree.leavesOf [tree] = tree.leaves := List.append_nil _
  rw [split, ← alone]
  exact all.behind (blanks stops ⟨ends, nofun⟩)

/-- A division tree is the rule of the division, with parts or without. -/
theorem division?_eq {grammar : GrammarName} {input : Text} {tree : GrammarTree}
    (h : division? grammar input = some tree) :
    (∃ piece, tree = .leaf piece) ∨
      ∃ whole parts, tree = .node whole parts ∧ whole.name = grammar.divisionRule := by
  obtain ⟨next, read, -⟩ := read?_of_division? h
  obtain ⟨named, whole, body, -, division, name⟩ := unit_eq grammar
  rw [division] at read
  obtain ⟨inner, -, same⟩ := Expr.read?_rule read
  cases same
  unfold Expr.applied
  split
  · exact .inl ⟨_, rfl⟩
  · exact .inr ⟨whole, _, rfl, name⟩

mutual

theorem leaves_ruleTree (stream : Stream) (grammar : GrammarName) (projection : Projection)
    (tree : GrammarTree) :
    (ruleTree stream grammar projection tree).leaves =
      tree.leaves.map (terminal stream projection) := by
  cases tree with
  | leaf piece => rfl
  | node rule parts =>
      rw [ruleTree, RuleTree.bounded, Tree.leaves, Tree.leaves]
      exact leavesOf_ruleTrees stream grammar projection parts

/-- The terminals of a rule tree are the leaves of the grammar tree in order, each moved to where
it stands in the stream. -/
theorem leavesOf_ruleTrees (stream : Stream) (grammar : GrammarName) (projection : Projection)
    (forest : List GrammarTree) :
    Tree.leavesOf (ruleTrees stream grammar projection forest) =
      (Tree.leavesOf forest).map (terminal stream projection) := by
  cases forest with
  | nil => rfl
  | cons tree rest =>
      rw [ruleTrees, Tree.leavesOf, Tree.leavesOf, List.map_append]
      rw [leaves_ruleTree, leavesOf_ruleTrees]

end

mutual

theorem nodes_ruleTree (stream : Stream) (grammar : GrammarName) (projection : Projection)
    (tree : GrammarTree) :
    (ruleTree stream grammar projection tree).nodes =
      tree.nodes.map (ruleTree stream grammar projection) := by
  cases tree with
  | leaf piece => rfl
  | node rule parts =>
      rw [ruleTree, RuleTree.bounded, Tree.nodes, Tree.nodes, List.map_cons, nodesOf_ruleTrees,
        ruleTree, RuleTree.bounded]

/-- The contexts of a forest are those of its nodes. -/
theorem nodesOf_ruleTrees (stream : Stream) (grammar : GrammarName) (projection : Projection)
    (forest : List GrammarTree) :
    Tree.nodesOf (ruleTrees stream grammar projection forest) =
      (Tree.nodesOf forest).map (ruleTree stream grammar projection) := by
  cases forest with
  | nil => rfl
  | cons tree rest =>
      rw [ruleTrees, Tree.nodesOf, Tree.nodesOf, List.map_append, nodes_ruleTree,
        nodesOf_ruleTrees]

end

/-- Behind the padding, a projection puts pieces as far into the division as they were read. -/
theorem standsFor_terminal (stream : Stream) (padding base : Nat) (piece : Piece) (offset : Nat)
    (text : Text) (h : piece.StandsFor (padding + offset) text) :
    stream.StandsFor (terminal stream ⟨padding, base⟩ piece) (base + offset) text := by
  obtain ⟨start, same⟩ := h
  refine ⟨.grammarRule piece.rule.name, ?_⟩
  have range : Projection.range ⟨padding, base⟩ (padding + offset) text =
      Range.ofText (base + offset) text := by
    simp only [Projection.range, Projection.offset, Range.ofText, Range.mk.injEq]
    omega
  rw [terminal, start, same, range]

/-- The terminals of a division that its grammar has read cover the text of the division, where
the division stands in the stream. -/
theorem covers_of_run {stream : Stream} {grammar : GrammarName} {padding text : Text} {base : Nat}
    {tree : RuleTree} {stops : Nat → Prop} (ends : Input.StopsComments stops ⟨base, text⟩)
    (blank : ∀ c ∈ padding, Input.isFiller c = true)
    (h : run stream grammar ⟨padding.byteLength, base⟩ (padding ++ text) = .ok tree) :
    Covers stops stream.StandsFor base text tree.leaves := by
  unfold run at h
  split at h
  · rename_i found read
    -- behind the padding, comments stop where they do in the stream
    let padded (place : Nat) : Prop := stops (base + (place - padding.byteLength))
    have moved (place : Nat) (stop : padded (padding.byteLength + place)) :
        stops (base + place) := by
      simpa [padded] using stop
    have inside : Input.StopsComments padded ⟨padding.byteLength, text⟩ := by
      intro before rest split body behind parts line breaks
      have stop := ends before rest split body behind parts line breaks
      simpa only [padded, Nat.add_assoc, Nat.add_sub_cancel_left] using stop
    have covers : Covers stops stream.StandsFor (base + 0) text
        (found.leaves.map (terminal stream ⟨padding.byteLength, base⟩)) :=
      .map moved (standsFor_terminal stream padding.byteLength base)
        (covers_of_division? inside blank read)
    rw [← leaves_ruleTree stream grammar ⟨padding.byteLength, base⟩ found] at covers
    split at h
    · rename_i single leaf
      cases h
      rw [leaf] at covers
      exact covers
    · cases h
      exact covers
  · cases h

end Reparse

end CobolTree
