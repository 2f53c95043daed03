import CobolTree.Proofs.Conversion.Contexts
import CobolTree.Proofs.Conversion.View
import CobolTree.Proofs.Grammar.Padding
import CobolTree.Proofs.Grammar.Row

/-!
Divisions read again where they stand. The padding in front of a division and the projection back
to the stream cancel: a division that its grammar accepts is the rule tree of what the grammar reads
of the text from the first token on, placed where that token begins (`read?_of_run`). Every division
of a source tree has its context in the rule tree of the whole text (`exists_context`).
-/

namespace CobolTree

open Conversion SourceTree

/-- Of what is read where it stands in the stream, every offset stays. -/
def Projection.inPlace : Projection := ⟨0, 0⟩

namespace Reparse

/-- The terminal of a piece that stands where it was read. -/
theorem terminal_inPlace (stream : Stream) (piece : Piece) : terminal stream .inPlace piece =
    stream.terminal (.grammarRule piece.rule.name) piece.text piece.range := by
  simp [terminal, Projection.range, Projection.offset, Projection.inPlace, Piece.range,
    Range.ofText]

theorem range_terminal_inPlace (stream : Stream) (piece : Piece) :
    (terminal stream .inPlace piece).range = piece.range := by
  rw [terminal_inPlace]
  rfl

/-- The terminals of a division that was read in place are its leaves. -/
theorem terminals_ruleTree (stream : Stream) (grammar : GrammarName) (rule : Rule)
    (parts : List GrammarTree) : (ruleTree stream grammar .inPlace (.node rule parts)).terminals =
      (Tree.leavesOf parts).map (terminal stream .inPlace) := by
  rw [RuleTree.terminals, LeafWalk.toList_ofTree, ruleTree]
  exact leavesOf_ruleTrees stream grammar .inPlace parts

section Shift

variable {grammar : GrammarName} {text : Text} {tree : GrammarTree} (bytes : Nat)

/-- A text is read at any offset as it is read alone. -/
theorem read?_shifted (h : division? grammar text = some tree) : ∃ last,
    grammar.division.read? false (Input.skip false ⟨bytes, text⟩) =
      some ⟨[Transport.tree ⟨.same, bytes⟩ tree], last⟩ ∧ (last.skip false).rest = [] := by
  obtain ⟨last, read, ends⟩ := read?_of_division? h
  have caseless : grammar.division.isCaseless = true := by cases grammar <;> rfl
  have moved := Transport.read?_input ⟨.same, bytes⟩ caseless false (Input.skipFrom false 0 text)
  rw [← Transport.skipFrom_text, Recasing.text_same, read, Nat.zero_add] at moved
  refine ⟨Transport.input ⟨.same, bytes⟩ last, moved, ?_⟩
  rw [Transport.skip_input, Transport.rest_input, ends]
  rfl

/-- Padding in front of a text moves what is read of it. -/
theorem division?_padded {padding : Text} (blank : ∀ c ∈ padding, Input.isFiller c = true) :
    division? grammar (padding ++ text) =
      (division? grammar text).map (Transport.tree ⟨.same, padding.byteLength⟩) := by
  obtain ⟨body, caseless, alone⟩ := exists_body grammar
  rw [(alone _).1, (alone _).1, skipFrom_padding blank, Transport.read?_input _ caseless]
  cases body.read? false (Input.skipFrom false 0 text) with
  | none => rfl
  | some reading => exact List.head?_map

end Shift

/-- The tree of a division has parts. -/
theorem isNode_of_division? {grammar : GrammarName} {text : Text} {tree : GrammarTree}
    (h : division? grammar text = some tree) : ∃ rule parts, tree = .node rule parts := by
  obtain ⟨last, read, -⟩ := read?_of_division? h
  obtain ⟨-, whole, body, -, division, -⟩ := unit_eq grammar
  have bears : body.bears = true := by
    cases grammar with
    | identification => cases division; rfl
    | environment => cases division; rfl
    | data => cases division; rfl
  rw [division] at read
  obtain ⟨inner, readInner, same⟩ := Expr.read?_rule read
  rw [if_neg Bool.false_ne_true, Expr.applied_of_trees
    (Expr.trees_ne_nil_of_bears bears readInner)] at same
  simp only [Reading.mk.injEq, List.cons.injEq, and_true] at same
  exact ⟨whole, inner.trees, same.1⟩

/-- A division that is read behind padding becomes the rule tree of what is read of its text where
it stands. -/
theorem read?_of_run {stream : Stream} {grammar : GrammarName} {padding text : Text} {base : Nat}
    {rule : RuleTree} (blank : ∀ c ∈ padding, Input.isFiller c = true)
    (h : run stream grammar ⟨padding.byteLength, base⟩ (padding ++ text) = .ok rule) :
    ∃ named parts last, grammar.division.read? false (Input.skip false ⟨base, text⟩) =
        some ⟨[.node named parts], last⟩ ∧
      (last.skip false).rest = [] ∧
        rule = ruleTree stream grammar .inPlace (.node named parts) := by
  unfold run at h
  rw [division?_padded blank] at h
  cases found : division? grammar text with
  | none => simp [found] at h
  | some tree =>
      obtain ⟨last, read, ends⟩ := read?_shifted base found
      obtain ⟨named, parts, rfl⟩ := isNode_of_division? found
      refine ⟨named, _, last, read, ends, ?_⟩
      -- both trees are the one that is read of the text alone, with its terminals moved
      have padded (piece : Piece) : terminal stream ⟨padding.byteLength, base⟩
          (Transport.piece ⟨.same, padding.byteLength⟩ piece) =
            (terminal (.ofText text) .inPlace piece).moveTo stream base := by
        have range : Projection.range ⟨padding.byteLength, base⟩
            (piece.start + padding.byteLength) piece.text =
              ⟨piece.range.start + base, piece.range.stop + base⟩ := by
          simp only [Projection.range, Projection.offset, Piece.range, Range.ofText,
            Range.mk.injEq]
          omega
        rw [terminal_inPlace, terminal, Transport.piece, Recasing.text_same, range]
        rfl
      have placed (piece : Piece) : terminal stream .inPlace
          (Transport.piece ⟨.same, base⟩ piece) =
            (terminal (.ofText text) .inPlace piece).moveTo stream base := by
        have range : (Transport.piece ⟨.same, base⟩ piece).range =
            ⟨piece.range.start + base, piece.range.stop + base⟩ := by
          simp only [Piece.range, Range.ofText, Transport.piece, Recasing.text_same,
            Nat.add_right_comm]
        rw [terminal_inPlace, terminal_inPlace, range, Transport.piece, Recasing.text_same]
        rfl
      have one : ruleTrees stream grammar ⟨padding.byteLength, base⟩
          ([.node named parts].map (Transport.tree ⟨.same, padding.byteLength⟩)) = _ :=
        ruleTrees_move _ padded _
      have two : ruleTrees stream grammar .inPlace
          ([.node named parts].map (Transport.tree ⟨.same, base⟩)) = _ :=
        ruleTrees_move _ placed _
      have same := (List.cons.inj (one.trans two.symm)).1
      simp only [found, Option.map_some, same] at h
      exact (Except.ok.inj h).symm

end Reparse

namespace Conversion

variable (stream : Stream)

/-! ### Accepted divisions -/

/-- A division that its grammar accepts is what the grammar reads from its first token on. -/
theorem read?_of_division {division : Division} {grammar : GrammarName}
    (named : GrammarName.ofDivision? division = some grammar) {tree : SourceTree} {start : Nat}
    {context : RuleTree}
    (h : Conversion.division stream division (locateAt start tree) = .ok (context, [])) :
    ∃ leading lexemes, tree.leaves = leading ++ lexemes ∧ Lexeme.significant leading = [] ∧
      ∃ rule parts last, grammar.division.read? false (Input.skip false
          ⟨start + (Lexeme.textOf leading).byteLength, Lexeme.textOf lexemes⟩) =
            some ⟨[.node rule parts], last⟩ ∧
        (last.skip false).rest = [] ∧
          context = Reparse.ruleTree stream grammar .inPlace (.node rule parts) := by
  unfold Conversion.division at h
  split at h
  · cases h
  · rename_i first others tokens
    simp only [named, Except.ok.injEq] at h
    obtain ⟨leading, rest, split, none, place, same⟩ :=
      byGrammar_eq stream grammar division start tokens
    refine ⟨leading, _, split, none, ?_⟩
    rw [same, readAs] at h
    split at h
    · rename_i rule read
      obtain ⟨rfl, -⟩ := Prod.mk.inj h
      rw [← place]
      exact Reparse.read?_of_run (fun c mem => Text.isFiller_of_mem_padding mem) read
    · cases h

/-- The context of a division, if its grammar accepts the division. -/
def accepted? (division : Division) (node : LocatedTree) : Option RuleTree :=
  match Conversion.division stream division node with
  | .ok (context, []) => some context
  | _ => none

theorem accepted?_eq_some_iff {division : Division} {node : LocatedTree} {context : RuleTree} :
    accepted? stream division node = some context ↔
      Conversion.division stream division node = .ok (context, []) := by
  unfold accepted?
  split
  · rename_i found same
    simp [same]
  · rename_i other
    exact ⟨nofun, fun same => absurd same (other context)⟩

/-! ### Contexts of divisions -/

/-- The division has a rule tree among those of a forest. -/
def HasContext (division : Division) (node : LocatedTree) (rules : List RuleTree) : Prop :=
  ∃ context reports, Conversion.division stream division node = .ok (context, reports) ∧
    context ∈ Tree.nodesOf rules

variable {stream}

theorem HasContext.mono {division : Division} {node : LocatedTree} {rules others : List RuleTree}
    (h : HasContext stream division node rules)
    (within : ∀ rule ∈ Tree.nodesOf rules, rule ∈ Tree.nodesOf others) :
    HasContext stream division node others := by
  obtain ⟨context, reports, converted, mem⟩ := h
  exact ⟨context, reports, converted, within _ mem⟩

theorem HasContext.cons {division : Division} {node : LocatedTree} {rules : List RuleTree}
    (h : HasContext stream division node rules) (rule : RuleTree) :
    HasContext stream division node (rule :: rules) :=
  h.mono fun _ found => List.mem_append_right _ found

theorem HasContext.append {division : Division} {node : LocatedTree} {rule : RuleTree}
    (h : HasContext stream division node [rule]) (rules : List RuleTree) :
    HasContext stream division node (rule :: rules) :=
  h.mono fun context found => by
    rw [Tree.nodesOf, Tree.nodesOf, List.append_nil] at found
    exact List.mem_append_left _ found

/-- What has a context among the parts of a unit has it in the rule of the unit. -/
theorem HasContext.unitRule {division : Division} {node : LocatedTree} {parts : List RuleTree}
    (h : HasContext stream division node parts) (unit : LocatedTree) (rules : List RuleTree) :
    HasContext stream division node (Conversion.unitRule stream unit parts :: rules) :=
  h.mono fun context found => by
    rw [Tree.nodesOf, Conversion.unitRule, Tree.nodes, Tree.nodesOf_append]
    exact List.mem_append_left _ (List.mem_cons_of_mem _ (List.mem_append_left _ found))

/-- Below a part of a unit, the only division is the part itself. -/
theorem hasContext_plainPart {tree : SourceTree} (part : IsPlainPart tree) {start : Nat}
    {result : RuleTree × List Diagnostic}
    (converted : plainPart stream (locateAt start tree) = .ok result) {division : Division}
    {node : LocatedTree} (mem : node ∈ (locateAt start tree).nodes)
    (kind : LocatedTree.kind node = division.kind) :
    HasContext stream division node [result.1] := by
  cases part with
  | stray plain =>
      have kinds := plain.kindsIn (List.mem_singleton_self _) start node (by
        rw [locateAllAt, locateAllAt, Tree.nodesOf, Tree.nodesOf, List.append_nil]
        exact mem)
      rw [kind, List.mem_singleton] at kinds
      cases division <;> cases kinds
  | @division found _ conforms =>
      obtain ⟨children, rfl, kinds⟩ := conforms.kindsIn
      rw [locateAt, Tree.nodes, List.mem_cons] at mem
      rcases mem with rfl | below
      · have same : found = division := by
          cases found <;> cases division <;> first | rfl | cases kind
        subst same
        have isNode : Division.ofKind?
            (LocatedTree.kind (locateAt start (.node found.kind children))) = some found :=
          Division.ofKind?_eq_some_iff.mpr rfl
        rw [plainPart, isNode] at converted
        refine ⟨result.1, result.2, converted, ?_⟩
        obtain ⟨sketch, -⟩ := spec_division stream conforms converted
        cases rule : result.1 with
        | leaf => simp [rule, RuleTree.sketch, RuleTree.kind?, Tree.label?] at sketch
        | node => exact List.mem_append_left _ List.mem_cons_self
      · have inner := kinds start node below
        rw [kind] at inner
        cases division <;> simp [bodyKinds, Division.kind] at inner

/-- Every division in the parts of a unit has its context among the rules of the parts. -/
theorem hasContext_partRules {begun : Bool} {parts : List SourceTree} (h : UnitParts begun parts)
    {division : Division} : ∀ start, ∀ node ∈ Tree.nodesOf (locateAllAt start parts),
      LocatedTree.kind node = division.kind →
        HasContext stream division node (partRules stream (locateAllAt start parts)) := by
  refine h.induction (motive := fun _ parts => ∀ start,
    ∀ node ∈ Tree.nodesOf (locateAllAt start parts), LocatedTree.kind node = division.kind →
      HasContext stream division node (partRules stream (locateAllAt start parts))) ?_ ?_ ?_ ?_
  · intro begun start node mem
    cases mem
  · intro begun lexeme rest ih start node mem kind
    rw [partRules_leaf]
    exact ih _ node mem kind
  · intro begun later sort children rest other part ih start node mem kind
    obtain ⟨result, converted⟩ := part.spec.converts stream start
    rw [partRules_plainPart stream rest part converted]
    rw [locateAllAt, Tree.nodesOf, List.mem_append] at mem
    rcases mem with here | behind
    · exact (hasContext_plainPart part converted here kind).append _
    · exact (ih _ node behind kind).cons _
  · intro parts rest opens inner below behind start node mem kind
    rw [partRules_nested]
    rw [locateAllAt, Tree.nodesOf, List.mem_append, locateAt, Tree.nodes, List.mem_cons] at mem
    rcases mem with (rfl | mem) | mem
    · cases division <;> cases kind
    · exact (below start node mem kind).unitRule _ _
    · exact (behind _ node mem kind).cons _

/-- Every division in a source unit has its context among the rules of the unit. -/
theorem hasContext_rootRules {children : List SourceTree} (units : Among IsUnit children)
    {division : Division} (start : Nat) {node : LocatedTree}
    (mem : node ∈ Tree.nodesOf (locateAllAt start children))
    (kind : LocatedTree.kind node = division.kind) :
    HasContext stream division node (rootRules stream (locateAllAt start children)) := by
  induction children generalizing start with
  | nil => cases mem
  | cons tree rest ih =>
      obtain ⟨first, later⟩ := among_cons.mp units
      rw [locateAllAt, Tree.nodesOf, List.mem_append] at mem
      rcases first with ⟨lexeme, rfl, trivial⟩ | unit
      · rw [locateAllAt, locateAt, rootRules, if_pos trivial]
        rcases mem with none | behind
        · cases none
        · exact ih later _ behind
      · cases unit with
        | @of parts inner _ =>
            rw [locateAllAt, locateAt, rootRules, if_pos rfl]
            rw [locateAt, Tree.nodes, List.mem_cons] at mem
            rcases mem with (rfl | here) | behind
            · cases division <;> cases kind
            · exact (hasContext_partRules inner start node here kind).unitRule _ _
            · exact (ih later _ behind).cons _

end Conversion

/-- Every division of a parsed text has its context in the rule tree of the text. -/
theorem Analysis.exists_contexts (settings : Settings) (stream : Stream) :
    ∃ analysis, ofStream settings stream = .ok analysis ∧
      analysis.parsed = Parsed.ofText settings stream.text ∧
      ∀ division : Division, ∀ node ∈ analysis.parsed.tree.locate.nodes,
        LocatedTree.kind node = division.kind →
          HasContext stream division node [analysis.adapted.tree] := by
  obtain ⟨children, parsed, units, -, converted⟩ := ofStream_eq settings stream
  refine ⟨_, converted, rfl, fun division node mem kind => ?_⟩
  rw [parsed, locate, locateAt, Tree.nodes, List.mem_cons] at mem
  rcases mem with rfl | below
  · cases division <;> cases kind
  · refine (hasContext_rootRules units 0 below kind).mono fun rule found => ?_
    simp only [startRule, RuleTree.bounded, Tree.nodesOf, Tree.nodes, List.mem_append,
      List.mem_cons, found, true_or, or_true]

namespace Analysis

/-- Every division of the parsed text has its context in the rule tree, and where its grammar
accepts it, the division and its context are told of. -/
def Rereads (stream : Stream) (tells : Division → LocatedTree → RuleTree → Prop)
    (analysis : Analysis) : Prop :=
  ∀ division : Division, ∀ node ∈ analysis.parsed.tree.locate.nodes,
    LocatedTree.kind node = division.kind → ∃ context reports,
      Conversion.division stream division node = .ok (context, reports) ∧
        context ∈ analysis.adapted.tree.nodes ∧ (reports = [] → tells division node context)

variable {settings : Settings} {tells : Division → LocatedTree → RuleTree → Prop}

theorem parsed_of_ofStream {stream : Stream} {analysis : Analysis}
    (h : ofStream settings stream = .ok analysis) :
    analysis.parsed = Parsed.ofText settings stream.text := by
  obtain ⟨same, analysed, parsed, -⟩ := exists_contexts settings stream
  obtain rfl : same = analysis := Except.ok.inj (analysed.symm.trans h)
  exact parsed

/-- A division that its grammar accepts and its context are told of. -/
theorem Rereads.tells_of_accepted? {stream : Stream} {analysis : Analysis}
    (h : analysis.Rereads stream tells) {division : Division} {node : LocatedTree}
    {context : RuleTree} (mem : node ∈ analysis.parsed.tree.locate.nodes)
    (kind : LocatedTree.kind node = division.kind)
    (accepted : Conversion.accepted? stream division node = some context) :
    tells division node context := by
  obtain ⟨other, reports, converted, -, told⟩ := h division node mem kind
  have same := converted.symm.trans ((accepted?_eq_some_iff stream).mp accepted)
  cases same
  exact told rfl

/-- What holds of accepted divisions in the text of a stream holds of those in its analysis. -/
theorem exists_rereads (stream : Stream)
    (each : ∀ division : Division, ∀ node ∈ (Parsed.ofText settings stream.text).tree.locate.nodes,
      LocatedTree.kind node = division.kind → ∀ context,
        Conversion.division stream division node = .ok (context, []) →
          tells division node context) :
    ∃ analysis, ofStream settings stream = .ok analysis ∧ analysis.Rereads stream tells := by
  obtain ⟨analysis, analysed, parsed, contexts⟩ := exists_contexts settings stream
  refine ⟨analysis, analysed, fun division node mem kind => ?_⟩
  obtain ⟨context, reports, converted, found⟩ := contexts division node mem kind
  rw [Tree.nodesOf, Tree.nodesOf, List.append_nil] at found
  refine ⟨context, reports, converted, found, ?_⟩
  rintro rfl
  rw [parsed] at mem
  exact each division node mem kind context converted

end Analysis

end CobolTree
