import CobolTree.Proofs.Conversion.Structural
import CobolTree.Proofs.Grammar.Transport
import CobolTree.Proofs.Source.Capitals

/-!
The conversion of a text in capitals. Every part of a source tree becomes the same rules in capitals
as it does otherwise, over terminals in capitals, and a division that its grammar refuses is refused
for the same reason (`Conversion.plainPart_upper`). The places of terminals are read off the lines
and bytes of the stream, which are not told by the case of letters.
-/

namespace CobolTree

/-! ### Parts in capitals -/

def Lexeme.upper (lexeme : Lexeme) : Lexeme := { lexeme with text := lexeme.text.upper }

/-- The leaf in capitals, of the same kind and at the same place. -/
def Leaf.upper (leaf : Leaf) : Leaf := { leaf with text := leaf.text.upper }

/-- The terminal in capitals, of the same type and at the same place. -/
def Terminal.upper (terminal : Terminal) : Terminal := { terminal with text := terminal.text.upper }

/-- The tree with its leaves in capitals. -/
def LocatedTree.upper (tree : LocatedTree) : LocatedTree := tree.map id Leaf.upper

/-- The rule tree with its terminals in capitals. -/
def RuleTree.upper (tree : RuleTree) : RuleTree := tree.mapTerminals Terminal.upper

theorem RuleTree.upper_bounded (kind : RuleKind) (children : List RuleTree) :
    (bounded kind children).upper = bounded kind (children.map upper) :=
  mapTerminals_bounded Terminal.upper kind children

theorem Leaf.range_upper (leaf : Leaf) : leaf.upper.range = leaf.range := by
  rw [Leaf.range, Range.ofText]
  exact congrArg (Range.mk leaf.start <| leaf.start + ·) (Text.byteLength_upper leaf.text)

namespace LocatedTree

variable (tree : LocatedTree)

theorem upper_leaf (leaf : Leaf) : upper (.leaf leaf) = .leaf leaf.upper := rfl

theorem upper_node (extent : Extent) (children : List LocatedTree) :
    upper (.node extent children) = .node extent (children.map upper) := by
  rw [upper, Tree.map, Tree.mapAll_eq_map]
  rfl

theorem kind_upper : tree.upper.kind = tree.kind := by
  cases tree with
  | leaf leaf => rfl
  | node extent children => rfl

theorem range_upper : tree.upper.range = tree.range := by
  cases tree with
  | leaf leaf => exact leaf.range_upper
  | node extent children => rfl

theorem text_upper : tree.upper.text = tree.text.upper := by
  rw [text, upper, Tree.leaves_map, List.flatMap_map, text, Text.upper_flatMap]
  rfl

theorem tokens_upper : tree.upper.tokens = tree.tokens.map Leaf.upper := by
  rw [tokens, upper, Tree.leaves_map, List.filter_map]
  rfl

theorem ownTokens_upper : tree.upper.ownTokens = tree.ownTokens.map Leaf.upper := by
  rw [ownTokens, upper, Tree.ownLeaves_map, List.filter_map]
  rfl

theorem isUnit_upper : isUnit tree.upper = isUnit tree := by
  rw [isUnit, kind_upper, upper, Tree.isNode_map, isUnit]

theorem outerTokens_upper (forest : List LocatedTree) :
    outerTokens (forest.map upper) = (outerTokens forest).map Leaf.upper := by
  have units : (fun tree => !isUnit (upper tree)) = fun tree => !isUnit tree :=
    funext fun tree => congrArg not (isUnit_upper tree)
  have leaves (forest : List LocatedTree) :
      Tree.leavesOf (forest.map upper) = (Tree.leavesOf forest).map Leaf.upper :=
    Tree.leavesOf_map id Leaf.upper forest
  rw [outerTokens, outerTokens, List.filter_map, Function.comp_def, units, leaves, List.filter_map]
  rfl

/-- Blanks have no case. -/
theorem blanked_upper : blanked tree.upper = (blanked tree).upper := by
  rw [blanked, text_upper, range_upper, Text.blank_upper, blanked, upper_node, List.map_singleton,
    upper_node, List.map_singleton, upper_leaf, Leaf.upper, Text.upper_blank]

theorem childNodes_upper : tree.upper.childNodes = tree.childNodes.map upper :=
  Tree.childNodes_map id Leaf.upper tree

end LocatedTree

/-! ### Places -/

namespace Stream

variable (text : Text)

theorem terminal_upper (type : TerminalType) (piece : Text) (range : Range) :
    (ofText text.upper).terminal type piece.upper range =
      ((ofText text).terminal type piece range).upper := by
  rw [terminal, position_upper]
  rfl

theorem endOfInput_upper :
    (ofText text.upper).endOfInput = (ofText text).endOfInput.upper := by
  have bytes : (ofText text.upper).text.byteLength = (ofText text).text.byteLength :=
    text.byteLength_upper
  rw [endOfInput, bytes]
  exact terminal_upper text .endOfInput "<EOF>".toList _

theorem terminalOf_upper (leaf : Leaf) :
    (ofText text.upper).terminalOf leaf.upper = ((ofText text).terminalOf leaf).upper := by
  rw [terminalOf, leaf.range_upper]
  exact terminal_upper text (.lexeme leaf.kind) leaf.text leaf.range

theorem map_terminalOf_upper (leaves : List Leaf) :
    (leaves.map Leaf.upper).map (ofText text.upper).terminalOf =
      (leaves.map (ofText text).terminalOf).map Terminal.upper := by
  rw [List.map_map, List.map_map]
  exact List.map_congr_left fun leaf _ => terminalOf_upper text leaf

theorem map_terminalOf_upper? (leaf : Option Leaf) :
    (leaf.map Leaf.upper).map (ofText text.upper).terminalOf =
      (leaf.map (ofText text).terminalOf).map Terminal.upper := by
  cases leaf with
  | none => rfl
  | some leaf => exact congrArg some (terminalOf_upper text leaf)

theorem ruleOf_upper (kind : RuleKind) (leaves : List Leaf) :
    (ofText text.upper).ruleOf kind (leaves.map Leaf.upper) =
      ((ofText text).ruleOf kind leaves).upper := by
  rw [ruleOf, ruleOf, RuleTree.upper, RuleTree.mapTerminals_ofTerminals, map_terminalOf_upper]

end Stream

namespace Conversion

open LocatedTree

variable (text : Text)

/-- The result in capitals, with the same problems. -/
def upperConverted (converted : Converted RuleTree) : Converted RuleTree :=
  converted.map fun result => (result.1.upper, result.2)

/-! ### Procedures -/

theorem map_leaf_terminalOf_upper (leaves : List Leaf) :
    (leaves.map Leaf.upper).map
        (fun leaf => (.leaf ((Stream.ofText text.upper).terminalOf leaf) : RuleTree)) =
      (leaves.map fun leaf => (.leaf ((Stream.ofText text).terminalOf leaf) : RuleTree)).map
        RuleTree.upper := by
  rw [List.map_map, List.map_map]
  exact List.map_congr_left fun leaf _ => congrArg Tree.leaf (Stream.terminalOf_upper text leaf)

theorem unrecognized_upper (node : LocatedTree) :
    unrecognized (.ofText text.upper) node.upper = (unrecognized (.ofText text) node).upper := by
  rw [unrecognized, tokens_upper, Stream.ruleOf_upper, unrecognized]

theorem sentence_upper (node : LocatedTree) :
    sentence (.ofText text.upper) node.upper = (sentence (.ofText text) node).upper := by
  rw [sentence, kind_upper, ownTokens_upper, Stream.ruleOf_upper, unrecognized_upper, sentence]
  split
  · rfl
  · rfl

theorem map_sentence_upper (nodes : List LocatedTree) :
    (nodes.map LocatedTree.upper).map (sentence (.ofText text.upper)) =
      (nodes.map (sentence (.ofText text))).map RuleTree.upper := by
  rw [List.map_map, List.map_map]
  exact List.map_congr_left fun node _ => sentence_upper text node

theorem sectionParts_upper (node : LocatedTree) :
    sectionParts (.ofText text.upper) node.upper =
      (sectionParts (.ofText text) node).map (List.map RuleTree.upper) := by
  rw [sectionParts, sectionParts, ownTokens_upper, childNodes_upper, range_upper]
  cases node.ownTokens with
  | nil => rfl
  | cons name header =>
      have first := Stream.ruleOf_upper text .procedureSectionHeader (name :: header)
      rw [List.map_cons] at first ⊢
      simp only [first, map_sentence_upper]
      rfl

theorem paragraph_upper (node : LocatedTree) :
    paragraph (.ofText text.upper) node.upper =
      (paragraph (.ofText text) node).map RuleTree.upper := by
  rw [paragraph, paragraph, ownTokens_upper, childNodes_upper, range_upper]
  cases node.ownTokens with
  | nil => rfl
  | cons name header =>
      have first := Stream.ruleOf_upper text .paragraphName [name]
      rw [List.map_cons, List.map_nil] at first
      simp only [List.map_cons, first, map_leaf_terminalOf_upper, map_sentence_upper, Except.map,
        RuleTree.upper_bounded, List.map_append]

theorem procedurePart_upper (node : LocatedTree) :
    procedurePart (.ofText text.upper) node.upper =
      (procedurePart (.ofText text) node).map RuleTree.upper := by
  rw [procedurePart, kind_upper, paragraph_upper, sentence_upper, procedurePart]
  split
  · rfl
  · rfl

theorem closed_upper (current : Option (List RuleTree)) :
    closed (current.map (List.map RuleTree.upper)) = (closed current).map RuleTree.upper := by
  cases current with
  | none => rfl
  | some parts =>
      exact congrArg ([·]) (RuleTree.upper_bounded .procedureSection parts).symm

theorem procedureParts_upper (current : Option (List RuleTree)) (nodes : List LocatedTree) :
    procedureParts (.ofText text.upper) (current.map (List.map RuleTree.upper))
        (nodes.map LocatedTree.upper) =
      (procedureParts (.ofText text) current nodes).map (List.map RuleTree.upper) := by
  induction nodes generalizing current with
  | nil => exact congrArg Except.ok (closed_upper current)
  | cons node rest ih =>
      rw [List.map_cons, procedureParts, procedureParts, kind_upper, sectionParts_upper,
        procedurePart_upper, closed_upper]
      split
      · cases sectionParts (.ofText text) node with
        | error failure => rfl
        | ok parts =>
            have others := ih (some parts)
            rw [Option.map_some] at others
            simp only [Except.map, bind, Except.bind, others]
            cases procedureParts (.ofText text) (some parts) rest with
            | error failure => rfl
            | ok trees => simp [pure, Except.pure]
      · cases procedurePart (.ofText text) node with
        | error failure => rfl
        | ok part =>
            cases current with
            | some parts =>
                have others := ih (some (parts ++ [part]))
                simpa [Except.map, bind, Except.bind] using others
            | none =>
                have others := ih none
                rw [Option.map_none] at others
                simp only [Except.map, bind, Except.bind, Option.map_none, others]
                cases procedureParts (.ofText text) none rest with
                | error failure => rfl
                | ok trees => rfl

theorem procedure_upper (node : LocatedTree) :
    procedure (.ofText text.upper) node.upper =
      (procedure (.ofText text) node).map RuleTree.upper := by
  have parts := procedureParts_upper text none node.childNodes
  rw [procedure, procedure, ownTokens_upper, childNodes_upper, range_upper]
  cases node.ownTokens with
  | nil => rfl
  | cons name header =>
      have first := Stream.ruleOf_upper text .procedureDivisionHeader (name :: header)
      rw [List.map_cons] at first ⊢
      rw [Option.map_none] at parts
      simp only [parts, first, Except.map, bind, Except.bind]
      cases procedureParts (.ofText text) none node.childNodes with
      | error failure => rfl
      | ok trees => simp only [pure, Except.pure, RuleTree.upper_bounded, List.map_cons]

/-! ### Divisions -/

/-- A grammar reads in capitals what it reads otherwise. -/
theorem division?_upper (grammar : GrammarName) (input : Text) :
    Reparse.division? grammar input.upper =
      (Reparse.division? grammar input).map (Transport.tree ⟨.capitals, 0⟩) := by
  have read : grammar.unit.read? false ⟨0, input.upper⟩ = _ :=
    Transport.read?_input ⟨.capitals, 0⟩ grammar.isCaseless_unit false ⟨0, input⟩
  rw [Reparse.division?, Reparse.division?, read]
  cases grammar.unit.read? false ⟨0, input⟩ with
  | none => rfl
  | some reading =>
      cases trees : reading.trees with
      | nil => simp [trees]
      | cons first others =>
          have parts := List.head?_map (f := Transport.tree ⟨.capitals, 0⟩) (l := first.children)
          have below := Tree.children_map id (Transport.piece ⟨.capitals, 0⟩) first
          simp only [Option.map_some, Transport.trees_reading, trees, List.map_cons, List.head?_cons,
            Option.bind_some, ← parts]
          exact congrArg List.head? below

/-- Messages name rules alone, so a division is refused in the same words. -/
theorem run_upper (grammar : GrammarName) (projection : Projection) (input : Text) :
    Reparse.run (.ofText text.upper) grammar projection input.upper =
      Reparse.mapOutcome Terminal.upper 0
        (Reparse.run (.ofText text) grammar projection input) := by
  refine Reparse.run_move ⟨.capitals, 0⟩ (division?_upper grammar input) ?_ ?_ ?_
  · intro _
    exact Transport.agrees_trace ⟨.capitals, 0⟩ grammar.isCaseless_unit false false ⟨0, input⟩
      .none
  · intro piece
    rw [Reparse.terminal, Reparse.terminal, Transport.piece]
    have range : projection.range (piece.start + 0) piece.text.upper =
        projection.range piece.start piece.text := by
      rw [Projection.range, Text.byteLength_upper]
      rfl
    exact range ▸ Stream.terminal_upper text _ piece.text _
  · intro first second agrees
    rcases agrees.offset with same | ⟨rfl, rfl⟩
    · rw [same]
      rfl
    · rfl

theorem refused_upper (grammar : GrammarName) (leaves : List Leaf) (reason : String) :
    refused (.ofText text.upper) grammar (leaves.map Leaf.upper) reason =
      (refused (.ofText text) grammar leaves reason).upper := by
  have parts (row : List Terminal) : (row.map Terminal.upper).map (.leaf : Terminal → RuleTree) =
      (row.map .leaf).map (RuleTree.mapTerminals Terminal.upper) := by
    rw [List.map_map, List.map_map]
    rfl
  rw [refused, refused, Stream.map_terminalOf_upper, RuleTree.upper, RuleTree.mapTerminals_node, parts,
    List.head?_map, List.getLast?_map]
  rfl

/-- A division is read in capitals behind the same padding. -/
theorem byGrammar_upper (grammar : GrammarName) (division : Division) (node : LocatedTree)
    (first : Leaf) :
    byGrammar (.ofText text.upper) grammar division node.upper first.upper =
      ((byGrammar (.ofText text) grammar division node first).1.upper,
        (byGrammar (.ofText text) grammar division node first).2) := by
  have own : ((node.upper.text).dropBytes? (first.start - node.upper.range.start)).getD [] =
      (((node.text).dropBytes? (first.start - node.range.start)).getD []).upper := by
    rw [text_upper, range_upper, Text.dropBytes?_upper]
    exact Option.getD_map Text.upper [] _
  have padded : (Stream.ofText text).paddingBefore first.start ++
      (((node.text).dropBytes? (first.start - node.range.start)).getD []).upper =
        ((Stream.ofText text).paddingBefore first.start ++
          ((node.text).dropBytes? (first.start - node.range.start)).getD []).upper := by
    rw [Text.upper_append, Stream.paddingBefore, Text.upper_padding]
  have start : first.upper.start = first.start := rfl
  simp only [byGrammar, own, start, Stream.paddingBefore_upper, padded, run_upper, tokens_upper]
  cases Reparse.run (.ofText text) grammar _ _ with
  | ok tree => rfl
  | error failure =>
      simp only [Reparse.mapOutcome, refused_upper, grammarReport, Stream.position_upper,
        Nat.add_zero]

theorem division_upper (which : Division) (node : LocatedTree) :
    division (.ofText text.upper) which node.upper =
      upperConverted (division (.ofText text) which node) := by
  rw [division, division, tokens_upper, range_upper]
  cases node.tokens with
  | nil => rfl
  | cons first others =>
      rw [List.map_cons]
      cases GrammarName.ofDivision? which with
      | some grammar =>
          simp only [byGrammar_upper]
          rfl
      | none =>
          simp only [procedure_upper, upperConverted]
          cases procedure (.ofText text) node with
          | error failure => rfl
          | ok tree => rfl

/-- A part of a unit becomes the same rules in capitals, with the same problems. -/
theorem plainPart_upper (node : LocatedTree) :
    plainPart (.ofText text.upper) node.upper = upperConverted (plainPart (.ofText text) node) := by
  rw [plainPart, kind_upper, plainPart]
  cases Division.ofKind? (LocatedTree.kind node) with
  | some which => exact division_upper text which node
  | none =>
      simp only [unrecognized_upper]
      rfl

/-! ### Units -/

theorem trailerName_upper (name : List Terminal) :
    trailerName (name.map Terminal.upper) = (trailerName name).map RuleTree.upper := by
  rw [trailerName, trailerName, List.isEmpty_map]
  split
  · rfl
  · rw [← RuleTree.mapTerminals_ofTerminals]
    rfl

theorem trailerParts_upper (name : List Terminal) (leaves : List Leaf) :
    trailerParts (.ofText text.upper) (name.map Terminal.upper) (leaves.map Leaf.upper) =
      (trailerParts (.ofText text) name leaves).map RuleTree.upper := by
  induction leaves generalizing name with
  | nil => exact trailerName_upper name
  | cons leaf rest ih =>
      have kind : leaf.upper.kind = leaf.kind := rfl
      rw [List.map_cons, trailerParts, trailerParts, Stream.terminalOf_upper, trailerName_upper,
        kind]
      split
      · have others := ih []
        rw [List.map_nil] at others
        rw [others, List.map_append]
        rfl
      · have others := ih (name ++ [(Stream.ofText text).terminalOf leaf])
        rw [List.map_append] at others
        exact others

theorem trailer_upper (leaves : List Leaf) :
    trailer (.ofText text.upper) (leaves.map Leaf.upper) =
      (trailer (.ofText text) leaves).map RuleTree.upper := by
  have isEnd : ((fun leaf : Leaf => !Text.sameWord leaf.text "END".toList) ∘ Leaf.upper) =
      fun leaf => !Text.sameWord leaf.text "END".toList :=
    funext fun leaf => congrArg not (Recasing.capitals.sameWord_text_left leaf.text _)
  have rest := trailerParts_upper text []
  simp only [List.map_nil] at rest
  simp only [trailer, List.takeWhile_map, List.dropWhile_map, isEnd, List.isEmpty_map,
    Stream.ruleOf_upper, ← List.map_take, ← List.map_drop, map_leaf_terminalOf_upper, rest,
    ← List.map_append, ← RuleTree.upper_bounded]
  -- what stands before END, and the trailer behind it, may both be missing
  split
  · split
    · rfl
    · rfl
  · split
    · rfl
    · rfl

theorem unitRule_upper (unit : LocatedTree) (parts : List RuleTree) :
    unitRule (.ofText text.upper) unit.upper (parts.map RuleTree.upper) =
      (unitRule (.ofText text) unit parts).upper := by
  have own : outerTokens unit.upper.children = (outerTokens unit.children).map Leaf.upper := by
    rw [← outerTokens_upper, upper, Tree.children_map]
    rfl
  rw [unitRule, unitRule, own, ownTokens_upper, trailer_upper, RuleTree.upper,
    RuleTree.mapTerminals_node, List.map_append, List.head?_map, List.getLast?_map,
    Stream.map_terminalOf_upper?, Stream.map_terminalOf_upper?]
  rfl

theorem partRules_upper (forest : List LocatedTree) :
    partRules (.ofText text.upper) (forest.map LocatedTree.upper) =
      (partRules (.ofText text) forest).map RuleTree.upper := by
  induction forest using Tree.forest_induction with
  | nil => rw [List.map_nil, partRules, partRules, List.map_nil]
  | leaf value rest ih => rw [List.map_cons, upper_leaf, partRules, partRules, ih]
  | node extent children rest below behind =>
      have rule := unitRule_upper text (.node extent children) (partRules (.ofText text) children)
      have part := plainPart_upper text (.node extent children)
      rw [upper_node] at rule part
      rw [List.map_cons, upper_node, partRules, partRules, below, behind, rule, part,
        List.map_append]
      split
      · rfl
      · cases plainPart (.ofText text) (.node extent children) with
        | error failure => rfl
        | ok result => rfl

theorem partReports_upper (forest : List LocatedTree) :
    partReports (.ofText text.upper) (forest.map LocatedTree.upper) =
      partReports (.ofText text) forest := by
  induction forest with
  | nil => rfl
  | cons tree rest ih =>
      cases tree with
      | leaf value => exact ih
      | node extent children =>
          have part := plainPart_upper text (.node extent children)
          rw [upper_node] at part
          rw [List.map_cons, upper_node, partReports, partReports, ih, part]
          split
          · rfl
          · cases plainPart (.ofText text) (.node extent children) with
            | error failure => rfl
            | ok result => rfl

theorem unitReports_upper (forest : List LocatedTree) :
    unitReports (.ofText text.upper) (forest.map LocatedTree.upper) =
      unitReports (.ofText text) forest := by
  induction forest using Tree.forest_induction with
  | nil => rw [List.map_nil, unitReports, unitReports]
  | leaf value rest ih => rw [List.map_cons, upper_leaf, unitReports, unitReports, ih]
  | node extent children rest below behind =>
      rw [List.map_cons, upper_node, unitReports, unitReports, below, behind, partReports_upper]

theorem rootRules_upper (forest : List LocatedTree) :
    rootRules (.ofText text.upper) (forest.map LocatedTree.upper) =
      (rootRules (.ofText text) forest).map RuleTree.upper := by
  induction forest with
  | nil => rfl
  | cons tree rest ih =>
      cases tree with
      | leaf leaf =>
          have trivial : leaf.upper.isTrivia = leaf.isTrivia := rfl
          rw [List.map_cons, upper_leaf, rootRules, rootRules, ih, trivial, Stream.terminalOf_upper]
          split
          · rfl
          · rfl
      | node extent children =>
          have rule := unitRule_upper text (.node extent children) (partRules (.ofText text) children)
          have stray := unrecognized_upper text (.node extent children)
          rw [upper_node] at rule stray
          rw [List.map_cons, upper_node, rootRules, rootRules, partRules_upper, rule, stray, ih]
          split
          · rfl
          · rfl

theorem startRule_upper (leaves : List Leaf) (parts : List RuleTree) :
    startRule (.ofText text.upper) (leaves.map Leaf.upper) (parts.map RuleTree.upper) =
      (startRule (.ofText text) leaves parts).upper := by
  rw [startRule, startRule, Stream.endOfInput_upper, RuleTree.upper, RuleTree.mapTerminals_node,
    ← RuleTree.upper_bounded, List.head?_map, List.getLast?_map, Stream.map_terminalOf_upper?,
    Stream.map_terminalOf_upper?]
  rfl

theorem blankUnits_upper (forest : List LocatedTree) :
    blankUnits (forest.map LocatedTree.upper) = (blankUnits forest).map LocatedTree.upper := by
  rw [blankUnits, blankUnits, List.map_map, List.map_map]
  refine List.map_congr_left fun tree _ => ?_
  rw [Function.comp_apply, Function.comp_apply, isUnit_upper]
  split
  · exact blanked_upper tree
  · rfl

end Conversion

end CobolTree
