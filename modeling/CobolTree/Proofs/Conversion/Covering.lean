import CobolTree.Proofs.Conversion.Total
import CobolTree.Proofs.Grammar.Reparse
import CobolTree.Proofs.Token.Filler

/-!
Divisions are covered by the terminals of their rules. A row of leaves is covered by its tokens
(`covers_row`), and so is every node whose tokens stay in a row. A division with a grammar is
covered by what the grammar reads from its first token on, or by its tokens where the grammar
refuses it (`covers_byGrammar`). A PROCEDURE DIVISION is covered part by part, with a section open
up to the next one (`covers_procedureParts`).
-/

namespace CobolTree

open Conversion

/-! ### Leaves of rule trees -/

theorem RuleTree.leaves_bounded (kind : RuleKind) (children : List RuleTree) :
    (RuleTree.bounded kind children).leaves = Tree.leavesOf children := rfl

theorem RuleTree.leaves_ofTerminals (kind : RuleKind) (terminals : List Terminal) :
    (RuleTree.ofTerminals kind terminals).leaves = terminals :=
  Tree.leavesOf_map_leaf terminals

theorem Stream.leavesOf_terminals (stream : Stream) (leaves : List Leaf) :
    Tree.leavesOf (leaves.map fun leaf => (.leaf (stream.terminalOf leaf) : RuleTree)) =
      leaves.map stream.terminalOf := by
  rw [← Tree.leavesOf_map_leaf (leaves.map stream.terminalOf), List.map_map]
  rfl

theorem Stream.leaves_ruleOf (stream : Stream) (kind : RuleKind) (leaves : List Leaf) :
    (stream.ruleOf kind leaves).leaves = leaves.map stream.terminalOf :=
  RuleTree.leaves_ofTerminals kind _

/-! ### Rows -/

/-- The tokens of a row cover its text. -/
theorem covers_row (stream : Stream) {stops : Nat → Prop} {lexemes : List Lexeme}
    (legible : ∀ lexeme ∈ lexemes, lexeme.Legible) {start : Nat}
    (ends : ∀ leaf ∈ Leaf.row start lexemes, leaf.kind = .comment → stops leaf.range.stop) :
    Covers stops stream.StandsFor start (Lexeme.textOf lexemes)
      (((Leaf.row start lexemes).filter (!·.isTrivia)).map stream.terminalOf) := by
  induction lexemes generalizing start with
  | nil => exact .gap .nil
  | cons lexeme rest ih =>
      obtain ⟨here, behind⟩ := List.forall_mem_cons.mp legible
      rw [Leaf.row, List.forall_mem_cons] at ends
      have others := ih behind ends.2
      rw [Leaf.row, Lexeme.textOf_cons]
      by_cases trivial : lexeme.isTrivia = true
      · rw [List.filter_cons_of_neg (by simp [trivial])]
        exact others.behind (here.isFiller trivial ends.1)
      · rw [List.filter_cons_of_pos (by simp [trivial]), List.map_cons, ← List.singleton_append]
        have one : Covers stops stream.StandsFor start lexeme.text
            [stream.terminalOf ⟨lexeme, start⟩] :=
          .single here.text_ne_nil ⟨.lexeme lexeme.kind, rfl⟩
        exact one.append others

/-- Where the first token of a row begins, and what stands before it. -/
theorem exists_first {start : Nat} {lexemes : List Lexeme} {first : Leaf} {others : List Leaf}
    (h : (Leaf.row start lexemes).filter (!·.isTrivia) = first :: others) :
    ∃ leading rest, lexemes = leading ++ first.toLexeme :: rest ∧
      Lexeme.significant leading = [] ∧
        first.start = start + (Lexeme.textOf leading).byteLength := by
  induction lexemes generalizing start with
  | nil => cases h
  | cons lexeme rest ih =>
      rw [Leaf.row] at h
      by_cases trivial : lexeme.isTrivia = true
      · rw [List.filter_cons_of_neg (by simp [trivial])] at h
        obtain ⟨leading, behind, split, none, place⟩ := ih h
        refine ⟨lexeme :: leading, behind, by rw [split, List.cons_append], ?_, ?_⟩
        · rw [Lexeme.significant_cons_of_trivia trivial, none]
        · rw [place, Lexeme.textOf_cons, Text.byteLength_append, Nat.add_assoc]
      · rw [List.filter_cons_of_pos (by simp [trivial])] at h
        obtain ⟨rfl, -⟩ := List.cons.inj h
        exact ⟨[], rest, rfl, rfl, rfl⟩

namespace Conversion

open SourceTree

/-- A forest of lexemes as they are read, from the offset on where it stands, with comments that end
where they `stops`: those among the lexemes, and those that grammars find in the divisions that they
accept. -/
structure Settled (stream : Stream) (stops : Nat → Prop) (start : Nat) (forest : List SourceTree) :
    Prop where
  legible : Legible forest
  comments : ∀ leaf ∈ Leaf.row start (Tree.leavesOf forest), leaf.kind = .comment →
    stops leaf.range.stop
  accepted : ∀ division : Division, ∀ node ∈ Tree.nodesOf (locateAllAt start forest),
    LocatedTree.kind node = division.kind → (GrammarName.ofDivision? division).isSome = true →
      ∀ context, Conversion.division stream division node = .ok (context, []) →
        Input.StopsComments stops ⟨(LocatedTree.range node).start, LocatedTree.text node⟩

namespace Settled

variable {stream : Stream} {stops : Nat → Prop} {start : Nat} {tree : SourceTree}
  {forest s t : List SourceTree}

/-- Where comments may stop anywhere, there is nothing more to ask for. -/
theorem of_legible (legible : Legible forest) : Settled stream (fun _ => True) start forest where
  legible := legible
  comments _ _ _ := True.intro
  accepted _ _ _ _ _ _ _ _ _ _ _ _ _ _ _ := True.intro

theorem append (h : Settled stream stops start (s ++ t)) :
    Settled stream stops start s ∧ Settled stream stops (start + (textOf s).byteLength) t := by
  have comments := h.comments
  have accepted := h.accepted
  rw [Tree.leavesOf_append, Leaf.row_append] at comments
  rw [locateAllAt_append, Tree.nodesOf_append] at accepted
  obtain ⟨first, behind⟩ := legible_append.mp h.legible
  exact ⟨⟨first, fun leaf mem => comments leaf (List.mem_append_left _ mem),
      fun division node mem => accepted division node (List.mem_append_left _ mem)⟩,
    ⟨behind, fun leaf mem => comments leaf (List.mem_append_right _ mem),
      fun division node mem => accepted division node (List.mem_append_right _ mem)⟩⟩

theorem cons {rest : List SourceTree} (h : Settled stream stops start (tree :: rest)) :
    Settled stream stops start [tree] ∧
      Settled stream stops (start + (SourceTree.text tree).byteLength) rest := by
  have parts := Settled.append (s := [tree]) (t := rest) h
  have alone : textOf [tree] = SourceTree.text tree := by
    rw [textOf_cons]
    exact List.append_nil _
  rwa [alone] at parts

/-- What is below a node begins where the node does. -/
theorem inside {kind : Kind} {children : List SourceTree}
    (h : Settled stream stops start [.node kind children]) :
    Settled stream stops start children where
  legible lexeme mem := h.legible lexeme (List.mem_append_left _ mem)
  comments leaf mem := h.comments leaf (by
    rwa [Tree.leavesOf_cons, Tree.leaves, Tree.leavesOf, List.append_nil])
  accepted division node mem := h.accepted division node
    (List.mem_append_left _ (List.mem_cons_of_mem _ mem))

theorem leaves (h : Settled stream stops start [tree]) :
    (∀ lexeme ∈ tree.leaves, lexeme.Legible) ∧ ∀ leaf ∈ Leaf.row start tree.leaves,
      leaf.kind = .comment → stops leaf.range.stop := by
  have all : Tree.leavesOf [tree] = tree.leaves := List.append_nil _
  rw [← all]
  exact ⟨h.legible, h.comments⟩

/-- A row of lexemes is settled if its lexemes are. -/
theorem row {lexemes : List Lexeme} (h : Settled stream stops start (row lexemes)) :
    (∀ lexeme ∈ lexemes, lexeme.Legible) ∧ ∀ leaf ∈ Leaf.row start lexemes,
      leaf.kind = .comment → stops leaf.range.stop := by
  rw [← leavesOf_row lexemes]
  exact ⟨h.legible, h.comments⟩

/-- A leaf that carries no meaning is filler. -/
theorem isFiller {lexeme : Lexeme} (h : Settled stream stops start [.leaf lexeme])
    (trivial : lexeme.isTrivia = true) :
    IsFiller stops start (SourceTree.text (.leaf lexeme)) := by
  have text : SourceTree.text (.leaf lexeme) = lexeme.text := List.append_nil _
  obtain ⟨legible, ends⟩ := h.leaves
  rw [text]
  exact (legible lexeme List.mem_cons_self).isFiller trivial (ends _ List.mem_cons_self)

end Settled

/-- The tokens of a tree cover its text. -/
theorem covers_tokens {stream : Stream} {stops : Nat → Prop} {tree : SourceTree} {start : Nat}
    (settled : Settled stream stops start [tree]) :
    Covers stops stream.StandsFor start (SourceTree.text tree)
      ((locateAt start tree).tokens.map stream.terminalOf) := by
  obtain ⟨legible, ends⟩ := settled.leaves
  rw [tokens_locateAt, text_eq_textOf]
  exact covers_row stream legible ends

/-- Nodes that are converted one by one cover the text of the forest, if each covers its own. -/
theorem covers_map {stream : Stream} {stops : Nat → Prop} {sort : SourceTree → Prop}
    {convert : LocatedTree → RuleTree} {forest : List SourceTree} (among : Among sort forest)
    {start : Nat} (settled : Settled stream stops start forest)
    (isNode : ∀ tree, sort tree → tree.isNode = true)
    (each : ∀ tree, sort tree → ∀ start, Settled stream stops start [tree] →
      Covers stops stream.StandsFor start (SourceTree.text tree)
        (convert (locateAt start tree)).leaves) :
    Covers stops stream.StandsFor start (textOf forest)
      (Tree.leavesOf (((locateAllAt start forest).filter Tree.isNode).map convert)) := by
  induction forest generalizing start with
  | nil => exact .gap .nil
  | cons tree rest ih =>
      obtain ⟨here, behind⟩ := settled.cons
      obtain ⟨first, later⟩ := among_cons.mp among
      have others := ih later behind
      rw [textOf_cons, locateAllAt]
      rcases first with ⟨lexeme, rfl, trivial⟩ | sorted
      · rw [List.filter_cons_of_neg (by rw [isNode_locateAt]; exact Bool.false_ne_true)]
        exact others.behind (here.isFiller trivial)
      · rw [List.filter_cons_of_pos (by rw [isNode_locateAt, isNode tree sorted]), List.map_cons,
          Tree.leavesOf_cons]
        exact (each tree sorted start here).append others

end Conversion

namespace Conversion

variable (stream : Stream) {stops : Nat → Prop}

open SourceTree

/-! ### Divisions with a grammar -/

/-- What becomes of a division by the text that it has from its first token on. -/
def readAs (grammar : GrammarName) (division : Division) (node : LocatedTree) (first : Leaf)
    (text : Text) : RuleTree × List Diagnostic :=
  let padding := stream.paddingBefore first.start
  match Reparse.run stream grammar ⟨padding.byteLength, first.start⟩ (padding ++ text) with
  | .ok rule => (rule, [])
  | .error failure =>
      (refused stream grammar node.tokens failure.message, [grammarReport stream division failure])

/-- A division is read by its grammar from its first token on. -/
theorem byGrammar_eq (grammar : GrammarName) (division : Division) {tree : SourceTree}
    (start : Nat) {first : Leaf} {others : List Leaf}
    (tokens : (locateAt start tree).tokens = first :: others) :
    ∃ leading rest, tree.leaves = leading ++ first.toLexeme :: rest ∧
      Lexeme.significant leading = [] ∧
      first.start = start + (Lexeme.textOf leading).byteLength ∧
      byGrammar stream grammar division (locateAt start tree) first =
        readAs stream grammar division (locateAt start tree) first
          (Lexeme.textOf (first.toLexeme :: rest)) := by
  have found := tokens
  rw [tokens_locateAt] at found
  obtain ⟨leading, rest, split, none, place⟩ := exists_first found
  have parts : SourceTree.text tree =
      Lexeme.textOf leading ++ Lexeme.textOf (first.toLexeme :: rest) := by
    rw [text_eq_textOf, split, Lexeme.textOf_append]
  have cut : (LocatedTree.text (locateAt start tree)).dropBytes?
      (first.start - (LocatedTree.range (locateAt start tree)).start) =
        some (Lexeme.textOf (first.toLexeme :: rest)) := by
    rw [text_locateAt, start_locateAt, place, Nat.add_sub_cancel_left, parts,
      Text.dropBytes?_append]
  have read : byGrammar stream grammar division (locateAt start tree) first =
      readAs stream grammar division (locateAt start tree) first
        (((LocatedTree.text (locateAt start tree)).dropBytes?
          (first.start - (LocatedTree.range (locateAt start tree)).start)).getD []) := rfl
  refine ⟨leading, rest, split, none, place, ?_⟩
  rw [read, cut, Option.getD_some]

/-- A division is read by its grammar from its first token on, without a report, and what is read
covers the text there, or it is refused and becomes the row of its tokens. -/
theorem byGrammar_cases (grammar : GrammarName) (division : Division) {tree : SourceTree}
    (start : Nat) {first : Leaf} {others : List Leaf}
    (tokens : (locateAt start tree).tokens = first :: others) :
    let result := byGrammar stream grammar division (locateAt start tree) first
    ∃ leading rest, tree.leaves = leading ++ first.toLexeme :: rest ∧
      Lexeme.significant leading = [] ∧
      first.start = start + (Lexeme.textOf leading).byteLength ∧
      ((result.2 = [] ∧ ∃ projection input,
        Reparse.run stream grammar projection input = .ok result.1 ∧
          ∀ stops,
            Input.StopsComments stops ⟨first.start, Lexeme.textOf (first.toLexeme :: rest)⟩ →
              Covers stops stream.StandsFor first.start (Lexeme.textOf (first.toLexeme :: rest))
                result.1.leaves) ∨
      ∃ reason, result.1 = refused stream grammar (locateAt start tree).tokens reason) := by
  obtain ⟨leading, rest, split, none, place, same⟩ :=
    byGrammar_eq stream grammar division start tokens
  refine ⟨leading, rest, split, none, place, ?_⟩
  rw [same, readAs]
  split
  · rename_i rule read
    have blank : ∀ c ∈ stream.paddingBefore first.start, Input.isFiller c = true :=
      fun c mem => Text.isFiller_of_mem_padding mem
    exact .inl ⟨rfl, _, _, read, fun stops ends => Reparse.covers_of_run ends blank read⟩
  · rename_i failure _
    exact .inr ⟨failure.message, rfl⟩

/-- A division that is read by its grammar is covered by what the grammar reads from its first
token on, and a division that is refused by its tokens. -/
theorem covers_byGrammar (grammar : GrammarName) (division : Division) {tree : SourceTree}
    {start : Nat} (settled : Settled stream stops start [tree]) {first : Leaf} {others : List Leaf}
    (tokens : (locateAt start tree).tokens = first :: others)
    (ends : (byGrammar stream grammar division (locateAt start tree) first).2 = [] →
      Input.StopsComments stops ⟨start, SourceTree.text tree⟩) :
    Covers stops stream.StandsFor start (SourceTree.text tree)
      (byGrammar stream grammar division (locateAt start tree) first).1.leaves := by
  obtain ⟨leading, rest, split, none, place, ⟨accepted, _, _, -, covers⟩ | ⟨reason, same⟩⟩ :=
    byGrammar_cases stream grammar division start tokens
  · obtain ⟨legible, comments⟩ := settled.leaves
    rw [split] at legible comments
    rw [Leaf.row_append] at comments
    have filler : IsFiller stops start (Lexeme.textOf leading) :=
      isFiller_textOf (fun lexeme mem => legible lexeme (List.mem_append_left _ mem))
        (fun leaf mem => comments leaf (List.mem_append_left _ mem)) none
    have text : SourceTree.text tree =
        Lexeme.textOf leading ++ Lexeme.textOf (first.toLexeme :: rest) := by
      rw [text_eq_textOf, split, Lexeme.textOf_append]
    have moves : Input.Moves ⟨start, SourceTree.text tree⟩ (Lexeme.textOf leading)
        ⟨first.start, Lexeme.textOf (first.toLexeme :: rest)⟩ := ⟨text, place⟩
    have read := covers stops ((ends accepted).of_moves moves)
    rw [place] at read
    rw [text]
    exact read.behind filler
  · rw [same, refused, Tree.leaves, Tree.leavesOf_map_leaf]
    exact covers_tokens settled

/-! ### The PROCEDURE DIVISION -/

theorem covers_unrecognized {tree : SourceTree} {start : Nat}
    (settled : Settled stream stops start [tree]) :
    Covers stops stream.StandsFor start (SourceTree.text tree)
      (unrecognized stream (locateAt start tree)).leaves := by
  rw [unrecognized, Stream.leaves_ruleOf]
  exact covers_tokens settled

theorem covers_sentence {tree : SourceTree} (plain : IsPlain .sentence tree) {start : Nat}
    (settled : Settled stream stops start [tree]) :
    Covers stops stream.StandsFor start (SourceTree.text tree)
      (sentence stream (locateAt start tree)).leaves := by
  cases plain with
  | @of lexemes _ =>
      have own : LocatedTree.ownTokens (.node ⟨.sentence, Range.ofText start (textOf (row lexemes))⟩
          (locateAllAt start (row lexemes))) = (Leaf.row start lexemes).filter (!·.isTrivia) :=
        ownTokensOf_row start lexemes
      obtain ⟨legible, ends⟩ := settled.inside.row
      have isSentence :
          LocatedTree.kind (locateAt start (.node .sentence (row lexemes))) = .sentence := rfl
      rw [sentence, if_pos isSentence, Stream.leaves_ruleOf, locateAt, own, text_eq_textOf,
        Tree.leaves, leavesOf_row]
      exact covers_row stream legible ends

/-- A header and the sentences behind it cover their text. -/
theorem covers_headed {header : List Lexeme} {body : List SourceTree}
    (sentences : Among (IsPlain .sentence) body) {start : Nat}
    (settled : Settled stream stops start (row header ++ body)) (extent : Extent) :
    let node : LocatedTree := .node extent (locateAllAt start (row header ++ body))
    Covers stops stream.StandsFor start (textOf (row header ++ body))
      (node.ownTokens.map stream.terminalOf ++
        Tree.leavesOf (node.childNodes.map (sentence stream))) := by
  have isNode : ∀ tree, IsPlain .sentence tree → tree.isNode = true := fun _ => IsPlain.isNode
  obtain ⟨first, behind⟩ := settled.append
  obtain ⟨legible, ends⟩ := first.row
  have size : textOf (row header) = Lexeme.textOf header := by rw [textOf_eq, leavesOf_row]
  rw [size] at behind
  have split : textOf (row header ++ body) = Lexeme.textOf header ++ textOf body := by
    rw [textOf_eq, Tree.leavesOf_append, leavesOf_row, Lexeme.textOf_append, textOf_eq]
  simp only
  rw [ownTokens_headed _ _ _ _ (sentences.mono isNode), childNodes_headed, split]
  exact (covers_row stream legible ends).append
    (covers_map sentences behind isNode fun tree plain start => covers_sentence stream plain)

theorem covers_sectionParts {tree : SourceTree} (block : IsBlock tree) {start : Nat}
    (settled : Settled stream stops start [tree]) {parts : List RuleTree}
    (h : sectionParts stream (locateAt start tree) = .ok parts) :
    Covers stops stream.StandsFor start (SourceTree.text tree) (Tree.leavesOf parts) := by
  obtain ⟨kind, header, body, rfl, -, -, sentences⟩ := block.exists_header
  have headed := covers_headed stream sentences settled.inside
    ⟨kind, Range.ofText start (textOf (row header ++ body))⟩
  unfold sectionParts at h
  split at h
  · cases h
  · cases h
    rw [Tree.leavesOf_cons, Stream.leaves_ruleOf]
    exact headed

theorem covers_paragraph {tree : SourceTree} (block : IsBlock tree) {start : Nat}
    (settled : Settled stream stops start [tree]) {rule : RuleTree}
    (h : paragraph stream (locateAt start tree) = .ok rule) :
    Covers stops stream.StandsFor start (SourceTree.text tree) rule.leaves := by
  obtain ⟨kind, header, body, rfl, -, -, sentences⟩ := block.exists_header
  have headed := covers_headed stream sentences settled.inside
    ⟨kind, Range.ofText start (textOf (row header ++ body))⟩
  unfold paragraph at h
  split at h
  · cases h
  · rename_i name others own
    cases h
    rw [locateAt] at own
    simp only [own] at headed
    rw [RuleTree.leaves_bounded, Tree.leavesOf_append, Tree.leavesOf_cons, Stream.leaves_ruleOf,
      stream.leavesOf_terminals]
    exact headed

theorem covers_procedurePart {tree : SourceTree} (entry : IsEntry .procedure tree) {start : Nat}
    (settled : Settled stream stops start [tree]) {rule : RuleTree}
    (h : procedurePart stream (locateAt start tree) = .ok rule) :
    Covers stops stream.StandsFor start (SourceTree.text tree) rule.leaves := by
  unfold procedurePart at h
  split at h
  · rename_i isParagraph
    rcases entry with plain | block
    · cases plain with
      | of _ => cases isParagraph
    · exact covers_paragraph stream block settled h
  · cases h
    rcases entry with plain | block
    · exact covers_sentence stream plain settled
    · cases block with
      | «section» _ _ => exact covers_unrecognized stream settled
      | paragraph _ _ => exact covers_unrecognized stream settled

/-- What one node adds to the parts of a division: a section closes the one that is open and is
open itself; another part goes into the section that is open, if there is one. -/
theorem procedureParts_cons {current : Option (List RuleTree)} {node : LocatedTree}
    {rest : List LocatedTree} {rules : List RuleTree}
    (h : procedureParts stream current (node :: rest) = .ok rules) :
    (LocatedTree.kind node = .procedureSection ∧ ∃ parts others,
      sectionParts stream node = .ok parts ∧ procedureParts stream (some parts) rest = .ok others ∧
        rules = closed current ++ others) ∨
    LocatedTree.kind node ≠ .procedureSection ∧ ∃ part, procedurePart stream node = .ok part ∧
      ((∃ parts, current = some parts ∧
        procedureParts stream (some (parts ++ [part])) rest = .ok rules) ∨
      (current = none ∧ ∃ others, procedureParts stream none rest = .ok others ∧
        rules = part :: others)) := by
  rw [procedureParts] at h
  split at h
  · rename_i isSection
    refine .inl ⟨isSection, ?_⟩
    simp only [bind, Except.bind] at h
    split at h
    · cases h
    · rename_i parts converted
      split at h
      · cases h
      · rename_i others convertedRest
        cases h
        exact ⟨parts, others, converted, convertedRest, rfl⟩
  · rename_i other
    refine .inr ⟨other, ?_⟩
    simp only [bind, Except.bind] at h
    split at h
    · cases h
    · rename_i part converted
      refine ⟨part, converted, ?_⟩
      cases current with
      | some parts => exact .inl ⟨parts, rfl, h⟩
      | none =>
          simp only at h
          split at h
          · cases h
          · rename_i others convertedRest
            cases h
            exact .inr ⟨rfl, others, convertedRest, rfl⟩

theorem leavesOf_closed (current : Option (List RuleTree)) :
    Tree.leavesOf (closed current) = Tree.leavesOf (current.getD []) := by
  cases current with
  | none => rfl
  | some parts => exact List.append_nil _

/-- The parts of a division go behind those of the section that is open, and cover their text. -/
theorem covers_procedureParts {body : List SourceTree} (entries : Among (IsEntry .procedure) body)
    {start : Nat} (settled : Settled stream stops start body) {current : Option (List RuleTree)}
    {rules : List RuleTree}
    (h : procedureParts stream current ((locateAllAt start body).filter Tree.isNode) = .ok rules) :
    ∃ terminals, Tree.leavesOf rules = Tree.leavesOf (current.getD []) ++ terminals ∧
      Covers stops stream.StandsFor start (textOf body) terminals := by
  induction body generalizing current start rules with
  | nil =>
      cases h
      exact ⟨[], by rw [leavesOf_closed, List.append_nil], .gap .nil⟩
  | cons tree rest ih =>
      obtain ⟨here, behind⟩ := settled.cons
      obtain ⟨first, others⟩ := among_cons.mp entries
      rw [locateAllAt] at h
      rw [textOf_cons]
      rcases first with ⟨lexeme, rfl, trivial⟩ | entry
      · rw [List.filter_cons_of_neg (by rw [isNode_locateAt]; exact Bool.false_ne_true)] at h
        obtain ⟨terminals, leaves, covers⟩ := ih others behind h
        exact ⟨terminals, leaves, covers.behind (here.isFiller trivial)⟩
      · rw [List.filter_cons_of_pos (by rw [isNode_locateAt, entry.isNode])] at h
        rcases procedureParts_cons stream h with
          ⟨isSection, parts, rules, converted, convertedRest, rfl⟩ | ⟨-, part, converted, goesOn⟩
        · obtain ⟨terminals, leaves, covers⟩ := ih others behind convertedRest
          have block : IsBlock tree := by
            rcases entry with plain | block
            · cases plain with
              | of _ => cases isSection
            · exact block
          refine ⟨Tree.leavesOf parts ++ terminals, ?_,
            (covers_sectionParts stream block here converted).append covers⟩
          rw [Tree.leavesOf_append, leavesOf_closed, leaves, Option.getD_some]
        · have first := covers_procedurePart stream entry here converted
          rcases goesOn with ⟨parts, rfl, convertedRest⟩ | ⟨rfl, rules, convertedRest, rfl⟩
          · obtain ⟨terminals, leaves, covers⟩ := ih others behind convertedRest
            refine ⟨part.leaves ++ terminals, ?_, first.append covers⟩
            rw [leaves, Option.getD_some, Option.getD_some, Tree.leavesOf_append,
              Tree.leavesOf_cons, Tree.leavesOf, List.append_nil, List.append_assoc]
          · obtain ⟨terminals, leaves, covers⟩ := ih others behind convertedRest
            refine ⟨part.leaves ++ terminals, ?_, first.append covers⟩
            rw [Tree.leavesOf_cons, leaves, Option.getD_none, Tree.leavesOf, List.nil_append,
              List.nil_append]

theorem covers_procedure {tree : SourceTree} (conforms : IsDivision .procedure tree) {start : Nat}
    (settled : Settled stream stops start [tree]) {rule : RuleTree}
    (h : procedure stream (locateAt start tree) = .ok rule) :
    Covers stops stream.StandsFor start (SourceTree.text tree) rule.leaves := by
  cases conforms with
  | @of header body _ entries =>
      obtain ⟨first, behind⟩ := settled.inside.append
      obtain ⟨legible, ends⟩ := first.row
      have size : textOf (row header) = Lexeme.textOf header := by rw [textOf_eq, leavesOf_row]
      rw [size] at behind
      have own := ownTokens_headed header body
        ⟨.procedureDivision, Range.ofText start (textOf (row header ++ body))⟩ start
        (entries.mono fun tree entry => entry.isNode)
      have split : SourceTree.text (.node Division.procedure.kind (row header ++ body)) =
          Lexeme.textOf header ++ textOf body := by
        rw [text_eq_textOf, Tree.leaves, Tree.leavesOf_append, leavesOf_row, Lexeme.textOf_append,
          textOf_eq]
      unfold procedure at h
      split at h
      · cases h
      · rw [locateAt, childNodes_headed] at h
        simp only [bind, Except.bind] at h
        split at h
        · cases h
        · rename_i parts converted
          cases h
          obtain ⟨terminals, leaves, covers⟩ :=
            covers_procedureParts stream entries behind converted
          have same : Tree.leavesOf parts = terminals := leaves
          rw [split, RuleTree.leaves_bounded, Tree.leavesOf_cons, Stream.leaves_ruleOf, same]
          have row := covers_row stream legible ends
          rw [← own] at row
          exact row.append covers

end Conversion

end CobolTree
