import CobolTree.Proofs.Agreement.Paragraphs
import CobolTree.Proofs.Agreement.Periods
import CobolTree.Proofs.Production.Trailers

/-!
The terminals of divisions on the tokens of the text. Every leaf of a node of a parsed text is a
token of the text, and the stream gives for its offset the position where it was read
(`Parsed.position_token`); so a terminal that begins where a leaf of its division does has the
position of that token (`Stream.sitsOn_terminal`). The terminals of a PROCEDURE DIVISION are tokens
(`Conversion.leaves_procedure`). Those of the other divisions begin where tokens do if both read the
division alike (`Analysis.terminals_agree`). They need not elsewhere: the grammar of the
IDENTIFICATION DIVISION passes over a comma that free text begins with
(`Analysis.terminals_differ`).
-/

namespace CobolTree

open SourceTree

/-! ### Leaves of parts -/

namespace Tree

variable {ν α : Type} {tree part : Tree ν α} {forest : List (Tree ν α)}

theorem leaves_subset_of_mem (mem : tree ∈ forest) : tree.leaves ⊆ leavesOf forest := by
  rw [leavesOf_eq_flatMap]
  exact fun leaf within => List.mem_flatMap.mpr ⟨tree, mem, within⟩

theorem leaves_subset_of_mem_childNodes (mem : part ∈ tree.childNodes) :
    part.leaves ⊆ tree.leaves := by
  have below := (List.mem_filter.mp mem).1
  cases tree with
  | leaf value => cases below
  | node label children => exact leaves_subset_of_mem below

end Tree

namespace LocatedTree

variable {tree part : LocatedTree}

theorem ownTokens_subset (tree : LocatedTree) : tree.ownTokens ⊆ tree.tokens := by
  cases tree with
  | leaf leaf => exact List.nil_subset _
  | node extent children =>
      intro leaf mem
      exact List.mem_filter.mpr ⟨mem_leavesOf_of_own mem, (List.mem_filter.mp mem).2⟩

theorem tokens_subset_of_mem_childNodes (mem : part ∈ tree.childNodes) :
    part.tokens ⊆ tree.tokens :=
  List.filter_subset _ (Tree.leaves_subset_of_mem_childNodes mem)

end LocatedTree

/-- The terminals of a rule are among the leaves of its tree. -/
theorem RuleTree.terminals_subset (tree : RuleTree) : tree.terminals ⊆ tree.leaves := by
  rw [RuleTree.terminals, LeafWalk.toList_ofTree]
  cases tree with
  | leaf terminal => exact List.nil_subset _
  | node label children => exact List.Subset.refl _

/-! ### Tokens of a parsed text -/

/-- A terminal begins where a token of a node does that carries meaning, and has its position. -/
def Terminal.SitsOn (tokens : List Token) (node : LocatedTree) (terminal : Terminal) : Prop :=
  ∃ token ∈ tokens, token.leaf ∈ node.tokens ∧ terminal.range.start = token.position.index ∧
    terminal.position = token.position

namespace Parsed

variable {settings : Settings} {stream : Stream} {text : Text}

/-- Every leaf of a node of a parsed text is a token of the text. -/
theorem exists_token {node : LocatedTree} (mem : node ∈ (ofText settings text).tree.locate.nodes)
    {leaf : Leaf} (within : leaf ∈ node.leaves) :
    ∃ token ∈ (ofText settings text).tokens, token.leaf = leaf := by
  have row := leaves_locate_ofText settings text
  have among : node ∈ Tree.nodesOf [(ofText settings text).tree.locate] := by
    rwa [Tree.nodesOf, Tree.nodesOf, List.append_nil]
  have whole := Tree.leaves_subset_of_mem_nodesOf among within
  rw [Tree.leavesOf, Tree.leavesOf, List.append_nil, row] at whole
  exact List.mem_map.mp whole

/-- The stream gives for the offset of a token the position where the token was read. -/
theorem position_token {token : Token} (mem : token ∈ (ofText settings stream.text).tokens) :
    stream.position token.position.index = token.position := by
  obtain ⟨last, -, reads⟩ := reads_ofText settings stream.text
  obtain ⟨before, behind, split⟩ := List.append_of_mem mem
  rw [split] at reads
  have place := reads.position_of_split
  have whole := reads.rest_eq
  rw [Token.lexemes_append, Lexeme.textOf_append, List.append_assoc] at whole
  have index := congrArg Position.index place
  rw [Position.index_advance] at index
  have zero : (Cursor.start stream.text).position.index = 0 := rfl
  rw [index, zero, Nat.zero_add, stream.position_eq whole, place]
  rfl

end Parsed

namespace Stream

variable {settings : Settings} {stream : Stream} {node : LocatedTree} {leaf : Leaf}

/-- A terminal that begins where a leaf of a node does sits on the token of that leaf. -/
theorem sitsOn_terminal (mem : node ∈ (Parsed.ofText settings stream.text).tree.locate.nodes)
    (within : leaf ∈ node.tokens) (type : TerminalType) (text : Text) {range : Range}
    (starts : range.start = leaf.start) :
    (stream.terminal type text range).SitsOn (Parsed.ofText settings stream.text).tokens node := by
  obtain ⟨token, among, rfl⟩ := Parsed.exists_token mem (List.mem_filter.mp within).1
  refine ⟨token, among, within, starts, ?_⟩
  rw [← Parsed.position_token among]
  exact congrArg stream.position starts

end Stream

/-! ### PROCEDURE DIVISIONs -/

namespace Conversion

variable (stream : Stream) {node : LocatedTree} {found : List Terminal}

theorem leaves_sentence (node : LocatedTree) :
    (sentence stream node).leaves ⊆ node.tokens.map stream.terminalOf := by
  unfold sentence
  split
  · rw [Stream.leaves_ruleOf]
    exact List.map_subset _ node.ownTokens_subset
  · rw [unrecognized, Stream.leaves_ruleOf]
    exact List.Subset.refl _

theorem leavesOf_sentences (node : LocatedTree) :
    Tree.leavesOf (node.childNodes.map (sentence stream)) ⊆ node.tokens.map stream.terminalOf := by
  rw [Tree.leavesOf_eq_flatMap, List.flatMap_map]
  intro terminal mem
  obtain ⟨child, below, within⟩ := List.mem_flatMap.mp mem
  exact List.map_subset _ (LocatedTree.tokens_subset_of_mem_childNodes below)
    (leaves_sentence stream child within)

variable {stream}

theorem leavesOf_sectionParts {parts : List RuleTree} (h : sectionParts stream node = .ok parts) :
    Tree.leavesOf parts ⊆ node.tokens.map stream.terminalOf := by
  unfold sectionParts at h
  split at h
  · cases h
  · cases h
    rw [Tree.leavesOf_cons, Stream.leaves_ruleOf]
    exact List.append_subset.mpr
      ⟨List.map_subset _ node.ownTokens_subset, leavesOf_sentences stream node⟩

theorem leaves_procedurePart {part : RuleTree} (h : procedurePart stream node = .ok part) :
    part.leaves ⊆ node.tokens.map stream.terminalOf := by
  unfold procedurePart at h
  split at h
  · unfold paragraph at h
    split at h
    · cases h
    · rename_i name header own
      cases h
      have named := node.ownTokens_subset
      rw [own] at named
      rw [RuleTree.leaves_bounded, Tree.leavesOf_append, Tree.leavesOf_cons, Stream.leaves_ruleOf,
        stream.leavesOf_terminals]
      exact List.append_subset.mpr ⟨List.map_subset _ named, leavesOf_sentences stream node⟩
  · cases h
    exact leaves_sentence stream node

/-- What the parts of a division add to the section that is open is found in the parts. -/
theorem leavesOf_procedureParts {nodes : List LocatedTree} {current : Option (List RuleTree)}
    {rules : List RuleTree} (h : procedureParts stream current nodes = .ok rules)
    (here : Tree.leavesOf (current.getD []) ⊆ found)
    (each : ∀ node ∈ nodes, node.tokens.map stream.terminalOf ⊆ found) :
    Tree.leavesOf rules ⊆ found := by
  induction nodes generalizing current rules with
  | nil =>
      cases h
      rwa [leavesOf_closed]
  | cons node rest ih =>
      obtain ⟨first, others⟩ := List.forall_mem_cons.mp each
      rcases procedureParts_cons stream h with
        ⟨-, parts, behind, opened, converted, rfl⟩ | ⟨-, part, read, goesOn⟩
      · rw [Tree.leavesOf_append, leavesOf_closed]
        exact List.append_subset.mpr
          ⟨here, ih converted (List.Subset.trans (leavesOf_sectionParts opened) first) others⟩
      · have added := List.Subset.trans (leaves_procedurePart read) first
        rcases goesOn with ⟨parts, rfl, converted⟩ | ⟨rfl, behind, converted, rfl⟩
        · refine ih converted ?_ others
          rw [Option.getD_some, Tree.leavesOf_append, Tree.leavesOf_cons, Tree.leavesOf,
            List.append_nil]
          exact List.append_subset.mpr ⟨here, added⟩
        · rw [Tree.leavesOf_cons]
          exact List.append_subset.mpr ⟨added, ih converted (List.nil_subset _) others⟩

/-- The terminals of a PROCEDURE DIVISION are tokens of the division. -/
theorem leaves_procedure {rule : RuleTree} (h : procedure stream node = .ok rule) :
    rule.leaves ⊆ node.tokens.map stream.terminalOf := by
  unfold procedure at h
  split at h
  · cases h
  · simp only [bind, Except.bind] at h
    split at h
    · cases h
    · rename_i parts converted
      cases h
      rw [RuleTree.leaves_bounded, Tree.leavesOf_cons, Stream.leaves_ruleOf]
      refine List.append_subset.mpr ⟨List.map_subset _ node.ownTokens_subset, ?_⟩
      exact leavesOf_procedureParts converted (List.nil_subset _) fun child mem =>
        List.map_subset _ (LocatedTree.tokens_subset_of_mem_childNodes mem)

/-! ### Divisions that are read again -/

section Sits

variable {settings : Settings} {stream : Stream} {division : Division} {node : LocatedTree}
  {context : RuleTree} (mem : node ∈ (Parsed.ofText settings stream.text).tree.locate.nodes)

include mem

/-- A terminal that is read in place sits on a token if its piece begins where a leaf does. -/
theorem sitsOn_piece {piece : Piece} {leaf : Leaf} (within : leaf ∈ node.tokens)
    (starts : leaf.start = piece.start) :
    (Reparse.terminal stream .inPlace piece).SitsOn
      (Parsed.ofText settings stream.text).tokens node := by
  rw [Reparse.terminal_inPlace]
  exact Stream.sitsOn_terminal mem within _ _ starts.symm

theorem sitsOn_identification (kind : LocatedTree.kind node = Division.identification.kind)
    (accepted : Conversion.division stream .identification node = .ok (context, []))
    (tidy : Tidy (node.leaves.map (·.toLexeme))) :
    ∀ terminal ∈ context.terminals,
      terminal.SitsOn (Parsed.ofText settings stream.text).tokens node := by
  obtain ⟨place, rule, parts, located, rfl, read⟩ := exists_matches mem kind accepted tidy
  rw [Reparse.terminals_ruleTree]
  intro terminal found
  obtain ⟨piece, inside, rfl⟩ := List.mem_map.mp found
  obtain ⟨token, among, carries, starts⟩ := read.bears piece (by
    rw [Tree.leavesOf, Tree.leaves, Tree.leavesOf, List.append_nil]
    exact inside)
  have faithful := Production.faithful_division settings .identification place
  have leaves := Outcome.leavesOf_located faithful
  rw [located, Tree.leavesOf, Tree.leavesOf, List.append_nil] at leaves
  have within : token.leaf ∈ node.tokens := by
    rw [LocatedTree.tokens, leaves]
    exact List.mem_filter.mpr ⟨List.mem_map_of_mem among, by simpa [Token.leaf] using carries⟩
  exact sitsOn_piece mem within starts

theorem sitsOn_sentences (sort : division = .environment ∨ division = .data)
    (kind : LocatedTree.kind node = division.kind)
    (accepted : Conversion.division stream division node = .ok (context, []))
    (alike : SplitsAlike node.tokens (context.terminals.map (·.range))
      (Terminal.rangesOf .pictureString context.terminals))
    (literals : ∀ range ∈ Leaf.rangesOf .stringLiteral node.tokens,
      range ∈ context.terminals.map (·.range)) :
    ∀ terminal ∈ context.terminals,
      terminal.SitsOn (Parsed.ofText settings stream.text).tokens node := by
  obtain ⟨tokens, pieces, aligned, significant, terminals, ascending⟩ :=
    exists_aligned sort mem kind accepted alike
  rw [terminals, Reparse.map_range_terminals, ← significant, rangesOf_filter rfl] at literals
  rw [terminals]
  intro terminal found
  obtain ⟨piece, inside, rfl⟩ := List.mem_map.mp found
  obtain ⟨leaf, among, carries, starts⟩ := aligned.exists_token ascending literals piece inside
  refine sitsOn_piece mem ?_ starts
  rw [← significant]
  exact List.mem_filter.mpr ⟨among, by simp [carries]⟩

theorem sitsOn_procedure
    (accepted : Conversion.division stream .procedure node = .ok (context, [])) :
    ∀ terminal ∈ context.terminals,
      terminal.SitsOn (Parsed.ofText settings stream.text).tokens node := by
  have converted := procedure_of_division accepted
  intro terminal found
  have inside := leaves_procedure converted (context.terminals_subset found)
  obtain ⟨leaf, within, rfl⟩ := List.mem_map.mp inside
  exact Stream.sitsOn_terminal mem within _ _ rfl

end Sits

end Conversion

namespace Analysis

/-- How the tokens of a division have to agree with what its grammar reads. Of the terminals of a
division of sentences only the bytes are looked at. -/
def ReadsAlike (division : Division) (node : LocatedTree) (context : RuleTree) : Prop :=
  let ranges := context.terminals.map (·.range)
  match division with
  | .identification => Tidy (node.leaves.map (·.toLexeme))
  | .environment | .data =>
      SplitsAlike node.tokens ranges (Terminal.rangesOf .pictureString context.terminals) ∧
        ∀ range ∈ Leaf.rangesOf .stringLiteral node.tokens, range ∈ ranges
  | .procedure => True

instance (division : Division) (node : LocatedTree) (context : RuleTree) :
    Decidable (ReadsAlike division node context) :=
  match division with
  | .identification => inferInstanceAs (Decidable (Tidy _))
  | .environment | .data => inferInstanceAs (Decidable (_ ∧ _))
  | .procedure => inferInstanceAs (Decidable True)

/-- The terminals of a division sit on the tokens of a text if its tokens agree with what its
grammar reads. -/
def TerminalsAgree (tokens : List Token) (division : Division) (node : LocatedTree)
    (context : RuleTree) : Prop :=
  ReadsAlike division node context → ∀ terminal ∈ context.terminals, terminal.SitsOn tokens node

/-- In every text and in every expanded text, each terminal of a division begins where a token of the
division does that is neither blank nor comment, and has the line and the column of that token: in a
PROCEDURE DIVISION always, in an IDENTIFICATION DIVISION that is read again if its text is tidy, in
an ENVIRONMENT or a DATA DIVISION if the tokens and the grammar split it alike and every literal is a
terminal. -/
theorem terminals_agree (settings : Settings) :
    (∀ text, ∃ analysis, ofText settings text = .ok analysis ∧
      analysis.Rereads (.ofText text) (TerminalsAgree analysis.parsed.tokens)) ∧
    ∀ document, ∃ analysis, ofDocument settings document = .ok analysis ∧
      analysis.Rereads (.ofDocument document) (TerminalsAgree analysis.parsed.tokens) := by
  have each (stream : Stream) : ∃ analysis, ofStream settings stream = .ok analysis ∧
      analysis.Rereads stream (TerminalsAgree analysis.parsed.tokens) := by
    obtain ⟨analysis, analysed, rereads⟩ : ∃ analysis, ofStream settings stream = .ok analysis ∧
        analysis.Rereads stream (TerminalsAgree (Parsed.ofText settings stream.text).tokens) := by
      refine exists_rereads stream fun division node mem kind context accepted alike => ?_
      cases division with
      | identification => exact Conversion.sitsOn_identification mem kind accepted alike
      | environment =>
          exact Conversion.sitsOn_sentences mem (.inl rfl) kind accepted alike.1 alike.2
      | data => exact Conversion.sitsOn_sentences mem (.inr rfl) kind accepted alike.1 alike.2
      | procedure => exact Conversion.sitsOn_procedure mem accepted
    exact ⟨analysis, analysed, parsed_of_ofStream analysed ▸ rereads⟩
  exact ⟨fun text => each (.ofText text), fun document => each (.ofDocument document)⟩

/-- A number with a sign and a point, a picture string with a point, and a literal with a letter. -/
theorem terminals_agree_signed :
    let text : Text := ("ID DIVISION. PROGRAM-ID. A. DATA DIVISION. WORKING-STORAGE SECTION. " ++
      "01 X PIC S9.9 VALUE -1.5, Y VALUE X'00'.").toList
    ∃ analysis, ofText .standard text = .ok analysis ∧
      ∃ node ∈ analysis.parsed.tree.locate.nodes, LocatedTree.kind node = Division.data.kind ∧
        ∃ context ∈ Conversion.accepted? (.ofText text) .data node,
          ReadsAlike .data node context ∧
            ∀ terminal ∈ context.terminals, terminal.SitsOn analysis.parsed.tokens node := by
  intro text
  obtain ⟨node, mem, kind, context, accepted, alike⟩ :
      ∃ node ∈ (Parsed.ofText .standard text).tree.locate.nodes,
        LocatedTree.kind node = Division.data.kind ∧
          ∃ context ∈ Conversion.accepted? (.ofText text) .data node,
            ReadsAlike .data node context := by
    decide +kernel
  obtain ⟨analysis, analysed, rereads⟩ := (terminals_agree .standard).1 text
  have parsed : analysis.parsed = Parsed.ofText .standard text := parsed_of_ofStream analysed
  rw [← parsed] at mem
  exact ⟨analysis, analysed, node, mem, kind, context, accepted, alike,
    rereads.tells_of_accepted? mem kind accepted alike⟩

/-- Free text that begins with a comma begins there for the tokens. The grammar takes the comma for
a blank, so its free text begins where no token does. -/
theorem terminals_differ :
    let text : Text := "ID DIVISION. PROGRAM-ID. A. AUTHOR. , ME.".toList
    ∃ node ∈ (Parsed.ofText .standard text).tree.locate.nodes,
      LocatedTree.kind node = Division.identification.kind ∧
        ∃ context ∈ Conversion.accepted? (.ofText text) .identification node,
          ∃ terminal ∈ context.terminals, terminal.range = ⟨38, 41⟩ ∧
            ∀ token ∈ (Parsed.ofText .standard text).tokens, token.position.index ≠ 38 := by
  decide +kernel

end Analysis

end CobolTree
