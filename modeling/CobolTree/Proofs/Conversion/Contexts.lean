import CobolTree.Proofs.Conversion.View
import CobolTree.Proofs.Tree.Selection

/-!
The rule trees of single nodes. A division becomes the rule of its own grammar, or that of a
PROCEDURE DIVISION, and stray text is unrecognised; the rule begins with the first token of the
node, and no unit is below it (`spec_plainPart`). A trailer becomes one rule
(`sketch_trailer_cons`).
-/

namespace CobolTree

open Conversion

/-- The rule that a division becomes. -/
def Division.ruleKind (division : Division) : RuleKind :=
  match GrammarName.ofDivision? division with
  | some grammar => .grammar grammar grammar.divisionRule
  | none => .procedureDivision

/-- The rule that a node right below a unit becomes, by its kind. -/
def Kind.ruleKind? : Kind → Option RuleKind
  | .programUnit => some .programUnit
  | .errorNode => some .unrecognized
  | kind => (Division.ofKind? kind).map (·.ruleKind)

/-- A part of a unit at a glance: its rule, and where it begins. -/
structure PartSketch where
  kind : Option RuleKind
  start : Option Nat
deriving DecidableEq, Repr

/-- What a node right below a unit is to become. -/
def LocatedTree.sketch (node : LocatedTree) : PartSketch :=
  ⟨(LocatedTree.kind node).ruleKind?, node.tokens.head?.map (·.start)⟩

namespace RuleTree

/-- What a rule is, and where its first terminal begins. -/
def sketch (tree : RuleTree) : PartSketch := ⟨kind? tree, (start? tree).map (·.range.start)⟩

/-- The tree has its first terminal for its start. -/
def StartsWithFirst (tree : RuleTree) : Prop := start? tree = tree.leaves.head?

/-- The rules of one kind in a row. -/
def ofKind (wanted : RuleKind) (rules : List RuleTree) : List RuleTree :=
  rules.filter fun rule => RuleTree.kind? rule == some wanted

theorem rulesOf_node (wanted : RuleKind) (head : RuleHead) (children : List RuleTree) :
    rulesOf wanted (.node head children) = ofKind wanted children := by
  rw [rulesOf, Tree.childNodes, Tree.children, List.filter_filter]
  refine List.filter_congr fun child _ => ?_
  cases child with
  | leaf => rfl
  | node => exact Bool.and_true _

theorem rulesOf_bounded (wanted kind : RuleKind) (children : List RuleTree) :
    rulesOf wanted (.bounded kind children) = ofKind wanted children := rulesOf_node ..

theorem ofKind_append (wanted : RuleKind) (s t : List RuleTree) :
    ofKind wanted (s ++ t) = ofKind wanted s ++ ofKind wanted t := List.filter_append ..

theorem ofKind_cons_self {wanted : RuleKind} {rule : RuleTree} (h : kind? rule = some wanted)
    (rest : List RuleTree) : ofKind wanted (rule :: rest) = rule :: ofKind wanted rest :=
  List.filter_cons_of_pos (by simp [h])

theorem ofKind_cons_other {wanted : RuleKind} {rule : RuleTree} (h : kind? rule ≠ some wanted)
    (rest : List RuleTree) : ofKind wanted (rule :: rest) = ofKind wanted rest :=
  List.filter_cons_of_neg (by simpa using h)

theorem ofKind_eq_nil {wanted : RuleKind} {rules : List RuleTree}
    (h : ∀ rule ∈ rules, kind? rule ≠ some wanted) : ofKind wanted rules = [] :=
  List.filter_eq_nil_iff.mpr fun rule mem => by simpa using h rule mem

theorem ofKind_leaves {α : Type} (wanted : RuleKind) (terminal : α → Terminal) (row : List α) :
    ofKind wanted (row.map fun value => .leaf (terminal value)) = [] := by
  refine ofKind_eq_nil fun rule mem => ?_
  obtain ⟨value, -, rfl⟩ := List.mem_map.mp mem
  exact nofun

theorem ofKind_eq_self {wanted : RuleKind} {rules : List RuleTree}
    (h : ∀ rule ∈ rules, kind? rule = some wanted) : ofKind wanted rules = rules :=
  List.filter_eq_self.mpr fun rule mem => by simpa using h rule mem

/-- No unit is in the tree. -/
def Contextless (tree : RuleTree) : Prop := ∀ node ∈ tree.nodes, kind? node ≠ some .programUnit

theorem contextless_leaf (terminal : Terminal) : Contextless (.leaf terminal) := by
  intro node mem
  cases mem

theorem contextless_node {head : RuleHead} {children : List RuleTree}
    (other : head.kind ≠ .programUnit) (h : ∀ child ∈ children, Contextless child) :
    Contextless (.node head children) := by
  intro node mem
  rw [Tree.nodes, Tree.nodesOf_eq_flatMap] at mem
  rcases List.mem_cons.mp mem with same | below
  · rw [same]
    simpa [kind?, Tree.label?] using other
  · obtain ⟨child, inside, deeper⟩ := List.mem_flatMap.mp below
    exact h child inside node deeper

theorem contextless_bounded {kind : RuleKind} (other : kind ≠ .programUnit)
    {children : List RuleTree} (h : ∀ child ∈ children, Contextless child) :
    Contextless (.bounded kind children) := contextless_node other h

theorem contextless_map_leaf {terminals : List Terminal} :
    ∀ child ∈ terminals.map (.leaf : Terminal → RuleTree), Contextless child := by
  intro child mem
  obtain ⟨terminal, -, rfl⟩ := List.mem_map.mp mem
  exact contextless_leaf terminal

theorem contextless_ofTerminals {kind : RuleKind} (other : kind ≠ .programUnit)
    (terminals : List Terminal) : Contextless (.ofTerminals kind terminals) :=
  contextless_bounded other contextless_map_leaf

/-- The rules that the parts of a unit become where no grammar is asked. -/
def partKinds : List RuleKind :=
  [.endProgramStatement, .programName, .procedureDivision, .procedureDivisionHeader,
    .procedureSection, .procedureSectionHeader, .paragraph, .paragraphName, .sentence,
    .unrecognized]

/-- Every node of the tree applies a rule for which no grammar is asked, and none has an
exception. -/
def Plain (tree : RuleTree) : Prop :=
  ∀ node ∈ tree.nodes, ∃ head ∈ node.label?, head.kind ∈ partKinds ∧ head.exception = none

theorem Plain.contextless {tree : RuleTree} (h : Plain tree) : Contextless tree := by
  intro node mem unit
  obtain ⟨head, label, among, -⟩ := h node mem
  rw [kind?, label, Option.map_some, Option.some.injEq] at unit
  rw [unit] at among
  exact absurd among (by decide)

theorem plain_leaf (terminal : Terminal) : Plain (.leaf terminal) := by
  intro node mem
  cases mem

theorem plain_bounded {kind : RuleKind} (among : kind ∈ partKinds) {children : List RuleTree}
    (h : ∀ child ∈ children, Plain child) : Plain (.bounded kind children) := by
  intro node mem
  rw [bounded, Tree.nodes, Tree.nodesOf_eq_flatMap] at mem
  rcases List.mem_cons.mp mem with rfl | below
  · exact ⟨_, rfl, among, rfl⟩
  · obtain ⟨child, inside, deeper⟩ := List.mem_flatMap.mp below
    exact h child inside node deeper

theorem plain_ofTerminals {kind : RuleKind} (among : kind ∈ partKinds)
    (terminals : List Terminal) : Plain (.ofTerminals kind terminals) := by
  refine plain_bounded among fun child mem => ?_
  obtain ⟨terminal, -, rfl⟩ := List.mem_map.mp mem
  exact plain_leaf terminal

theorem kind?_bounded (kind : RuleKind) (children : List RuleTree) :
    kind? (.bounded kind children) = some kind := rfl

theorem terminals_bounded (kind : RuleKind) (children : List RuleTree) :
    terminals (.bounded kind children) = Tree.leavesOf children := LeafWalk.toList_ofTree _

theorem start?_bounded (kind : RuleKind) (children : List RuleTree) :
    start? (.bounded kind children) = (Tree.leavesOf children).head? := by
  simp [start?, bounded, Tree.label?, LeafWalk.toList, LeafWalk.drain_eq_leavesLeft,
    LeafWalk.leavesLeft]

theorem startsWithFirst_bounded (kind : RuleKind) (children : List RuleTree) :
    StartsWithFirst (.bounded kind children) := start?_bounded kind children

theorem start?_ofTerminals (kind : RuleKind) (terminals : List Terminal) :
    start? (.ofTerminals kind terminals) = terminals.head? := by
  rw [ofTerminals, start?_bounded, Tree.leavesOf_map_leaf]

end RuleTree

open RuleTree

/-! ### Divisions with a grammar -/

namespace Reparse

variable (stream : Stream) (grammar : GrammarName) (projection : Projection)

mutual

theorem contextless_ruleTree (tree : GrammarTree) :
    Contextless (ruleTree stream grammar projection tree) := by
  cases tree with
  | leaf piece => exact contextless_leaf _
  | node rule parts =>
      rw [ruleTree]
      exact contextless_bounded (by simp) (contextless_ruleTrees parts)

/-- The rules of a grammar are no units. -/
theorem contextless_ruleTrees (forest : List GrammarTree) :
    ∀ tree ∈ ruleTrees stream grammar projection forest, Contextless tree := by
  cases forest with
  | nil =>
      intro tree mem
      cases mem
  | cons first rest =>
      rw [ruleTrees, List.forall_mem_cons]
      exact ⟨contextless_ruleTree first, contextless_ruleTrees rest⟩

end

variable {stream grammar projection}

/-- A division that its grammar reads becomes the rule of the division, from its first terminal
on. -/
theorem spec_of_run {input : Text} {tree : RuleTree}
    (h : run stream grammar projection input = .ok tree) :
    kind? tree = some (.grammar grammar grammar.divisionRule) ∧ Contextless tree ∧
      StartsWithFirst tree := by
  unfold run at h
  split at h
  · rename_i found read
    have none := contextless_ruleTree stream grammar projection found
    rcases division?_eq read with ⟨piece, rfl⟩ | ⟨whole, parts, rfl, name⟩
    · rw [ruleTree] at h
      cases h
      exact ⟨rfl, contextless_ofTerminals (by simp) _, startsWithFirst_bounded _ _⟩
    · rw [ruleTree, RuleTree.bounded] at h
      cases h
      rw [ruleTree, name] at none
      rw [name]
      exact ⟨rfl, none, startsWithFirst_bounded _ _⟩
  · cases h

end Reparse

/-- Filler has no upper case. -/
theorem Input.isSolid_of_toUpper {c : Char} (h : isSolid c.toUpper = true) : isSolid c = true := by
  by_cases filler : isFiller c = true
  · simp only [isFiller, Bool.or_eq_true, beq_iff_eq, or_assoc] at filler
    rcases filler with rfl | rfl | rfl | rfl | rfl | rfl | rfl <;> exact absurd h (by decide)
  · by_cases star : c = '*'
    · subst star
      exact absurd h (by decide)
    · simp [isSolid, filler, star]

/-- The word that opens a division begins with a letter. -/
theorem Division.isSolid_of_ofHeaderWord? {word : Text} {division : Division}
    (h : ofHeaderWord? word = some division) :
    ∃ c rest, word = c :: rest ∧ Input.isSolid c = true := by
  have letters : ∀ entry ∈ headerWords, entry.1.upper.head?.any Input.isSolid = true := by decide
  obtain ⟨entry, found, -⟩ := Option.map_eq_some_iff.mp h
  have solid := letters entry (List.mem_of_find?_eq_some found)
  have same := List.find?_some found
  rw [← eq_of_beq same] at solid
  cases word with
  | nil => cases solid
  | cons c rest => exact ⟨c, rest, rfl, Input.isSolid_of_toUpper solid⟩

namespace Conversion

variable (stream : Stream)

open SourceTree

theorem plain_ruleOf {kind : RuleKind} (among : kind ∈ partKinds) (leaves : List Leaf) :
    Plain (stream.ruleOf kind leaves) := plain_ofTerminals among _

theorem kind?_ruleOf (kind : RuleKind) (leaves : List Leaf) :
    kind? (stream.ruleOf kind leaves) = some kind := rfl

theorem terminals_ruleOf (kind : RuleKind) (leaves : List Leaf) :
    terminals (stream.ruleOf kind leaves) = leaves.map stream.terminalOf :=
  (terminals_bounded ..).trans (Tree.leavesOf_map_leaf _)

theorem start?_ruleOf (kind : RuleKind) (leaves : List Leaf) :
    start? (stream.ruleOf kind leaves) = leaves.head?.map stream.terminalOf := by
  rw [Stream.ruleOf, start?_ofTerminals, List.head?_map]

/-- A division with a grammar becomes the rule of its grammar, whether the grammar reads it or
refuses it. -/
theorem spec_byGrammar (grammar : GrammarName) {division : Division} {tree : SourceTree}
    (opens : OpensDivision division tree.leaves) (start : Nat) {first : Leaf}
    {others : List Leaf} (tokens : (locateAt start tree).tokens = first :: others) :
    let rule := (byGrammar stream grammar division (locateAt start tree) first).1
    RuleTree.sketch rule = ⟨some (.grammar grammar grammar.divisionRule), some first.start⟩ ∧
      Contextless rule ∧ StartsWithFirst rule := by
  intro rule
  obtain ⟨leading, rest, split, none, -, ⟨-, _, _, read, covers⟩ | ⟨reason, same⟩⟩ :=
    byGrammar_cases stream grammar division start tokens
  · obtain ⟨kind, contextless, begins⟩ := Reparse.spec_of_run read
    obtain ⟨name, word, more, names, -, -, header⟩ := opens
    have mem : first ∈ (locateAt start tree).tokens := by rw [tokens]; exact List.mem_cons_self
    have carries : first.isTrivia = false := by simpa using (List.mem_filter.mp mem).2
    have isName : first.toLexeme = name := by
      rw [split, Lexeme.significant_append, none,
        Lexeme.significant_cons_of_not_trivia carries] at names
      exact (List.cons.inj names).1
    rw [← isName] at header
    obtain ⟨c, behind, letters, solid⟩ := Division.isSolid_of_ofHeaderWord? header
    have covers := covers (fun _ => True) fun _ _ _ _ _ _ _ _ => True.intro
    rw [Lexeme.textOf_cons, letters, List.cons_append] at covers
    obtain ⟨terminal, text, head, type, place⟩ := covers.exists_first solid
    refine ⟨?_, contextless, begins⟩
    rw [RuleTree.sketch, kind, begins, head, place]
    rfl
  · rw [show rule = _ from same]
    refine ⟨?_, contextless_node (by simp) contextless_map_leaf, ?_⟩
    · rw [tokens]
      rfl
    · exact congrArg List.head? (Tree.leavesOf_map_leaf _).symm

/-! ### The PROCEDURE DIVISION -/

theorem plain_sentence (node : LocatedTree) : Plain (sentence stream node) := by
  unfold sentence
  split
  · exact plain_ruleOf stream (by decide) _
  · exact plain_ruleOf stream (by decide) _

theorem plain_sectionParts {node : LocatedTree} {parts : List RuleTree}
    (h : sectionParts stream node = .ok parts) : ∀ part ∈ parts, Plain part := by
  unfold sectionParts at h
  split at h
  · cases h
  · cases h
    rw [List.forall_mem_cons, List.forall_mem_map]
    exact ⟨plain_ruleOf stream (by decide) _, fun node _ => plain_sentence stream node⟩

theorem plain_procedurePart {node : LocatedTree} {part : RuleTree}
    (h : procedurePart stream node = .ok part) : Plain part := by
  unfold procedurePart at h
  split at h
  · unfold paragraph at h
    split at h
    · cases h
    · cases h
      refine plain_bounded (by decide) fun child mem => ?_
      rcases List.mem_append.mp mem with header | sentences
      · rcases List.mem_cons.mp header with rfl | others
        · exact plain_ruleOf stream (by decide) _
        · obtain ⟨leaf, -, rfl⟩ := List.mem_map.mp others
          exact plain_leaf _
      · obtain ⟨node, -, rfl⟩ := List.mem_map.mp sentences
        exact plain_sentence stream node
  · cases h
    exact plain_sentence stream node

theorem plain_closed {current : Option (List RuleTree)}
    (h : ∀ part ∈ current.getD [], Plain part) :
    ∀ part ∈ closed current, Plain part := by
  cases current with
  | none => exact List.forall_mem_nil _
  | some parts =>
      rw [closed, Option.map_some, Option.toList_some, List.forall_mem_singleton]
      exact plain_bounded (by decide) h

/-- The parts of a division are plain, and so are those of the section that is open. -/
theorem plain_procedureParts {nodes : List LocatedTree} {current : Option (List RuleTree)}
    (before : ∀ part ∈ current.getD [], Plain part) {rules : List RuleTree}
    (h : procedureParts stream current nodes = .ok rules) : ∀ rule ∈ rules, Plain rule := by
  induction nodes generalizing current rules with
  | nil =>
      cases h
      exact plain_closed before
  | cons node rest ih =>
      rcases procedureParts_cons stream h with
        ⟨-, parts, others, converted, behind, rfl⟩ | ⟨-, part, converted, goesOn⟩
      · rw [List.forall_mem_append]
        exact ⟨plain_closed before, ih (plain_sectionParts stream converted) behind⟩
      · have here := plain_procedurePart stream converted
        rcases goesOn with ⟨parts, rfl, behind⟩ | ⟨rfl, others, behind, rfl⟩
        · refine ih ?_ behind
          rw [Option.getD_some, List.forall_mem_append, List.forall_mem_singleton]
          exact ⟨before, here⟩
        · rw [List.forall_mem_cons]
          exact ⟨here, ih before behind⟩

theorem plain_procedure {node : LocatedTree} {rule : RuleTree}
    (h : procedure stream node = .ok rule) : Plain rule := by
  unfold procedure at h
  split at h
  · cases h
  · simp only [bind, Except.bind] at h
    split at h
    · cases h
    · rename_i parts converted
      cases h
      refine plain_bounded (by decide) ?_
      rw [List.forall_mem_cons]
      exact ⟨plain_ruleOf stream (by decide) _,
        plain_procedureParts stream (List.forall_mem_nil _) converted⟩

theorem spec_procedure {node : LocatedTree} {rule : RuleTree}
    (h : procedure stream node = .ok rule) :
    RuleTree.sketch rule = ⟨some .procedureDivision, node.ownTokens.head?.map (·.start)⟩ ∧
      Contextless rule ∧ StartsWithFirst rule := by
  have plain := plain_procedure stream h
  unfold procedure at h
  split at h
  · cases h
  · simp only [bind, Except.bind] at h
    split at h
    · cases h
    · rename_i header some _ parts converted
      cases h
      refine ⟨?_, plain.contextless, startsWithFirst_bounded _ _⟩
      rw [RuleTree.sketch, kind?_bounded, start?_bounded, Tree.leavesOf_cons,
        Stream.leaves_ruleOf]
      cases own : node.ownTokens with
      | nil => exact absurd own some
      | cons first rest => rfl

variable {stream} in
/-- What a PROCEDURE DIVISION is converted to among other divisions is its own rule. -/
theorem procedure_of_division {node : LocatedTree} {rule : RuleTree} {reports : List Diagnostic}
    (h : Conversion.division stream .procedure node = .ok (rule, reports)) :
    procedure stream node = .ok rule := by
  unfold Conversion.division at h
  split at h
  · cases h
  · simp only [GrammarName.ofDivision?] at h
    cases made : procedure stream node with
    | error reason =>
        rw [made] at h
        cases h
    | ok found =>
        rw [made] at h
        cases h
        rfl

/-! ### Parts of a unit -/

/-- The header of a division comes first among its tokens. -/
theorem head?_tokens_division {division : Division} {tree : SourceTree}
    (conforms : IsDivision division tree) (start : Nat) :
    (locateAt start tree).tokens.head? = (locateAt start tree).ownTokens.head? := by
  cases conforms with
  | @of header body opens entries =>
      have carries := significant_ne_nil_of_opensDivision opens
      have own := ownTokens_headed header body
        ⟨division.kind, Range.ofText start (textOf (row header ++ body))⟩ start
        (entries.mono fun tree entry => entry.isNode)
      have some : (Leaf.row start header).filter (!·.isTrivia) ≠ [] := by
        rw [← own]
        exact ownTokens_headed_ne_nil header body _ start carries
      rw [locateAt, own, ← locateAt, tokens_locateAt, Tree.leaves, Tree.leavesOf_append,
        leavesOf_row, Leaf.row_append, List.filter_append]
      obtain ⟨first, others, split⟩ := List.exists_cons_of_ne_nil some
      rw [split]
      rfl

theorem spec_division {division : Division} {tree : SourceTree}
    (conforms : IsDivision division tree) {start : Nat} {result : RuleTree × List Diagnostic}
    (h : Conversion.division stream division (locateAt start tree) = .ok result) :
    RuleTree.sketch result.1 =
        ⟨some division.ruleKind, (locateAt start tree).tokens.head?.map (·.start)⟩ ∧
      Contextless result.1 ∧ StartsWithFirst result.1 := by
  unfold Conversion.division at h
  split at h
  · cases h
  · rename_i first others tokens
    have opens := conforms.opens
    cases division with
    | identification =>
        cases h
        have spec := spec_byGrammar stream .identification opens start tokens
        rwa [tokens]
    | environment =>
        cases h
        have spec := spec_byGrammar stream .environment opens start tokens
        rwa [tokens]
    | data =>
        cases h
        have spec := spec_byGrammar stream .data opens start tokens
        rwa [tokens]
    | procedure =>
        obtain ⟨rule, converted⟩ := procedure_ok stream conforms start
        simp only [GrammarName.ofDivision?, converted, Except.map, Except.ok.injEq] at h
        subst h
        rw [head?_tokens_division conforms]
        exact spec_procedure stream converted

/-- A part of a unit that is no unit becomes the rule of its kind, from its first token on. -/
theorem spec_plainPart {tree : SourceTree} (part : IsPlainPart tree) {start : Nat}
    {result : RuleTree × List Diagnostic}
    (h : plainPart stream (locateAt start tree) = .ok result) :
    RuleTree.sketch result.1 = (locateAt start tree).sketch ∧ Contextless result.1 ∧
      StartsWithFirst result.1 := by
  cases part with
  | stray plain =>
      cases plain with
      | of _ =>
          cases h
          refine ⟨?_, (plain_ruleOf stream (by decide) _).contextless, startsWithFirst_bounded _ _⟩
          rw [RuleTree.sketch, unrecognized, start?_ruleOf, Option.map_map]
          rfl
  | @division division _ conforms =>
      rw [plainPart_of_isDivision stream conforms] at h
      obtain ⟨sketch, spec⟩ := spec_division stream conforms h
      refine ⟨?_, spec⟩
      rw [sketch, LocatedTree.sketch, kind_of_isDivision conforms]
      cases division <;> rfl

/-! ### Trailers -/

theorem plain_trailerName (name : List Terminal) :
    ∀ part ∈ trailerName name, Plain part := by
  unfold trailerName
  split
  · exact List.forall_mem_nil _
  · rw [List.forall_mem_singleton]
    exact plain_ofTerminals (by decide) name

theorem plain_trailerParts (name : List Terminal) (leaves : List Leaf) :
    ∀ part ∈ trailerParts stream name leaves, Plain part := by
  induction leaves generalizing name with
  | nil => exact plain_trailerName name
  | cons leaf rest ih =>
      rw [trailerParts]
      split
      · rw [List.forall_mem_append, List.forall_mem_cons]
        exact ⟨plain_trailerName name, plain_leaf _, ih []⟩
      · exact ih _

/-- The rules of a trailer are plain. -/
theorem plain_trailer (leaves : List Leaf) :
    ∀ part ∈ trailer stream leaves, Plain part := by
  rw [trailer, List.forall_mem_append]
  constructor
  · split
    · exact List.forall_mem_nil _
    · rw [List.forall_mem_singleton]
      exact plain_ruleOf stream (by decide) _
  · split
    · exact List.forall_mem_nil _
    · rw [List.forall_mem_singleton]
      refine plain_bounded (by decide) ?_
      rw [List.forall_mem_append, List.forall_mem_map]
      exact ⟨fun leaf _ => plain_leaf _, plain_trailerParts stream [] _⟩

/-- A trailer that begins with END becomes one rule, with nothing before it. -/
theorem trailer_cons {first : Leaf} {rest : List Leaf}
    (isEnd : Text.sameWord first.text "END".toList = true) :
    trailer stream (first :: rest) = [RuleTree.bounded .endProgramStatement
      ((((first :: rest).take 2).map fun leaf => .leaf (stream.terminalOf leaf)) ++
        trailerParts stream [] ((first :: rest).drop 2))] := by
  have here : ¬(!Text.sameWord first.text "END".toList) = true := by
    rw [isEnd]
    decide
  have none : (first :: rest).takeWhile (fun leaf : Leaf => !Text.sameWord leaf.text "END".toList) =
      [] := List.takeWhile_cons_of_neg here
  have all : (first :: rest).dropWhile (fun leaf : Leaf => !Text.sameWord leaf.text "END".toList) =
      first :: rest := List.dropWhile_cons_of_neg here
  simp only [trailer, none, all]
  rfl

theorem sketch_trailer_cons {first : Leaf} {rest : List Leaf}
    (isEnd : Text.sameWord first.text "END".toList = true) :
    (trailer stream (first :: rest)).map RuleTree.sketch =
      [⟨some .endProgramStatement, some first.start⟩] := by
  rw [trailer_cons stream isEnd, List.map_singleton, RuleTree.sketch, kind?_bounded, start?_bounded]
  rfl

end Conversion

end CobolTree
