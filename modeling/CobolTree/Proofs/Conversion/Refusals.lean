import CobolTree.Proofs.Conversion.Rereading
import CobolTree.Proofs.Grammar.Failures
import CobolTree.Proofs.Grammar.Nodes

/-!
Divisions that are read again, and what becomes of each of them. A `Rereading` goes with every
division that has a grammar: its node, the context that it becomes, and what is reported of it. The
divisions of a forest, the contexts of its rules, the exceptions among them and the reports are all
told by one row of rereadings (`Accounts`), which is put together part by part and unit by unit
(`exists_accounts_parts`). So whether a division is accepted depends on its own text alone, and the
conversion has an exception exactly where it has a report (`Analysis.accountsFor`).
-/

namespace CobolTree

open Conversion SourceTree

namespace GrammarName

/-- The division that a grammar reads. -/
def toDivision : GrammarName → Division
  | identification => .identification
  | environment => .environment
  | data => .data

theorem ofDivision?_eq_some_iff {division : Division} {grammar : GrammarName} :
    ofDivision? division = some grammar ↔ division = grammar.toDivision := by
  constructor
  · intro h
    cases division <;> cases h <;> rfl
  · rintro rfl
    cases grammar <;> rfl

end GrammarName

/-- A division with a grammar, if the node is one. -/
def LocatedTree.grammarDivision? (node : LocatedTree) : Option (GrammarName × LocatedTree) :=
  ((Division.ofKind? (LocatedTree.kind node)).bind GrammarName.ofDivision?).map (·, node)

theorem LocatedTree.grammarDivision?_of_mem_bodyKinds {node : LocatedTree}
    (among : LocatedTree.kind node ∈ bodyKinds) : grammarDivision? node = none := by
  have other : ∀ kind ∈ bodyKinds, Division.ofKind? kind = none := by decide
  rw [grammarDivision?, other _ among]
  rfl

namespace RuleTree

/-- Why a context could not be read by its grammar. -/
def exception? (tree : RuleTree) : Option String := tree.label?.bind (·.exception)

/-- The context of a division with a grammar, if the node is one. -/
def grammarContext? (tree : RuleTree) : Option (GrammarName × RuleTree) :=
  match kind? tree with
  | some (.grammar grammar rule) =>
      if rule = grammar.divisionRule then some (grammar, tree) else none
  | _ => none

/-- The tree is no context of a division with a grammar, and has no exception. -/
def Silent (tree : RuleTree) : Prop := grammarContext? tree = none ∧ exception? tree = none

/-- No node of a plain tree is a context of a division with a grammar. -/
theorem Plain.silent {tree : RuleTree} (h : Plain tree) : ∀ node ∈ tree.nodes, Silent node := by
  intro node mem
  obtain ⟨head, label, among, none⟩ := h node mem
  rw [Option.mem_def] at label
  constructor
  · rw [grammarContext?, kind?, label, Option.map_some]
    cases kind : head.kind with
    | grammar grammar rule => simp [kind, partKinds] at among
    | _ => rfl
  · rw [exception?, label]
    exact none

end RuleTree

/-! ### Accepted divisions -/

namespace Reparse

/-- The rule that spans a division is not applied again within the division. -/
theorem name_ne_divisionRule (grammar : GrammarName) :
    ∀ rule ∈ grammar.division.nodeRules.tail, rule.name ≠ grammar.divisionRule := by
  cases grammar <;> decide

variable {stream : Stream} {grammar : GrammarName} {projection : Projection} {input : Text}
  {context : RuleTree}

/-- A division tree applies the rule of the division, and no node below it does. -/
theorem exists_parts_of_division? {tree : GrammarTree} (h : division? grammar input = some tree) :
    ∃ rule parts, tree = .node rule parts ∧ rule.name = grammar.divisionRule ∧
      ∀ node ∈ Tree.nodesOf parts, ∃ inner, node.label? = some inner ∧
        inner.name ≠ grammar.divisionRule := by
  obtain ⟨rule, parts, rfl⟩ := isNode_of_division? h
  obtain ⟨last, read, -⟩ := read?_of_division? h
  obtain ⟨-, whole, body, -, division, -⟩ := unit_eq grammar
  have others := name_ne_divisionRule grammar
  rcases division?_eq h with ⟨piece, leaf⟩ | ⟨first, inner, same, name⟩
  · cases leaf
  · cases same
    refine ⟨rule, parts, rfl, name, fun node mem => ?_⟩
    rw [division] at read others
    obtain ⟨inner, readBody, same⟩ := Expr.read?_rule read
    have some : inner.trees ≠ [] := by
      intro none
      simp [Expr.applied, none] at same
    rw [if_neg Bool.false_ne_true, Expr.applied_of_trees some] at same
    simp only [Reading.mk.injEq, List.cons.injEq, Tree.node.injEq, and_true] at same
    obtain ⟨⟨-, rfl⟩, -⟩ := same
    obtain ⟨inner, listed, label⟩ := Expr.nodesIn_of_read? readBody node mem
    exact ⟨inner, label, others inner listed⟩

/-- The context of an accepted division is the only one in its tree, and has no exception. -/
theorem contexts_of_run (h : run stream grammar projection input = .ok context) :
    context.nodes.filterMap RuleTree.grammarContext? = [(grammar, context)] ∧
      ∀ node ∈ context.nodes, RuleTree.exception? node = none := by
  unfold run at h
  split at h
  · rename_i tree found
    obtain ⟨rule, parts, rfl, name, others⟩ := exists_parts_of_division? found
    rw [ruleTree, RuleTree.bounded] at h
    cases h
    rw [Tree.nodes, nodesOf_ruleTrees]
    constructor
    · have inner : ((Tree.nodesOf parts).map (ruleTree stream grammar projection)).filterMap
          RuleTree.grammarContext? = [] := by
        rw [List.filterMap_map]
        refine List.filterMap_eq_nil_iff.mpr fun node mem => ?_
        obtain ⟨rule, label, other⟩ := others node mem
        cases node with
        | leaf => cases label
        | node label children =>
            cases label
            exact if_neg other
      rw [List.filterMap_cons, inner]
      simp [RuleTree.grammarContext?, RuleTree.kind?, Tree.label?, name]
    · rw [List.forall_mem_cons, List.forall_mem_map]
      refine ⟨rfl, fun node mem => ?_⟩
      cases node with
      | leaf => rfl
      | node label children => rfl
  · cases h

end Reparse

/-! ### Rereadings -/

/-- A division that is read again: its grammar and its node, the context that it becomes, and what
is reported of it. -/
structure Rereading where
  grammar : GrammarName
  node : LocatedTree
  context : RuleTree
  report : Option Diagnostic

namespace Rereading

variable (rereading : Rereading) (stream : Stream)

/-- What the grammar makes of a text that stands at an offset of the stream. -/
def outcome (start : Nat) (text : Text) : Except ReparseFailure RuleTree :=
  let padding := stream.paddingBefore start
  Reparse.run stream rereading.grammar ⟨padding.byteLength, start⟩ (padding ++ text)

/-- The grammar refuses the division. Its context is the row of its tokens with the reason for
exception, and the reason is reported at one place, no earlier than the first token and no later
than the end of the division. -/
structure Refused (start : Nat) (reason : String) (report : Diagnostic) : Prop where
  exception : RuleTree.exception? rereading.context = some reason
  terminals : rereading.context.terminals = rereading.node.tokens.map stream.terminalOf
  label : report.code.label = "E0401"
  severity : report.severity = .error
  division : report.division = some rereading.grammar.toDivision
  hint : report.hint = some reason
  range : report.range = .empty report.range.start
  behind : start ≤ report.range.start
  upTo : report.range.start ≤ (LocatedTree.range rereading.node).stop
  boundary : stream.text.slice? report.range.start report.range.start = some []
  position : report.position = stream.position report.range.start
  related : report.related = []

/-- The division is read from its first token on, by itself: it becomes what its grammar reads of
its own text, or it is refused and reported. -/
structure Holds (start : Nat) (text : Text) : Prop where
  begins : rereading.node.tokens.head?.map (·.start) = some start
  slice : stream.text.slice? start (LocatedTree.range rereading.node).stop = some text
  kind : RuleTree.kind? rereading.context =
    some (.grammar rereading.grammar rereading.grammar.divisionRule)
  accepted : rereading.report = none → rereading.outcome stream start text = .ok rereading.context
  refused : ∀ report ∈ rereading.report, ∃ failure,
    rereading.outcome stream start text = .error failure ∧
      rereading.Refused stream start failure.message report

end Rereading

section Division

variable {stream : Stream} {grammar : GrammarName} {tree : SourceTree} {start : Nat}

theorem kind?_refused (leaves : List Leaf) (reason : String) :
    RuleTree.kind? (refused stream grammar leaves reason) =
      some (.grammar grammar grammar.divisionRule) := rfl

theorem nodes_refused (leaves : List Leaf) (reason : String) :
    (refused stream grammar leaves reason).nodes = [refused stream grammar leaves reason] := by
  have none (terminals : List Terminal) :
      Tree.nodesOf (terminals.map (.leaf : Terminal → RuleTree)) = [] := by
    induction terminals with
    | nil => rfl
    | cons terminal rest ih => exact ih
  rw [refused, Tree.nodes, none]

theorem terminals_refused (leaves : List Leaf) (reason : String) :
    (refused stream grammar leaves reason).terminals = leaves.map stream.terminalOf := by
  rw [RuleTree.terminals, LeafWalk.toList_ofTree]
  exact Tree.leavesOf_map_leaf _

/-- A division that its grammar refuses is reported within its own text. -/
theorem Rereading.refused_of_error {text : Text} {place : Nat} {failure : ReparseFailure}
    (slice : stream.text.slice? place (LocatedTree.range (locateAt start tree)).stop = some text)
    (failed : Reparse.run stream grammar ⟨(stream.paddingBefore place).byteLength, place⟩
      (stream.paddingBefore place ++ text) = .error failure) :
    Rereading.Refused ⟨grammar, locateAt start tree,
      refused stream grammar (locateAt start tree).tokens failure.message,
      some (grammarReport stream grammar.toDivision failure)⟩ stream place failure.message
        (grammarReport stream grammar.toDivision failure) := by
  obtain ⟨before, after, rfl, offset⟩ := Reparse.exists_split_of_error failed
  obtain ⟨-, -, -, -, stop⟩ := Text.slice?_eq_some_iff.mp slice
  rw [← stop] at slice
  have behind := (Text.slice?_of_append slice).2
  rw [← offset] at behind
  have boundary : stream.text.slice? failure.offset failure.offset = some [] :=
    (Text.slice?_of_append (s := []) behind).1
  constructor
  case exception => rfl
  case terminals => exact terminals_refused _ _
  case label => rfl
  case severity => rfl
  case division => rfl
  case hint => rfl
  case range => rfl
  case behind =>
    change place ≤ failure.offset
    omega
  case upTo =>
    change failure.offset ≤ (LocatedTree.range (locateAt start tree)).stop
    rw [Text.byteLength_append] at stop
    omega
  case boundary => exact boundary
  case position => rfl
  case related => rfl

/-- What is read of a division from its first token on is its context, the only one in what the
division becomes. -/
theorem exists_report_readAs {first : Leaf} {text : Text}
    (begins : (locateAt start tree).tokens.head?.map (·.start) = some first.start)
    (slice : stream.text.slice? first.start (LocatedTree.range (locateAt start tree)).stop =
      some text) :
    let result := readAs stream grammar grammar.toDivision (locateAt start tree) first text
    ∃ report, result.2 = report.toList ∧
      Rereading.Holds ⟨grammar, locateAt start tree, result.1, report⟩ stream first.start text ∧
      result.1.nodes.filterMap RuleTree.grammarContext? = [(grammar, result.1)] ∧
      result.1.nodes.filter (fun node => (RuleTree.exception? node).isSome) =
        if report.isSome then [result.1] else [] := by
  rw [readAs]
  split
  · rename_i context read
    obtain ⟨contexts, silent⟩ := Reparse.contexts_of_run read
    refine ⟨none, rfl, ?_, contexts, ?_⟩
    · constructor
      case begins => exact begins
      case slice => exact slice
      case kind => exact (Reparse.spec_of_run read).1
      case accepted => exact fun _ => read
      case refused =>
        intro report mem
        cases mem
    · refine List.filter_eq_nil_iff.mpr fun node mem => ?_
      rw [silent node mem]
      exact Bool.false_ne_true
  · rename_i failure failed
    refine ⟨some (grammarReport stream grammar.toDivision failure), rfl, ?_, ?_, ?_⟩
    · constructor
      case begins => exact begins
      case slice => exact slice
      case kind => rfl
      case accepted =>
        intro none
        cases none
      case refused =>
        intro report mem
        obtain rfl := Option.some.inj mem
        exact ⟨failure, failed, Rereading.refused_of_error slice failed⟩
    · rw [nodes_refused]
      simp [RuleTree.grammarContext?, kind?_refused]
    · rw [nodes_refused]
      rfl

/-- A division with a grammar is read again, and its context is the only one in what it becomes. -/
theorem exists_rereading
    (slice : stream.text.slice? start (start + (SourceTree.text tree).byteLength) =
      some (SourceTree.text tree)) {result : RuleTree × List Diagnostic}
    (converted : Conversion.division stream grammar.toDivision (locateAt start tree) =
      .ok result) :
    ∃ report place text, result.2 = report.toList ∧
      Rereading.Holds ⟨grammar, locateAt start tree, result.1, report⟩ stream place text ∧
      result.1.nodes.filterMap RuleTree.grammarContext? = [(grammar, result.1)] ∧
      result.1.nodes.filter (fun node => (RuleTree.exception? node).isSome) =
        if report.isSome then [result.1] else [] := by
  unfold Conversion.division at converted
  split at converted
  · cases converted
  · rename_i first others tokens
    simp only [GrammarName.ofDivision?_eq_some_iff.mpr rfl, Except.ok.injEq] at converted
    subst converted
    obtain ⟨leading, rest, split, -, place, same⟩ :=
      byGrammar_eq stream grammar grammar.toDivision start tokens
    have begins : (locateAt start tree).tokens.head?.map (·.start) = some first.start := by
      rw [tokens]
      rfl
    rw [text_eq_textOf, split, Lexeme.textOf_append] at slice
    have own := (Text.slice?_of_append slice).2
    have stop : (LocatedTree.range (locateAt start tree)).stop =
        start + (Lexeme.textOf leading).byteLength +
          (Lexeme.textOf (first.toLexeme :: rest)).byteLength := by
      rw [range_locateAt, Range.ofText, text_eq_textOf, split, Lexeme.textOf_append,
        Text.byteLength_append, Nat.add_assoc]
    rw [← stop, ← place] at own
    obtain ⟨report, told⟩ := exists_report_readAs begins own
    rw [same]
    exact ⟨report, first.start, _, told⟩

end Division

/-! ### Accounts -/

/-- The divisions with a grammar in a forest, their contexts among some rules, the exceptions among
these and some reports are all told by one row of rereadings. -/
structure Accounts (stream : Stream) (rereadings : List Rereading) (forest : List LocatedTree)
    (rules : List RuleTree) (reports : List Diagnostic) : Prop where
  divisions : (Tree.nodesOf forest).filterMap LocatedTree.grammarDivision? =
    rereadings.map fun rereading => (rereading.grammar, rereading.node)
  contexts : (Tree.nodesOf rules).filterMap RuleTree.grammarContext? =
    rereadings.map fun rereading => (rereading.grammar, rereading.context)
  exceptions : (Tree.nodesOf rules).filter (fun node => (RuleTree.exception? node).isSome) =
    (rereadings.filter (·.report.isSome)).map (·.context)
  reports : reports.Perm (rereadings.filterMap (·.report))
  holds : ∀ rereading ∈ rereadings, ∃ start text, rereading.Holds stream start text

section Accounts

variable {stream : Stream} {rereadings others : List Rereading} {forest behind : List LocatedTree}
  {rules later : List RuleTree} {reports more : List Diagnostic}

/-- Nothing is to be told of nodes that are no divisions with a grammar. -/
theorem accounts_silent (divisions : ∀ node ∈ Tree.nodesOf forest,
      LocatedTree.grammarDivision? node = none)
    (contexts : ∀ node ∈ Tree.nodesOf rules, RuleTree.Silent node) :
    Accounts stream [] forest rules [] where
  divisions := List.filterMap_eq_nil_iff.mpr divisions
  contexts := List.filterMap_eq_nil_iff.mpr fun node mem => (contexts node mem).1
  exceptions := List.filter_eq_nil_iff.mpr fun node mem => by
    rw [(contexts node mem).2]
    exact Bool.false_ne_true
  reports := .nil
  holds := List.forall_mem_nil _

theorem Accounts.append (h : Accounts stream rereadings forest rules reports)
    (k : Accounts stream others behind later more) :
    Accounts stream (rereadings ++ others) (forest ++ behind) (rules ++ later)
      (reports ++ more) where
  divisions := by
    rw [Tree.nodesOf_append, List.filterMap_append, h.divisions, k.divisions, List.map_append]
  contexts := by
    rw [Tree.nodesOf_append, List.filterMap_append, h.contexts, k.contexts, List.map_append]
  exceptions := by
    rw [Tree.nodesOf_append, List.filter_append, h.exceptions, k.exceptions, List.filter_append,
      List.map_append]
  reports := by
    rw [List.filterMap_append]
    exact h.reports.append k.reports
  holds := List.forall_mem_append.mpr ⟨h.holds, k.holds⟩

/-- In which order the reports come makes no difference. -/
theorem Accounts.perm (h : Accounts stream rereadings forest rules reports)
    (same : more.Perm reports) : Accounts stream rereadings forest rules more :=
  { h with reports := same.trans h.reports }

/-- A node around the divisions that is no division with a grammar adds nothing. -/
theorem Accounts.node (h : Accounts stream rereadings forest rules reports) {extent : Extent}
    (other : LocatedTree.grammarDivision? (.node extent forest) = none) :
    Accounts stream rereadings [.node extent forest] rules reports :=
  { h with
    divisions := by
      rw [Tree.nodesOf, Tree.nodes, Tree.nodesOf, List.append_nil, List.filterMap_cons, other]
      exact h.divisions }

/-- A rule around the contexts that is no context of a division adds nothing, and neither do plain
rules behind them. -/
theorem Accounts.rule (h : Accounts stream rereadings forest rules reports) {head : RuleHead}
    {trailer : List RuleTree} (plain : ∀ rule ∈ trailer, RuleTree.Plain rule)
    (silent : RuleTree.Silent (.node head (rules ++ trailer))) :
    Accounts stream rereadings forest [.node head (rules ++ trailer)] reports := by
  have none : ∀ node ∈ Tree.nodesOf trailer, RuleTree.Silent node := by
    intro node mem
    rw [Tree.nodesOf_eq_flatMap] at mem
    obtain ⟨rule, among, inside⟩ := List.mem_flatMap.mp mem
    exact (plain rule among).silent node inside
  have last : Accounts stream [] [] trailer [] := accounts_silent (List.forall_mem_nil _) none
  have all := h.append last
  rw [List.append_nil, List.append_nil, List.append_nil] at all
  refine { all with contexts := ?_, exceptions := ?_ }
  · rw [Tree.nodesOf, Tree.nodes, Tree.nodesOf, List.append_nil, List.filterMap_cons, silent.1]
    exact all.contexts
  · rw [Tree.nodesOf, Tree.nodes, Tree.nodesOf, List.append_nil,
      List.filter_cons_of_neg (by rw [silent.2]; exact Bool.false_ne_true)]
    exact all.exceptions

/-- The account of a unit is that of its parts. -/
theorem Accounts.unit {parts : List SourceTree} {start : Nat}
    (h : Accounts stream rereadings (locateAllAt start parts) rules reports) :
    Accounts stream rereadings [locateAt start (.node .programUnit parts)]
      [unitRule stream (locateAt start (.node .programUnit parts)) rules] reports :=
  (h.node rfl).rule (plain_trailer stream _) ⟨rfl, rfl⟩

end Accounts

namespace Conversion

variable {stream : Stream}

/-- The account of one division with a grammar. -/
theorem exists_accounts_division {grammar : GrammarName} {tree : SourceTree}
    (conforms : IsDivision grammar.toDivision tree) {start : Nat}
    (slice : stream.text.slice? start (start + (SourceTree.text tree).byteLength) =
      some (SourceTree.text tree)) {result : RuleTree × List Diagnostic}
    (converted : Conversion.division stream grammar.toDivision (locateAt start tree) =
      .ok result) :
    ∃ rereadings, Accounts stream rereadings [locateAt start tree] [result.1] result.2 := by
  obtain ⟨report, place, text, reports, holds, contexts, exceptions⟩ :=
    exists_rereading slice converted
  obtain ⟨children, rfl, kinds⟩ := conforms.kindsIn
  have own : LocatedTree.grammarDivision?
      (locateAt start (.node grammar.toDivision.kind children)) =
        some (grammar, locateAt start (.node grammar.toDivision.kind children)) := by
    rw [LocatedTree.grammarDivision?, locateAt, LocatedTree.kind,
      Division.ofKind?_eq_some_iff.mpr rfl, Option.bind_some,
      GrammarName.ofDivision?_eq_some_iff.mpr rfl]
    rfl
  have below : (Tree.nodesOf (locateAllAt start children)).filterMap
      LocatedTree.grammarDivision? = [] :=
    List.filterMap_eq_nil_iff.mpr fun node mem =>
      LocatedTree.grammarDivision?_of_mem_bodyKinds (kinds start node mem)
  refine ⟨[⟨grammar, locateAt start (.node grammar.toDivision.kind children), result.1, report⟩],
    ?_, ?_, ?_, ?_, ?_⟩
  · rw [locateAt] at own ⊢
    rw [Tree.nodesOf, Tree.nodes, Tree.nodesOf, List.append_nil, List.filterMap_cons, own, below]
    rfl
  · rw [Tree.nodesOf, Tree.nodesOf, List.append_nil, contexts]
    rfl
  · rw [Tree.nodesOf, Tree.nodesOf, List.append_nil, exceptions]
    cases report <;> rfl
  · rw [reports]
    cases report <;> exact .refl _
  · rw [List.forall_mem_singleton]
    exact ⟨place, text, holds⟩

/-- Nothing is to be told of a part without a grammar: no division below it has one, and it becomes
a plain rule. -/
theorem accounts_plain {tree : LocatedTree} {rule : RuleTree}
    (divisions : ∀ node ∈ Tree.nodesOf [tree], LocatedTree.grammarDivision? node = none)
    (plain : RuleTree.Plain rule) : Accounts stream [] [tree] [rule] [] := by
  refine accounts_silent divisions ?_
  rw [Tree.nodesOf, Tree.nodesOf, List.append_nil]
  exact plain.silent

/-- The account of one part of a unit that is no unit itself. -/
theorem exists_accounts_plainPart {tree : SourceTree} (part : IsPlainPart tree) {start : Nat}
    (slice : stream.text.slice? start (start + (SourceTree.text tree).byteLength) =
      some (SourceTree.text tree)) {result : RuleTree × List Diagnostic}
    (converted : plainPart stream (locateAt start tree) = .ok result) :
    ∃ rereadings, Accounts stream rereadings [locateAt start tree] [result.1] result.2 := by
  cases part with
  | stray plain =>
      have kinds := plain.kindsIn (List.mem_singleton_self _) start
      cases plain with
      | of _ =>
          cases converted
          refine ⟨[], accounts_plain (fun node mem => ?_) (plain_ruleOf stream (by decide) _)⟩
          rw [LocatedTree.grammarDivision?, List.mem_singleton.mp (kinds node mem)]
          rfl
  | @division division _ conforms =>
      rw [plainPart_of_isDivision stream conforms] at converted
      cases named : GrammarName.ofDivision? division with
      | some grammar =>
          obtain rfl := GrammarName.ofDivision?_eq_some_iff.mp named
          exact exists_accounts_division conforms slice converted
      | none =>
          obtain rfl : division = .procedure := by cases division <;> first | rfl | cases named
          obtain ⟨rule, procedure⟩ := procedure_ok stream conforms start
          obtain ⟨children, rfl, kinds⟩ := conforms.kindsIn
          have same : result = (rule, []) := by
            simp only [Conversion.division, GrammarName.ofDivision?, procedure, Except.map]
              at converted
            split at converted
            · cases converted
            · exact (Except.ok.inj converted).symm
          subst same
          refine ⟨[], accounts_plain (fun node mem => ?_) (plain_procedure stream procedure)⟩
          rw [Tree.nodesOf, Tree.nodesOf, List.append_nil, locateAt, Tree.nodes] at mem
          rcases List.mem_cons.mp mem with rfl | below
          · rfl
          · exact LocatedTree.grammarDivision?_of_mem_bodyKinds (kinds start node below)

/-- The account of the parts of a unit: what is reported of units nested among them comes first. -/
theorem exists_accounts_parts {begun : Bool} {parts : List SourceTree} (h : UnitParts begun parts) :
    ∀ start, stream.text.slice? start (start + (textOf parts).byteLength) = some (textOf parts) →
      ∃ rereadings, Accounts stream rereadings (locateAllAt start parts)
        (partRules stream (locateAllAt start parts))
        (unitReports stream (locateAllAt start parts) ++
          partReports stream (locateAllAt start parts)) := by
  refine h.induction (motive := fun _ parts => ∀ start,
    stream.text.slice? start (start + (textOf parts).byteLength) = some (textOf parts) →
      ∃ rereadings, Accounts stream rereadings (locateAllAt start parts)
        (partRules stream (locateAllAt start parts))
        (unitReports stream (locateAllAt start parts) ++
          partReports stream (locateAllAt start parts))) ?nil ?leaf ?plain ?nested
  case nil =>
    intro begun start _
    rw [locateAllAt, partRules, unitReports, partReports]
    exact ⟨[], accounts_silent (List.forall_mem_nil _) (List.forall_mem_nil _)⟩
  case leaf =>
    intro begun lexeme rest ih start slice
    rw [textOf_cons] at slice
    obtain ⟨rereadings, accounts⟩ := ih _ (Text.slice?_of_append slice).2
    have leaf : Accounts stream [] [locateAt start (.leaf lexeme)] [] [] :=
      accounts_silent (List.forall_mem_nil _) (List.forall_mem_nil _)
    rw [locateAllAt, locateAt, partRules, unitReports, partReports]
    exact ⟨rereadings, leaf.append accounts⟩
  case plain =>
    intro begun later kind children rest other part ih start slice
    rw [textOf_cons] at slice
    obtain ⟨here, behind⟩ := Text.slice?_of_append slice
    obtain ⟨result, converted⟩ := part.spec.converts stream start
    obtain ⟨first, own⟩ := exists_accounts_plainPart part here converted
    obtain ⟨others, accounts⟩ := ih _ behind
    rw [partRules_plainPart stream rest part converted]
    refine ⟨first ++ others, (own.append accounts).perm ?_⟩
    rw [locateAt] at converted
    rw [locateAllAt, locateAt, unitReports, partReports, if_neg other, if_neg other, converted,
      List.append_nil, Except.toOption, Option.map_some, Option.getD_some]
    exact List.perm_append_comm_assoc _ _ _
  case nested =>
    intro parts rest _ _ below ih start slice
    rw [textOf_cons] at slice
    obtain ⟨here, behind⟩ := Text.slice?_of_append slice
    obtain ⟨first, inner⟩ := below start here
    obtain ⟨others, accounts⟩ := ih _ behind
    rw [partRules_nested]
    refine ⟨first ++ others, (inner.unit.append accounts).perm ?_⟩
    rw [locateAllAt, locateAt, unitReports, partReports, if_pos rfl, if_pos rfl, List.nil_append]
    exact (List.perm_append_comm.append_right _).trans (by rw [List.append_assoc])

/-- The account of a source unit: what is reported of later units comes first. -/
theorem exists_accounts_units {children : List SourceTree} (units : Among IsUnit children)
    {start : Nat} (slice : stream.text.slice? start (start + (textOf children).byteLength) =
      some (textOf children)) :
    ∃ rereadings, Accounts stream rereadings (locateAllAt start children)
      (rootRules stream (locateAllAt start children))
      (unitReports stream (locateAllAt start children)) := by
  induction children generalizing start with
  | nil =>
      rw [locateAllAt, rootRules, unitReports]
      exact ⟨[], accounts_silent (List.forall_mem_nil _) (List.forall_mem_nil _)⟩
  | cons tree rest ih =>
      obtain ⟨first, later⟩ := among_cons.mp units
      rw [textOf_cons] at slice
      obtain ⟨here, behind⟩ := Text.slice?_of_append slice
      obtain ⟨others, accounts⟩ := ih later behind
      rcases first with ⟨lexeme, rfl, trivial⟩ | unit
      · have leaf : Accounts stream [] [locateAt start (.leaf lexeme)] [] [] :=
          accounts_silent (List.forall_mem_nil _) (List.forall_mem_nil _)
        rw [locateAllAt, locateAt, rootRules, if_pos trivial, unitReports]
        exact ⟨others, leaf.append accounts⟩
      · cases unit with
        | @of parts inner _ =>
            obtain ⟨first, own⟩ := exists_accounts_parts inner start here
            refine ⟨first ++ others, ?_⟩
            rw [locateAllAt, locateAt, rootRules, if_pos rfl, unitReports, if_pos rfl]
            exact (own.unit.append accounts).perm List.perm_append_comm

end Conversion

/-! ### Whole texts -/

section Adapted

variable {stream : Stream} {rereadings : List Rereading} {forest : List LocatedTree}
  {adapted : Adapted}

theorem Accounts.any_isError_iff
    (h : Accounts stream rereadings forest [adapted.tree] adapted.diagnostics) :
    adapted.diagnostics.any (·.isError) = true ↔
      ∃ rereading ∈ rereadings, rereading.report.isSome = true := by
  rw [List.any_eq_true]
  constructor
  · rintro ⟨report, mem, -⟩
    obtain ⟨rereading, among, same⟩ := List.mem_filterMap.mp (h.reports.mem_iff.mp mem)
    exact ⟨rereading, among, Option.isSome_of_eq_some same⟩
  · rintro ⟨rereading, among, some⟩
    obtain ⟨report, same⟩ := Option.isSome_iff_exists.mp some
    obtain ⟨start, text, holds⟩ := h.holds rereading among
    obtain ⟨failure, -, refused⟩ := holds.refused report same
    refine ⟨report, h.reports.mem_iff.mpr (List.mem_filterMap.mpr ⟨rereading, among, same⟩), ?_⟩
    rw [Diagnostic.isError, refused.severity]
    rfl

theorem Accounts.hasException_iff
    (h : Accounts stream rereadings forest [adapted.tree] adapted.diagnostics) :
    RuleTree.hasException adapted.tree = true ↔
      ∃ rereading ∈ rereadings, rereading.report.isSome = true := by
  have exceptions := h.exceptions
  rw [Tree.nodesOf, Tree.nodesOf, List.append_nil] at exceptions
  change adapted.tree.nodes.any (fun node => (RuleTree.exception? node).isSome) = true ↔ _
  rw [List.any_eq_true]
  constructor
  · rintro ⟨node, mem, some⟩
    have listed : node ∈ adapted.tree.nodes.filter fun node => (RuleTree.exception? node).isSome :=
      List.mem_filter.mpr ⟨mem, some⟩
    rw [exceptions] at listed
    obtain ⟨rereading, among, -⟩ := List.mem_map.mp listed
    exact ⟨rereading, List.mem_filter.mp among⟩
  · rintro ⟨rereading, among, some⟩
    have listed : rereading.context ∈
        (rereadings.filter (·.report.isSome)).map (·.context) :=
      List.mem_map_of_mem (List.mem_filter.mpr ⟨among, some⟩)
    rw [← exceptions] at listed
    exact ⟨rereading.context, List.mem_filter.mp listed⟩

/-- Where everything is accounted for, there is an exception exactly where there is a report. -/
theorem Accounts.isOk_eq
    (h : Accounts stream rereadings forest [adapted.tree] adapted.diagnostics) :
    adapted.isOk = !RuleTree.hasException adapted.tree := by
  rw [Adapted.isOk, Bool.eq_iff_iff.mpr (h.any_isError_iff.trans h.hasException_iff.symm)]

end Adapted

namespace Analysis

/-- The divisions with a grammar in the parsed tree, their contexts in the rule tree, its exceptions
and the reports of the conversion are told by one row of rereadings, and the conversion is in order
exactly where the rule tree has no exception. -/
def AccountsFor (stream : Stream) (analysis : Analysis) : Prop :=
  (∃ rereadings, Accounts stream rereadings [analysis.parsed.tree.locate] [analysis.adapted.tree]
    analysis.adapted.diagnostics) ∧
  analysis.adapted.isOk = !RuleTree.hasException analysis.adapted.tree

theorem accountsFor_ofStream (settings : Settings) (stream : Stream) :
    ∃ analysis, ofStream settings stream = .ok analysis ∧ analysis.AccountsFor stream := by
  obtain ⟨children, parsed, units, -, converted⟩ := ofStream_eq settings stream
  have text := Parsed.textOf_children parsed
  have slice : stream.text.slice? 0 (0 + (textOf children).byteLength) = some (textOf children) :=
    Text.slice?_eq_some_iff.mpr ⟨[], [], by simp [text], rfl, rfl⟩
  obtain ⟨rereadings, accounts⟩ := exists_accounts_units units slice
  have unit : Accounts stream rereadings (locateAllAt 0 children)
      [RuleTree.bounded .compilationUnit (rootRules stream (locateAllAt 0 children) ++ [])]
      (unitReports stream (locateAllAt 0 children)) :=
    accounts.rule (List.forall_mem_nil _) ⟨rfl, rfl⟩
  rw [List.append_nil] at unit
  have last : ∀ rule ∈ [(.leaf stream.endOfInput : RuleTree)], RuleTree.Plain rule := by
    rw [List.forall_mem_singleton]
    exact RuleTree.plain_leaf _
  have all : Accounts stream rereadings [locate (.node .sourceUnit children)]
      [startRule stream (LocatedTree.tokens (locate (.node .sourceUnit children)))
        (rootRules stream (locateAllAt 0 children))]
      (unitReports stream (locateAllAt 0 children)) :=
    Accounts.rule (unit.node rfl) last ⟨rfl, rfl⟩
  refine ⟨_, converted, ⟨rereadings, ?_⟩, all.isOk_eq⟩
  rw [parsed]
  exact all

/-- In every analysed text, and in every expanded text, refusals are accounted for. -/
theorem accountsFor (settings : Settings) :
    (∀ text, ∃ analysis, ofText settings text = .ok analysis ∧
      analysis.AccountsFor (.ofText text)) ∧
    ∀ document, ∃ analysis, ofDocument settings document = .ok analysis ∧
      analysis.AccountsFor (.ofDocument document) :=
  ⟨fun text => accountsFor_ofStream settings (.ofText text),
    fun document => accountsFor_ofStream settings (.ofDocument document)⟩

end Analysis

end CobolTree
