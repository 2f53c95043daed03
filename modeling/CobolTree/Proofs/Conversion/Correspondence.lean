import CobolTree.Proofs.Conversion.Contexts

/-!
The units of a source tree and of its rule tree. Both make up the same forest: units are in the
same order and nesting, each of them once (`unitForest_rootRules`), whatever is told of a unit that
its rule tells as well. So a unit begins with its first token, its parts become rules one by one,
and its trailer becomes the last of them (`units_correspond`).
-/

namespace CobolTree

open Conversion SourceTree
open LocatedTree (outerTokens unitRangesOf isUnit ownTokensOf)

variable {β : Type}

/-- The units in a forest of rule trees, each by what is told of it. -/
def RuleTree.unitForest (told : RuleTree → β) (forest : List RuleTree) : List (Tree β Empty) :=
  Tree.selectAll (fun tree => if kind? tree = some .programUnit then some (told tree) else none)
    forest

/-- The units in a forest of source trees, each by what is told of it. -/
def LocatedTree.unitForest (told : LocatedTree → β) (forest : List LocatedTree) :
    List (Tree β Empty) :=
  Tree.selectAll (fun tree => if isUnit tree then some (told tree) else none) forest

/-- A unit at a glance: its first token, and its parts. -/
structure UnitSketch where
  first : Option Range
  parts : List PartSketch
deriving DecidableEq, Repr

/-- What a unit is to become: its parts one by one, and its trailer behind them if it has one. -/
def LocatedTree.unitSketch (unit : LocatedTree) : UnitSketch where
  first := unit.tokens.head?.map (·.range)
  parts := unit.childNodes.map LocatedTree.sketch ++
    (unit.ownTokens.head?.map fun first => ⟨some .endProgramStatement, some first.start⟩).toList

/-- The rule of a unit at a glance. -/
def RuleTree.unitSketch (tree : RuleTree) : UnitSketch where
  first := (start? tree).map (·.range)
  parts := tree.children.map RuleTree.sketch

/-! ### The forest of units -/

section Forest

variable {told : RuleTree → β} {expected : LocatedTree → β}

theorem RuleTree.unitForest_append (s t : List RuleTree) :
    unitForest told (s ++ t) = unitForest told s ++ unitForest told t := Tree.selectAll_append s t

theorem RuleTree.unitForest_cons (tree : RuleTree) (rest : List RuleTree) :
    unitForest told (tree :: rest) = unitForest told [tree] ++ unitForest told rest :=
  Tree.selectAll_cons tree rest

theorem LocatedTree.unitForest_cons (tree : LocatedTree) (rest : List LocatedTree) :
    unitForest expected (tree :: rest) = unitForest expected [tree] ++ unitForest expected rest :=
  Tree.selectAll_cons tree rest

theorem LocatedTree.unitForest_unit {extent : Extent} (unit : extent.kind = .programUnit)
    (children : List LocatedTree) :
    unitForest expected [.node extent children] =
      [.node (expected (.node extent children)) (unitForest expected children)] :=
  Tree.selectAll_of_some (if_pos (by rw [isUnit_node, unit]; rfl))

theorem RuleTree.unitForest_of_contextless {forest : List RuleTree}
    (h : ∀ tree ∈ forest, Contextless tree) : unitForest told forest = [] := by
  refine Tree.selectAll_eq_nil fun node mem => if_neg ?_
  rw [Tree.nodesOf_eq_flatMap] at mem
  obtain ⟨tree, inside, below⟩ := List.mem_flatMap.mp mem
  exact h tree inside node below

theorem LocatedTree.unitForest_of_unitRangesOf {forest : List LocatedTree}
    (none : unitRangesOf forest = []) : unitForest expected forest = [] := by
  refine Tree.selectAll_eq_nil fun node mem => if_neg fun unit => ?_
  have inside : LocatedTree.range node ∈ unitRangesOf forest :=
    List.mem_map.mpr ⟨node, List.mem_filter.mpr ⟨mem, unit⟩, rfl⟩
  rw [none] at inside
  cases inside

/-- What is told to hold of each unit holds of every rule of a unit in a forest. -/
theorem RuleTree.forall_of_unitForest {told : RuleTree → Prop} {rules : List RuleTree}
    {forest : List LocatedTree}
    (same : unitForest told rules = LocatedTree.unitForest (fun _ => True) forest) :
    ∀ rule ∈ Tree.nodesOf rules, kind? rule = some .programUnit → told rule :=
  Tree.forall_of_selectAll same

/-- What is told to hold of each rule of a unit holds of every unit in a forest. -/
theorem LocatedTree.forall_of_unitForest {told : LocatedTree → Prop} {rules : List RuleTree}
    {forest : List LocatedTree}
    (same : RuleTree.unitForest (fun _ => True) rules = unitForest told forest) :
    ∀ unit ∈ Tree.nodesOf forest, isUnit unit = true → told unit :=
  Tree.forall_of_selectAll same.symm

variable (stream : Stream)

/-- The rule of a unit selects itself, with the units among its parts. -/
theorem unitForest_unitRule (unit : LocatedTree) (parts : List RuleTree) :
    RuleTree.unitForest told [unitRule stream unit parts] =
      [.node (told (unitRule stream unit parts)) (RuleTree.unitForest told parts)] := by
  have own : RuleTree.unitForest told (trailer stream unit.ownTokens) = [] :=
    RuleTree.unitForest_of_contextless fun part mem =>
      (plain_trailer stream unit.ownTokens part mem).contextless
  have below : RuleTree.unitForest told (parts ++ trailer stream unit.ownTokens) =
      RuleTree.unitForest told parts := by
    rw [RuleTree.unitForest_append, own, List.append_nil]
  rw [← below]
  exact Tree.selectAll_of_some rfl

/-- What is told of the rule of a unit is what is expected of the unit. -/
def RuleTells (told : RuleTree → β) (expected : LocatedTree → β) : Prop :=
  ∀ (parts : List SourceTree) (start : Nat), UnitParts false parts → Legible parts →
    Lexeme.significant (Tree.leavesOf parts) ≠ [] →
      told (unitRule stream (locateAt start (.node .programUnit parts))
        (partRules stream (locateAllAt start parts))) =
          expected (locateAt start (.node .programUnit parts))

variable {stream}

theorem unitForest_unit (tells : RuleTells stream told expected) {parts : List SourceTree}
    {start : Nat} (inner : UnitParts false parts) (legible : Legible parts)
    (carries : Lexeme.significant (Tree.leavesOf parts) ≠ [])
    (below : RuleTree.unitForest told (partRules stream (locateAllAt start parts)) =
      LocatedTree.unitForest expected (locateAllAt start parts)) :
    RuleTree.unitForest told [unitRule stream (locateAt start (.node .programUnit parts))
        (partRules stream (locateAllAt start parts))] =
      LocatedTree.unitForest expected [locateAt start (.node .programUnit parts)] := by
  rw [unitForest_unitRule, tells parts start inner legible carries, below]
  exact (LocatedTree.unitForest_unit rfl _).symm

/-- The rules of the parts of a unit have the units among the parts. -/
theorem unitForest_partRules (tells : RuleTells stream told expected) {begun : Bool}
    {parts : List SourceTree} (h : UnitParts begun parts) : Legible parts →
    ∀ start, RuleTree.unitForest told (partRules stream (locateAllAt start parts)) =
      LocatedTree.unitForest expected (locateAllAt start parts) := by
  refine UnitParts.induction (motive := fun _ parts => Legible parts → ∀ start,
    RuleTree.unitForest told (partRules stream (locateAllAt start parts)) =
      LocatedTree.unitForest expected (locateAllAt start parts)) ?nil ?leaf ?plain ?nested h
  case nil =>
    intro begun _ start
    rw [locateAllAt, partRules]
    rfl
  case leaf =>
    intro begun lexeme rest ih legible start
    rw [partRules_leaf]
    exact ih (legible_cons.mp legible).2 _
  case plain =>
    intro begun later kind children rest other conforms ih legible start
    obtain ⟨result, converted⟩ := conforms.spec.converts stream start
    have rule : RuleTree.unitForest told [result.1] = [] :=
      RuleTree.unitForest_of_contextless
        (List.forall_mem_singleton.mpr (spec_plainPart stream conforms converted).2.1)
    have node : LocatedTree.unitForest expected [locateAt start (.node kind children)] = [] :=
      LocatedTree.unitForest_of_unitRangesOf (conforms.spec.unitless start)
    rw [partRules_plainPart stream rest conforms converted, RuleTree.unitForest_cons, rule,
      ih (legible_cons.mp legible).2, locateAllAt, LocatedTree.unitForest_cons, node]
  case nested =>
    intro parts rest opens inner below ih legible start
    obtain ⟨nested, later⟩ := legible_cons.mp legible
    have carries := significant_ne_nil_of_opensDivision opens
    have here := unitForest_unit tells inner nested carries (below nested start)
    rw [partRules_nested, RuleTree.unitForest_cons, here, ih later, locateAllAt]
    exact (LocatedTree.unitForest_cons _ _).symm

/-- The rules of a source unit have its units. -/
theorem unitForest_rootRules (tells : RuleTells stream told expected) {children : List SourceTree}
    (units : Among IsUnit children) (legible : Legible children) (start : Nat) :
    RuleTree.unitForest told (rootRules stream (locateAllAt start children)) =
      LocatedTree.unitForest expected (locateAllAt start children) := by
  induction children generalizing start with
  | nil =>
      rw [locateAllAt, rootRules]
      rfl
  | cons tree rest ih =>
      obtain ⟨here, behind⟩ := legible_cons.mp legible
      obtain ⟨first, later⟩ := among_cons.mp units
      have others := ih later behind (start + (SourceTree.text tree).byteLength)
      rcases first with ⟨lexeme, rfl, trivial⟩ | unit
      · rw [locateAllAt, locateAt, rootRules, if_pos trivial]
        exact others
      · cases unit with
        | @of parts inner carries =>
            have unit := unitForest_unit tells inner here carries
              (unitForest_partRules tells inner here start)
            have split : rootRules stream (locateAllAt start (.node .programUnit parts :: rest)) =
                [unitRule stream (locateAt start (.node .programUnit parts))
                  (partRules stream (locateAllAt start parts))] ++ rootRules stream
                    (locateAllAt
                      (start + (SourceTree.text (.node .programUnit parts)).byteLength) rest) := by
              rw [locateAllAt, locateAt, rootRules, if_pos rfl]
              rfl
            rw [split, RuleTree.unitForest_append, others, locateAllAt, LocatedTree.unitForest_cons,
              unit]

end Forest

/-! ### Units at a glance -/

/-- The first token of a unit stands outside of the units nested in it. -/
theorem head?_outerTokens {parts : List SourceTree} (h : UnitParts false parts) (start : Nat) :
    (outerTokens (locateAllAt start parts)).head? =
      ((Tree.leavesOf (locateAllAt start parts)).filter (!·.isTrivia)).head? := by
  refine UnitParts.induction
    (motive := fun begun parts => begun = false → ∀ start,
      (outerTokens (locateAllAt start parts)).head? =
        ((Tree.leavesOf (locateAllAt start parts)).filter (!·.isTrivia)).head?)
    ?nil ?leaf ?plain ?nested h rfl start
  case nil =>
    intro begun _ start
    rfl
  case leaf =>
    intro begun lexeme rest ih fresh start
    rw [locateAllAt, outerTokens_cons rfl, Tree.leavesOf_cons, List.filter_append]
    rw [List.head?_append, List.head?_append, ih fresh]
  case plain =>
    intro begun later kind children rest other conforms _ _ start
    have tokens := tokens_locateAt_ne_nil conforms.spec.carries start
    rw [locateAllAt, outerTokens_cons (by simp [locateAt, isUnit_node, other]), Tree.leavesOf_cons,
      List.filter_append]
    obtain ⟨first, others, split⟩ := List.exists_cons_of_ne_nil tokens
    rw [LocatedTree.tokens] at split
    rw [split]
    rfl
  case nested =>
    intro parts rest _ _ _ _ fresh
    cases fresh

theorem start?_unitRule (stream : Stream) {parts : List SourceTree} (h : UnitParts false parts)
    (start : Nat) (rules : List RuleTree) :
    RuleTree.start? (unitRule stream (locateAt start (.node .programUnit parts)) rules) =
      (locateAt start (.node .programUnit parts)).tokens.head?.map stream.terminalOf := by
  have first := head?_outerTokens h start
  exact congrArg (Option.map stream.terminalOf) first

/-- The tokens of a trailer, and the name among them: END PROGRAM, perhaps a name, perhaps a
period. -/
inductive TrailerTokens : List Leaf → Option Leaf → Prop where
  | of {first second : Leaf} {name period : Option Leaf}
      (isEnd : first.isWord "END".toList = true) (isProgram : second.isWord "PROGRAM".toList = true)
      (names : ∀ leaf ∈ name, leaf.kind = .word ∨ leaf.kind = .stringLiteral)
      (ends : ∀ leaf ∈ period, leaf.kind = .dot) :
      TrailerTokens (first :: second :: (name.toList ++ period.toList)) name

theorem exists_toList_of_map_eq {leaves : List Leaf} {lexeme : Option Lexeme}
    (h : leaves.map (·.toLexeme) = lexeme.toList) :
    ∃ leaf : Option Leaf, leaves = leaf.toList ∧ leaf.map (·.toLexeme) = lexeme := by
  cases lexeme with
  | none => exact ⟨none, List.map_eq_nil_iff.mp h, rfl⟩
  | some lexeme =>
      obtain ⟨leaf, rfl, rfl⟩ := List.map_eq_singleton_iff.mp h
      exact ⟨some leaf, rfl, rfl⟩

/-- The tokens of a trailer that lies in a row. -/
theorem SourceTree.IsTrailer.tokens {lexemes : List Lexeme} (h : IsTrailer lexemes) (start : Nat) :
    ∃ name, TrailerTokens ((Leaf.row start lexemes).filter (!·.isTrivia)) name := by
  obtain ⟨first, second, name, period, tokens, isEnd, isProgram, names, ends⟩ := h
  have same := significant_row start lexemes
  rw [tokens] at same
  obtain ⟨opening, others, here, rfl, more⟩ := List.map_eq_cons_iff.mp same
  obtain ⟨word, behind, rfl, rfl, last⟩ := List.map_eq_cons_iff.mp more
  obtain ⟨front, back, rfl, isName, isPeriod⟩ := List.map_eq_append_iff.mp last
  obtain ⟨name, rfl, rfl⟩ := exists_toList_of_map_eq isName
  obtain ⟨period, rfl, rfl⟩ := exists_toList_of_map_eq isPeriod
  rw [here]
  refine ⟨name, .of isEnd isProgram (fun leaf mem => ?_) fun leaf mem => ?_⟩
  · exact names _ (Option.mem_map_of_mem _ mem)
  · exact ends _ (Option.mem_map_of_mem _ mem)

/-- A unit has no tokens of its own but those of a trailer. -/
theorem trailerTokens_ownTokensOf {begun : Bool} {parts : List SourceTree}
    (h : UnitParts begun parts) (start : Nat) : ownTokensOf (locateAllAt start parts) = [] ∨
      ∃ name, TrailerTokens (ownTokensOf (locateAllAt start parts)) name := by
  induction h generalizing start with
  | nil => exact .inl rfl
  | trivia trivial _ ih =>
      rw [ownTokensOf_cons (.inl ⟨_, rfl, trivial⟩)]
      exact ih _
  | stray conforms _ ih =>
      rw [ownTokensOf_cons (.inr conforms.isNode)]
      exact ih _
  | division conforms _ ih =>
      rw [ownTokensOf_cons (.inr conforms.isNode)]
      exact ih _
  | nested _ _ _ _ ih =>
      rw [ownTokensOf_cons (.inr rfl)]
      exact ih _
  | trailer conforms =>
      rw [ownTokensOf_row]
      exact .inr (conforms.tokens start)

/-- The tokens of a unit's own begin with END, if there are any. -/
theorem isEnd_ownTokensOf {begun : Bool} {parts : List SourceTree} (h : UnitParts begun parts)
    (start : Nat) : ∀ first ∈ (ownTokensOf (locateAllAt start parts)).head?,
      Text.sameWord first.text "END".toList = true := by
  rcases trailerTokens_ownTokensOf h start with none | ⟨name, trailer⟩
  · rw [none]
    exact fun first mem => nomatch mem
  · generalize ownTokensOf (locateAllAt start parts) = tokens at trailer
    cases trailer with
    | of isEnd =>
        intro leaf mem
        obtain rfl := Option.some.inj mem
        exact Lexeme.sameWord_of_isWord isEnd

/-- The parts of a unit that are nodes become rules one by one. -/
theorem map_sketch_partRules (stream : Stream) {begun : Bool} {parts : List SourceTree}
    (h : UnitParts begun parts) :
    ∀ start, (partRules stream (locateAllAt start parts)).map RuleTree.sketch =
      ((locateAllAt start parts).filter Tree.isNode).map LocatedTree.sketch := by
  refine UnitParts.induction (motive := fun _ parts => ∀ start,
    (partRules stream (locateAllAt start parts)).map RuleTree.sketch =
      ((locateAllAt start parts).filter Tree.isNode).map LocatedTree.sketch)
    ?nil ?leaf ?plain ?nested h
  case nil =>
    intro begun start
    rw [locateAllAt, partRules]
    rfl
  case leaf =>
    intro begun lexeme rest ih start
    rw [partRules_leaf]
    exact ih _
  case plain =>
    intro begun later kind children rest other conforms ih start
    obtain ⟨result, converted⟩ := conforms.spec.converts stream start
    have here := (spec_plainPart stream conforms converted).1
    rw [partRules_plainPart stream rest conforms converted, List.map_cons, here, ih, locateAllAt,
      List.filter_cons_of_pos rfl, List.map_cons]
  case nested =>
    intro parts rest opens inner below ih start
    have here : RuleTree.sketch (unitRule stream (locateAt start (.node .programUnit parts))
        (partRules stream (locateAllAt start parts))) =
          (locateAt start (.node .programUnit parts)).sketch := by
      rw [RuleTree.sketch, start?_unitRule stream inner, Option.map_map]
      rfl
    rw [partRules_nested, List.map_cons, here, ih, locateAllAt, List.filter_cons_of_pos rfl,
      List.map_cons]

/-- The rule of a unit begins with the first token of the unit, and below it are the rules of the
parts of the unit one by one, and that of its trailer if it has one. -/
theorem unitSketch_unitRule (stream : Stream) :
    RuleTells stream RuleTree.unitSketch LocatedTree.unitSketch := by
  intro parts start inner _ _
  let located := locateAllAt start parts
  have children : (partRules stream located ++ trailer stream (ownTokensOf located)).map
      RuleTree.sketch = (locateAt start (.node .programUnit parts)).unitSketch.parts := by
    have trailing : (trailer stream (ownTokensOf located)).map RuleTree.sketch =
        ((ownTokensOf located).head?.map fun first =>
          ⟨some .endProgramStatement, some first.start⟩).toList := by
      cases own : ownTokensOf located with
      | nil => rfl
      | cons first rest =>
          refine sketch_trailer_cons stream (isEnd_ownTokensOf inner start first ?_)
          rw [own]
          rfl
    rw [List.map_append, map_sketch_partRules stream inner, trailing]
    rfl
  rw [RuleTree.unitSketch, start?_unitRule stream inner, Option.map_map, LocatedTree.unitSketch]
  exact congrArg (UnitSketch.mk _) children

/-! ### Whole texts -/

namespace Analysis

/-- An analysed stream has one compilation unit, and the units in it are those of the source tree,
each with what its rule tells. -/
theorem unitForest_contexts (settings : Settings) (stream : Stream) :
    ∃ analysis contexts, ofStream settings stream = .ok analysis ∧
      analysis.adapted.tree.childNodes = [RuleTree.bounded .compilationUnit contexts] ∧
        ∀ {β : Type} {told : RuleTree → β} {expected : LocatedTree → β},
          RuleTells stream told expected → RuleTree.unitForest told contexts =
            LocatedTree.unitForest expected [analysis.parsed.tree.locate] := by
  obtain ⟨children, parsed, units, legible, converted⟩ := ofStream_eq settings stream
  refine ⟨_, _, converted, rfl, ?_⟩
  intro β told expected tells
  have root : LocatedTree.unitForest expected [locate (.node .sourceUnit children)] =
      LocatedTree.unitForest expected (locateAllAt 0 children) :=
    Tree.selectAll_of_none (if_neg Bool.false_ne_true)
  rw [parsed, root]
  exact unitForest_rootRules tells units legible 0

/-- Every analysed text, and every expanded text, has its units in its rule tree: in the same order
and nesting, each of them once, each from its first token on, with its parts as rules one by one
and its trailer, if it has one, as the last of them. -/
theorem units_correspond (settings : Settings) :
    (∀ text, ∃ analysis contexts, ofText settings text = .ok analysis ∧
      analysis.adapted.tree.childNodes = [RuleTree.bounded .compilationUnit contexts] ∧
        RuleTree.unitForest RuleTree.unitSketch contexts =
          LocatedTree.unitForest LocatedTree.unitSketch [analysis.parsed.tree.locate]) ∧
    ∀ document, ∃ analysis contexts, ofDocument settings document = .ok analysis ∧
      analysis.adapted.tree.childNodes = [RuleTree.bounded .compilationUnit contexts] ∧
        RuleTree.unitForest RuleTree.unitSketch contexts =
          LocatedTree.unitForest LocatedTree.unitSketch [analysis.parsed.tree.locate] := by
  constructor
  · intro text
    obtain ⟨analysis, contexts, converted, root, units⟩ :=
      unitForest_contexts settings (.ofText text)
    exact ⟨analysis, contexts, converted, root, units (unitSketch_unitRule _)⟩
  · intro document
    obtain ⟨analysis, contexts, converted, root, units⟩ :=
      unitForest_contexts settings (.ofDocument document)
    exact ⟨analysis, contexts, converted, root, units (unitSketch_unitRule _)⟩

end Analysis

end CobolTree
