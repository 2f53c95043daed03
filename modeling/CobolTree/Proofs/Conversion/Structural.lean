import CobolTree.Proofs.Tree.Forest

/-!
Conversion by structure. Units are converted through a table, by their ranges, while the tree is
blanked unit by unit; where units stand right below units alone and no two take the same range,
this comes to a plain recursion on the tree: `partRules` gives the rule trees of a forest and
`unitReports` what is reported on the way. `convertUnits_eq` follows the table through a forest
that stands in the hole of a context and is `Ready` there, and `ofTree_eq` states it for whole
trees.
-/

namespace CobolTree

namespace LocatedTree

/-! ### Units in a forest -/

/-- The ranges of all units of a forest, outer ones first. -/
def unitRangesOf (forest : List LocatedTree) : List Range :=
  ((Tree.nodesOf forest).filter isUnit).map range

/-- Units stand right below units alone. -/
def Neat : List LocatedTree → Prop
  | [] => True
  | .leaf _ :: rest => Neat rest
  | .node extent children :: rest =>
      (if extent.kind = .programUnit then Neat children else unitRangesOf children = []) ∧ Neat rest

/-- The tokens of a forest outside its units. -/
def outerTokens (forest : List LocatedTree) : List Leaf :=
  (Tree.leavesOf (forest.filter (!isUnit ·))).filter (!·.isTrivia)

/-- The forest with its units blanked. -/
def blankUnits (forest : List LocatedTree) : List LocatedTree :=
  forest.map fun tree => if isUnit tree then tree.blanked else tree

end LocatedTree

namespace Conversion

open LocatedTree

/-! ### The structural conversion -/

section Structural

variable (stream : Stream)

/-- The rule tree of a unit, given those of the nodes right below it. -/
def unitRule (unit : LocatedTree) (parts : List RuleTree) : RuleTree :=
  let tokens := outerTokens unit.children
  let head : RuleHead :=
    ⟨.programUnit, tokens.head?.map stream.terminalOf, tokens.getLast?.map stream.terminalOf, none⟩
  .node head (parts ++ trailer stream unit.ownTokens)

/-- The rule trees of the nodes of a forest. A node that cannot be converted has none. -/
def partRules : List LocatedTree → List RuleTree
  | [] => []
  | .leaf _ :: rest => partRules rest
  | .node extent children :: rest =>
      (if extent.kind = .programUnit then
        [unitRule stream (.node extent children) (partRules children)]
      else ((plainPart stream (.node extent children)).toOption.map (·.1)).toList) ++
        partRules rest

/-- The problems found in the divisions of a forest. -/
def partReports : List LocatedTree → List Diagnostic
  | [] => []
  | .leaf _ :: rest => partReports rest
  | .node extent children :: rest =>
      (if extent.kind = .programUnit then []
      else ((plainPart stream (.node extent children)).toOption.map (·.2)).getD []) ++
        partReports rest

/-- The problems found in the units of a forest: those of later units first, and those of nested
units before those of the unit around them. -/
def unitReports : List LocatedTree → List Diagnostic
  | [] => []
  | .leaf _ :: rest => unitReports rest
  | .node extent children :: rest =>
      unitReports rest ++
        if extent.kind = .programUnit then unitReports children ++ partReports stream children
        else []

/-- Every unit of a forest has a token of its own, and all parts of it can be converted. -/
def Convertible : List LocatedTree → Prop
  | [] => True
  | .leaf _ :: rest => Convertible rest
  | .node extent children :: rest =>
      (extent.kind = .programUnit →
        outerTokens children ≠ [] ∧ Convertible children ∧
          ∀ node ∈ children, node.isNode = true → isUnit node = false →
            ∃ result, plainPart stream node = .ok result) ∧
        Convertible rest

/-- The rule trees of the units of a forest, by their ranges. -/
def unitEntries (forest : List LocatedTree) : UnitTable :=
  (forest.filter isUnit).map fun unit =>
    (LocatedTree.range unit, unitRule stream unit (partRules stream unit.children))

/-- The rule trees of the parts of a root. -/
def rootRules : List LocatedTree → List RuleTree
  | [] => []
  | .leaf leaf :: rest =>
      if leaf.isTrivia then rootRules rest else .leaf (stream.terminalOf leaf) :: rootRules rest
  | .node extent children :: rest =>
      (if extent.kind = .programUnit then
        unitRule stream (.node extent children) (partRules stream children)
      else unrecognized stream (.node extent children)) :: rootRules rest

end Structural

/-! ### Tables -/

theorem takeUnit?_cons {range : Range} {tree : RuleTree} {table : UnitTable}
    (fresh : ∀ entry ∈ table, entry.1 ≠ range) :
    takeUnit? range ((range, tree) :: table) = some (tree, table) := by
  have kept : table.filter (fun entry => decide (entry.1 ≠ range)) = table :=
    List.filter_eq_self.mpr fun entry mem => by simpa using fresh entry mem
  simp only [takeUnit?, List.find?_cons, decide_true, Option.map_some]
  rw [List.filter_cons_of_neg (by simp), kept]

theorem putUnit_of_fresh {range : Range} {table : UnitTable}
    (fresh : ∀ entry ∈ table, entry.1 ≠ range) (tree : RuleTree) :
    putUnit range tree table = (range, tree) :: table := by
  have kept : table.filter (fun entry => decide (entry.1 ≠ range)) = table :=
    List.filter_eq_self.mpr fun entry mem => by simpa using fresh entry mem
  rw [putUnit, kept]

/-! ### Forests, tree by tree -/

section Cons

variable {extent : Extent} (value : Leaf) (children rest : List LocatedTree)

theorem isUnit_node : isUnit (.node extent children) = (extent.kind == .programUnit) := rfl

theorem unitRangesOf_cons (tree : LocatedTree) :
    unitRangesOf (tree :: rest) = unitRangesOf [tree] ++ unitRangesOf rest := by
  simp [unitRangesOf, Tree.nodesOf]

theorem unitRangesOf_leaf : unitRangesOf (.leaf value :: rest) = unitRangesOf rest := rfl

theorem unitRangesOf_unit (unit : extent.kind = .programUnit) :
    unitRangesOf (.node extent children :: rest) =
      extent.range :: (unitRangesOf children ++ unitRangesOf rest) := by
  simp [unitRangesOf, Tree.nodesOf, Tree.nodes, isUnit_node, unit, range]

theorem unitRangesOf_plain (plain : extent.kind ≠ .programUnit) :
    unitRangesOf (.node extent children :: rest) =
      unitRangesOf children ++ unitRangesOf rest := by
  simp [unitRangesOf, Tree.nodesOf, Tree.nodes, isUnit_node, plain]

theorem blankUnits_leaf : blankUnits (.leaf value :: rest) = .leaf value :: blankUnits rest := rfl

theorem blankUnits_cons_of_unit {tree : LocatedTree} (unit : isUnit tree = true) :
    blankUnits (tree :: rest) = tree.blanked :: blankUnits rest := by
  simp [blankUnits, unit]

theorem blankUnits_cons_of_plain {tree : LocatedTree} (plain : isUnit tree = false) :
    blankUnits (tree :: rest) = tree :: blankUnits rest := by
  simp [blankUnits, plain]

theorem blankUnits_unit (unit : extent.kind = .programUnit) :
    blankUnits (.node extent children :: rest) =
      LocatedTree.blanked (.node extent children) :: blankUnits rest :=
  blankUnits_cons_of_unit rest (by simp [isUnit_node, unit])

theorem blankUnits_plain (plain : extent.kind ≠ .programUnit) :
    blankUnits (.node extent children :: rest) = .node extent children :: blankUnits rest :=
  blankUnits_cons_of_plain rest (by simp [isUnit_node, plain])

variable (stream : Stream)

theorem unitEntries_leaf : unitEntries stream (.leaf value :: rest) = unitEntries stream rest := rfl

theorem unitEntries_unit (unit : extent.kind = .programUnit) :
    unitEntries stream (.node extent children :: rest) =
      (extent.range, unitRule stream (.node extent children) (partRules stream children)) ::
        unitEntries stream rest := by
  simp [unitEntries, isUnit_node, unit, Tree.children, range]

theorem unitEntries_plain (plain : extent.kind ≠ .programUnit) :
    unitEntries stream (.node extent children :: rest) = unitEntries stream rest := by
  simp [unitEntries, isUnit_node, plain]

end Cons

/-- What is in the table of a forest is in the forest. -/
theorem mem_unitRangesOf_of_mem_unitEntries {stream : Stream} {forest : List LocatedTree}
    {entry : Range × RuleTree} (mem : entry ∈ unitEntries stream forest) :
    entry.1 ∈ unitRangesOf forest := by
  obtain ⟨unit, inside, rfl⟩ := List.mem_map.mp mem
  obtain ⟨member, isUnit⟩ := List.mem_filter.mp inside
  refine List.mem_map.mpr ⟨unit, List.mem_filter.mpr ⟨?_, isUnit⟩, rfl⟩
  rw [Tree.nodesOf_eq_flatMap]
  refine List.mem_flatMap.mpr ⟨unit, member, ?_⟩
  cases unit with
  | leaf => cases isUnit
  | node => exact List.mem_cons_self

theorem ne_of_mem_unitEntries {stream : Stream} {forest : List LocatedTree} {range : Range}
    (absent : range ∉ unitRangesOf forest) {entry : Range × RuleTree}
    (mem : entry ∈ unitEntries stream forest) : entry.1 ≠ range := by
  intro same
  have inside := mem_unitRangesOf_of_mem_unitEntries mem
  rw [same] at inside
  exact absent inside

section Rest

variable {tree : LocatedTree} {rest : List LocatedTree}

theorem nodup_rest (distinct : (unitRangesOf (tree :: rest)).Nodup) :
    (unitRangesOf rest).Nodup := by
  rw [unitRangesOf_cons] at distinct
  exact (List.nodup_append.mp distinct).2.1

theorem notMem_rest {range : Range} (absent : range ∉ unitRangesOf (tree :: rest)) :
    range ∉ unitRangesOf rest := by
  rw [unitRangesOf_cons] at absent
  exact fun inside => absent (List.mem_append_right _ inside)

end Rest

/-! ### Blanked units -/

theorem leavesOf_blanked (unit : LocatedTree) :
    unit.blanked.leaves = [⟨⟨.whitespace, unit.text.blank⟩, unit.range.start⟩] := rfl

/-- A blanked unit has no token left. -/
theorem tokens_blankUnits (forest : List LocatedTree) :
    (Tree.leavesOf (blankUnits forest)).filter (!·.isTrivia) = outerTokens forest := by
  induction forest with
  | nil => rfl
  | cons tree rest ih =>
      cases unit : isUnit tree with
      | true =>
          rw [blankUnits_cons_of_unit rest unit, Tree.leavesOf, List.filter_append, ih,
            leavesOf_blanked]
          simp [outerTokens, unit, Lexeme.isTrivia, Kind.isTrivia]
      | false =>
          rw [blankUnits_cons_of_plain rest unit, Tree.leavesOf, List.filter_append, ih]
          simp [outerTokens, unit, Tree.leavesOf]

theorem ownLeaves_blankUnits (forest : List LocatedTree) :
    (blankUnits forest).filterMap Tree.value? = forest.filterMap Tree.value? := by
  induction forest with
  | nil => rfl
  | cons tree rest ih =>
      cases tree with
      | leaf value => simp [blankUnits_leaf, Tree.value?, ih]
      | node extent children =>
          by_cases unit : extent.kind = .programUnit
          · rw [blankUnits_unit children rest unit, List.filterMap_cons_none rfl,
              List.filterMap_cons_none rfl, ih]
          · rw [blankUnits_plain children rest unit, List.filterMap_cons_none rfl,
              List.filterMap_cons_none rfl, ih]

/-- Blanking the units of a forest makes no difference to the blanks of its whole text. -/
theorem blank_blankUnits (forest : List LocatedTree) :
    Text.blank ((Tree.leavesOf (blankUnits forest)).flatMap (·.text)) =
      Text.blank ((Tree.leavesOf forest).flatMap (·.text)) := by
  induction forest with
  | nil => rfl
  | cons tree rest ih =>
      cases unit : isUnit tree with
      | true =>
          rw [blankUnits_cons_of_unit rest unit, Tree.leavesOf, Tree.leavesOf, List.flatMap_append,
            List.flatMap_append, Text.blank_append, Text.blank_append, ih, leavesOf_blanked]
          simp [LocatedTree.text]
      | false =>
          rw [blankUnits_cons_of_plain rest unit, Tree.leavesOf, Tree.leavesOf, List.flatMap_append,
            List.flatMap_append, Text.blank_append, Text.blank_append, ih]

theorem blanked_blankUnits (extent : Extent) (children : List LocatedTree) :
    LocatedTree.blanked (.node extent (blankUnits children)) =
      LocatedTree.blanked (.node extent children) := by
  have same := blank_blankUnits children
  simp only [LocatedTree.blanked, LocatedTree.text, Tree.leaves, same]
  rfl

/-! ### One unit -/

/-- A blanked unit takes its rule tree from the table, where it comes first. -/
theorem unitPart_blanked (stream : Stream) {extent : Extent} {children rest : List LocatedTree}
    (unit : extent.kind = .programUnit) {table : UnitTable}
    (distinct : (unitRangesOf (.node extent children :: rest)).Nodup)
    (fresh : ∀ entry ∈ table, entry.1 ∉ unitRangesOf (.node extent children :: rest))
    (reports : List Diagnostic) :
    unitPart stream ⟨unitEntries stream (.node extent children :: rest) ++ table, reports⟩
        (LocatedTree.blanked (.node extent children)) =
      .ok (unitRule stream (.node extent children) (partRules stream children),
        ⟨unitEntries stream rest ++ table, reports⟩) := by
  rw [unitRangesOf_unit children rest unit] at distinct fresh
  obtain ⟨first, -⟩ := List.nodup_cons.mp distinct
  have kept : ∀ entry ∈ unitEntries stream rest ++ table, entry.1 ≠ extent.range := by
    intro entry mem
    rcases List.mem_append.mp mem with inside | outside
    · exact ne_of_mem_unitEntries (fun later => first (by simp [later])) inside
    · intro same
      exact fresh entry outside (by simp [same])
  rw [unitEntries_unit children rest stream unit, List.cons_append]
  simp only [unitPart, LocatedTree.blanked, LocatedTree.kind, LocatedTree.range, if_true,
    takeUnit?_cons kept]

/-- The parts of a unit take the rule trees of the units among them from the table, and leave
the rest of the table as it is. -/
theorem unitParts_blankUnits (stream : Stream) (forest : List LocatedTree)
    (convertible : ∀ node ∈ forest, node.isNode = true → isUnit node = false →
      ∃ result, plainPart stream node = .ok result)
    (distinct : (unitRangesOf forest).Nodup) (table : UnitTable)
    (fresh : ∀ entry ∈ table, entry.1 ∉ unitRangesOf forest) (reports : List Diagnostic) :
    unitParts stream ⟨unitEntries stream forest ++ table, reports⟩
        ((blankUnits forest).filter Tree.isNode) =
      .ok (partRules stream forest, ⟨table, reports ++ partReports stream forest⟩) := by
  induction forest generalizing reports with
  | nil => simp [unitEntries, blankUnits, unitParts, partRules, partReports]
  | cons tree rest ih =>
      have others := ih (fun node mem => convertible node (List.mem_cons_of_mem tree mem))
        (nodup_rest distinct) fun entry mem => notMem_rest (fresh entry mem)
      cases tree with
      | leaf value =>
          rw [blankUnits_leaf, List.filter_cons_of_neg (by simp [Tree.isNode, Tree.label?]),
            unitEntries_leaf, partRules, partReports]
          exact others reports
      | node extent children =>
          by_cases unit : extent.kind = .programUnit
          · have part := unitPart_blanked stream unit distinct fresh reports
            rw [blankUnits_unit children rest unit, List.filter_cons_of_pos rfl, partRules,
              partReports, if_pos unit, if_pos unit, unitParts, part]
            simp only [bind, Except.bind]
            rw [others]
            rfl
          · have plain : isUnit (.node extent children) = false := by simp [isUnit_node, unit]
            obtain ⟨⟨tree, found⟩, part⟩ := convertible _ List.mem_cons_self rfl plain
            rw [blankUnits_plain children rest unit, List.filter_cons_of_pos rfl,
              unitEntries_plain children rest stream unit, partRules, partReports, if_neg unit,
              if_neg unit, unitParts, unitPart, if_neg (by simpa [LocatedTree.kind] using unit),
              part]
            simp only [bind, Except.bind, pure, Except.pure]
            rw [others]
            simp [Except.toOption]

/-- A unit whose nested units are converted and blanked is converted by structure. -/
theorem programUnit_blankUnits (stream : Stream) (extent : Extent) (children : List LocatedTree)
    (own : outerTokens children ≠ [])
    (convertible : ∀ node ∈ children, node.isNode = true → isUnit node = false →
      ∃ result, plainPart stream node = .ok result)
    (distinct : (unitRangesOf children).Nodup) (table : UnitTable)
    (fresh : ∀ entry ∈ table, entry.1 ∉ unitRangesOf children) (reports : List Diagnostic) :
    programUnit stream ⟨unitEntries stream children ++ table, reports⟩
        (.node extent (blankUnits children)) =
      .ok (unitRule stream (.node extent children) (partRules stream children),
        ⟨table, reports ++ partReports stream children⟩) := by
  have tokens : LocatedTree.tokens (.node extent (blankUnits children)) = outerTokens children :=
    tokens_blankUnits children
  have ownTokens : LocatedTree.ownTokens (.node extent (blankUnits children)) =
      LocatedTree.ownTokens (.node extent children) := by
    simp only [LocatedTree.ownTokens, Tree.ownLeaves, Tree.children, ownLeaves_blankUnits]
  have parts := unitParts_blankUnits stream children convertible distinct table fresh reports
  cases first : (outerTokens children).head? with
  | none => exact absurd (List.head?_eq_none_iff.mp first) own
  | some head =>
      cases final : (outerTokens children).getLast? with
      | none => exact absurd (List.getLast?_eq_none_iff.mp final) own
      | some last =>
          simp only [programUnit, tokens, first, final, Tree.childNodes, Tree.children, parts, bind,
            Except.bind, pure, Except.pure, ownTokens, unitRule, Option.map_some]

/-! ### All units -/

/-- A search for a range finds nothing in a tree without it. -/
theorem isUnitAt_eq_false {range : Range} {tree : LocatedTree}
    (absent : range ∉ unitRangesOf [tree]) :
    ∀ node ∈ tree.nodes, isUnitAt range node = false := by
  intro node mem
  cases takes : isUnitAt range node with
  | false => rfl
  | true =>
      obtain ⟨unit, same⟩ := Bool.and_eq_true_iff.mp takes
      refine absurd (List.mem_map.mpr ⟨node, List.mem_filter.mpr ⟨?_, unit⟩, ?_⟩) absent
      · simpa [Tree.nodesOf] using mem
      · simpa using same

/-- A forest in its context, ready for its units to be converted: a unit is found by its range, and
nothing has been converted at these ranges. -/
structure Ready (context : List LocatedTree → LocatedTree) (forest : List LocatedTree)
    (table : UnitTable) : Prop where
  holes : ∀ range ∈ unitRangesOf forest, Tree.Hole (isUnitAt range) LocatedTree.blanked context
  neat : Neat forest
  distinct : (unitRangesOf forest).Nodup
  fresh : ∀ entry ∈ table, entry.1 ∉ unitRangesOf forest

theorem unitRanges_node {extent : Extent} (children : List LocatedTree)
    (root : extent.kind ≠ .programUnit) :
    unitRanges (.node extent children) = unitRangesOf children := by
  simp [unitRanges, unitRangesOf, Tree.nodes, isUnit_node, root]

namespace Ready

variable {context : List LocatedTree → LocatedTree} {tree : LocatedTree} {extent : Extent}
  {children rest : List LocatedTree} {table : UnitTable}

/-- What stands below the root of a tree, before anything is converted. -/
theorem root (root : extent.kind ≠ .programUnit) (neat : Neat children)
    (distinct : (unitRangesOf children).Nodup) : Ready (.node extent) children [] where
  holes range _ := .root fun forest => by simp [isUnitAt, isUnit_node, root]
  neat := neat
  distinct := distinct
  fresh _ mem := absurd mem List.not_mem_nil

/-- What stands behind the first tree. -/
theorem behind (ready : Ready context (tree :: rest) table) :
    Ready (fun forest => context (tree :: forest)) rest table := by
  obtain ⟨holes, neat, distinct, fresh⟩ := ready
  refine ⟨fun range mem => ?_, ?_, nodup_rest distinct,
    fun entry mem => notMem_rest (fresh entry mem)⟩
  · rw [unitRangesOf_cons] at holes distinct
    refine (holes range (List.mem_append_right _ mem)).behind (isUnitAt_eq_false fun inside => ?_)
    exact (List.nodup_append.mp distinct).2.2 range inside range mem rfl
  · cases tree with
    | leaf value => rwa [Neat] at neat
    | node extent children =>
        rw [Neat] at neat
        exact neat.2

/-- There are no units below a node that is none. -/
theorem unitRangesOf_eq (ready : Ready context (.node extent children :: rest) table)
    (plain : extent.kind ≠ .programUnit) :
    unitRangesOf (.node extent children :: rest) = unitRangesOf rest := by
  have neat := ready.neat
  rw [Neat, if_neg plain] at neat
  rw [unitRangesOf_plain children rest plain, neat.1, List.nil_append]

section Unit

variable (unit : extent.kind = .programUnit)
  (ready : Ready context (.node extent children :: rest) table)

include unit ready

theorem distinct_unit : (extent.range :: unitRangesOf children).Nodup := by
  have distinct := ready.distinct
  rw [unitRangesOf_unit children rest unit, ← List.cons_append] at distinct
  exact (List.nodup_append.mp distinct).1

/-- When the units behind a unit are converted, nothing is at its range or within it. -/
theorem fresh_unit (stream : Stream) : ∀ entry ∈ unitEntries stream rest ++ table,
    entry.1 ∉ extent.range :: unitRangesOf children := by
  have distinct := ready.distinct
  have fresh := ready.fresh
  rw [unitRangesOf_unit children rest unit, ← List.cons_append] at distinct fresh
  intro entry mem inside
  rcases List.mem_append.mp mem with behind | outside
  · have later := mem_unitRangesOf_of_mem_unitEntries behind
    exact (List.nodup_append.mp distinct).2.2 _ inside _ later rfl
  · exact fresh entry outside (List.mem_append_left _ inside)

/-- What stands below a unit, when the units behind it are converted. -/
theorem below (stream : Stream) :
    Ready (fun forest => context (.node extent forest :: blankUnits rest)) children
      (unitEntries stream rest ++ table) := by
  have fresh := fresh_unit unit ready stream
  obtain ⟨first, distinct⟩ := List.nodup_cons.mp (distinct_unit unit ready)
  obtain ⟨holes, neat, -, -⟩ := ready
  rw [unitRangesOf_unit children rest unit] at holes
  rw [Neat, if_pos unit] at neat
  refine ⟨fun range mem => ?_, neat.1, distinct, fun entry mem inside => ?_⟩
  · refine (holes range (by simp [mem])).within (fun forest => ?_) _
    have differ : extent.range ≠ range := by
      rintro rfl
      exact first mem
    simp [isUnitAt, LocatedTree.range, differ]
  · exact fresh entry mem (List.mem_cons_of_mem _ inside)

theorem hole : Tree.Hole (isUnitAt extent.range) LocatedTree.blanked context :=
  ready.holes extent.range (by rw [unitRangesOf_unit children rest unit]; exact List.mem_cons_self)

/-- The unit is found where its nested units are blanked, and all units behind it. -/
theorem find? : (context (.node extent (blankUnits children) :: blankUnits rest)).nodes.find?
    (isUnitAt extent.range) = some (.node extent (blankUnits children)) := by
  have takes : isUnitAt extent.range (.node extent (blankUnits children)) = true := by
    simp [isUnitAt, isUnit_node, unit, LocatedTree.range]
  exact (hole unit ready).find? (by
    rw [Tree.nodesOf, Tree.nodes, List.cons_append, List.find?_cons_of_pos takes])

end Unit

end Ready

/-- One step of the conversion, at a unit whose nested units are converted and blanked. -/
theorem convertUnit_blankUnits (stream : Stream) {context : List LocatedTree → LocatedTree}
    {extent : Extent} (unit : extent.kind = .programUnit) {children rest : List LocatedTree}
    {table : UnitTable} (ready : Ready context (.node extent children :: rest) table)
    (own : outerTokens children ≠ [])
    (convertible : ∀ node ∈ children, node.isNode = true → isUnit node = false →
      ∃ result, plainPart stream node = .ok result)
    (reports : List Diagnostic) :
    convertUnit stream ⟨context (.node extent (blankUnits children) :: blankUnits rest),
        ⟨unitEntries stream children ++ (unitEntries stream rest ++ table), reports⟩⟩ extent.range =
      .ok ⟨context (blankUnits (.node extent children :: rest)),
        ⟨unitEntries stream (.node extent children :: rest) ++ table,
          reports ++ partReports stream children⟩⟩ := by
  have replaced : (context (.node extent (blankUnits children) :: blankUnits rest)).replaceFirst?
      (isUnitAt extent.range) LocatedTree.blanked =
        some (context (LocatedTree.blanked (.node extent children) :: blankUnits rest)) :=
    (ready.hole unit).replaceFirst? (by
      simp [Tree.replaceFirstOf?, Tree.replaceFirst?, isUnitAt, isUnit_node, unit,
        LocatedTree.range, blanked_blankUnits])
  have below := ready.below unit stream
  have converted := programUnit_blankUnits stream extent children own convertible below.distinct
    (unitEntries stream rest ++ table) below.fresh reports
  have absent : ∀ entry ∈ unitEntries stream rest ++ table, entry.1 ≠ extent.range :=
    fun entry mem same => ready.fresh_unit unit stream entry mem (by simp [same])
  simp only [convertUnit, ready.find? unit, converted, replaced, putUnit_of_fresh absent, bind,
    Except.bind, pure, Except.pure, Option.getD_some]
  rw [blankUnits_unit children rest unit, unitEntries_unit children rest stream unit,
    List.cons_append]

/-- The units behind a unit come first, then those nested in it, and it comes last. -/
theorem foldlM_unit (stream : Stream) {extent : Extent} (unit : extent.kind = .programUnit)
    (children rest : List LocatedTree) (state : State) :
    (unitRangesOf (.node extent children :: rest)).reverse.foldlM (convertUnit stream) state =
      ((unitRangesOf rest).reverse.foldlM (convertUnit stream) state >>= fun behind =>
        (unitRangesOf children).reverse.foldlM (convertUnit stream) behind >>= fun below =>
          convertUnit stream below extent.range) := by
  rw [unitRangesOf_unit children rest unit, ← List.cons_append, List.reverse_append,
    List.reverse_cons, List.foldlM_append]
  simp only [List.foldlM_append, List.foldlM_cons, List.foldlM_nil, bind_pure]

/-- Converting the units of a forest last to first, wherever the forest stands, blanks them and
adds their rule trees to the table. -/
theorem convertUnits_eq (stream : Stream) (forest : List LocatedTree) :
    ∀ {context : List LocatedTree → LocatedTree} {table : UnitTable}, Ready context forest table →
      Convertible stream forest → ∀ (reports : List Diagnostic),
        (unitRangesOf forest).reverse.foldlM (convertUnit stream)
            ⟨context forest, ⟨table, reports⟩⟩ =
          .ok ⟨context (blankUnits forest),
            ⟨unitEntries stream forest ++ table, reports ++ unitReports stream forest⟩⟩ := by
  induction forest using Tree.forest_induction with
  | nil =>
      intro context table _ _ reports
      simp [unitRangesOf, Tree.nodesOf, blankUnits, unitEntries, unitReports, pure, Except.pure]
  | leaf value rest ih =>
      intro context table ready convertible reports
      rw [Convertible] at convertible
      rw [unitReports]
      exact ih ready.behind convertible reports
  | node extent children rest below behind =>
      intro context table ready convertible reports
      rw [Convertible] at convertible
      by_cases unit : extent.kind = .programUnit
      · obtain ⟨own, inner, parts⟩ := convertible.1 unit
        have rests := behind ready.behind convertible.2 reports
        have nests := below (ready.below unit stream) inner (reports ++ unitReports stream rest)
        have unitStep := convertUnit_blankUnits stream unit ready own parts
          (reports ++ unitReports stream rest ++ unitReports stream children)
        rw [foldlM_unit stream unit]
        simp only [rests, nests, unitStep, bind, Except.bind]
        rw [unitReports, if_pos unit]
        simp [List.append_assoc]
      · rw [ready.unitRangesOf_eq unit, blankUnits_plain children rest unit,
          unitEntries_plain children rest stream unit, unitReports, if_neg unit, List.append_nil]
        exact behind ready.behind convertible.2 reports

/-- The parts of a root take the rule trees of its units from the table. -/
theorem compilationParts_blankUnits (stream : Stream) (forest : List LocatedTree)
    (distinct : (unitRangesOf forest).Nodup) :
    compilationParts stream (unitEntries stream forest) (blankUnits forest) =
      .ok (rootRules stream forest) := by
  induction forest with
  | nil => rfl
  | cons tree rest ih =>
      have others := ih (nodup_rest distinct)
      cases tree with
      | leaf value =>
          rw [blankUnits_leaf, unitEntries_leaf, compilationParts, others, rootRules]
          rfl
      | node extent children =>
          by_cases unit : extent.kind = .programUnit
          · rw [unitRangesOf_unit children rest unit] at distinct
            obtain ⟨first, -⟩ := List.nodup_cons.mp distinct
            have kept : ∀ entry ∈ unitEntries stream rest, entry.1 ≠ extent.range := by
              intro entry mem
              exact ne_of_mem_unitEntries (fun later => first (by simp [later])) mem
            rw [blankUnits_unit children rest unit, unitEntries_unit children rest stream unit,
              LocatedTree.blanked, compilationParts, if_pos rfl]
            simp only [LocatedTree.range, takeUnit?_cons kept]
            rw [others, rootRules, if_pos unit]
            rfl
          · rw [blankUnits_plain children rest unit, unitEntries_plain children rest stream unit,
              compilationParts, if_neg unit, others, rootRules, if_neg unit]
            rfl

end Conversion

open Conversion LocatedTree in
/-- A tree whose units stand right below its root or below units, each at a range of its own, is
converted by structure. -/
theorem Adapted.ofTree_eq (stream : Stream) {extent : Extent} {children : List LocatedTree}
    (root : extent.kind ≠ .programUnit) (neat : Neat children)
    (convertible : Convertible stream children) (distinct : (unitRangesOf children).Nodup) :
    Adapted.ofTree stream (.node extent children) =
      .ok ⟨startRule stream (LocatedTree.tokens (.node extent children))
          (rootRules stream children),
        .node extent (blankUnits children), unitReports stream children⟩ := by
  have ranges := unitRanges_node children root
  have units := convertUnits_eq stream children (.root root neat distinct) convertible []
  have parts := compilationParts_blankUnits stream children distinct
  rw [Adapted.ofTree, ranges]
  simp only [units, bind, Except.bind, Tree.children, List.append_nil, List.nil_append, parts, pure,
    Except.pure]

end CobolTree
