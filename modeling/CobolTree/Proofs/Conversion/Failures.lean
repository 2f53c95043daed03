import CobolTree.Proofs.Conversion.Structural

/-!
Which trees cannot be converted (`Adapted.ofTree_error`). A rule begins with a token, so a unit
without tokens of its own has no rule tree, and neither has a division or a header without tokens
(`Lacks`); nothing else stands in the way of a conversion if units stand right below units, each at
a range of its own. Units are converted last to first, so what is behind a unit and what is nested
in it is asked for its tokens before the unit is: `convertUnits_startless` follows the table up to
the first construct that has none, as `convertUnits_eq` follows it to the end.
-/

namespace CobolTree

open Conversion LocatedTree

/-! ### Constructs without tokens -/

namespace LocatedTree

/-- A division without tokens, or a PROCEDURE DIVISION with a header that has none: its own header,
or that of a section or of a paragraph right below it. -/
inductive Bare (node : LocatedTree) : Prop where
  | division {division : Division} : Division.ofKind? (kind node) = some division →
      tokens node = [] → Bare node
  | header : kind node = .procedureDivision → ownTokens node = [] → Bare node
  | block {child : LocatedTree} : kind node = .procedureDivision → child ∈ node.childNodes →
      kind child = .procedureSection ∨ kind child = .procedureParagraph →
        ownTokens child = [] → Bare node

/-- A unit that has no token outside the units nested in it, or a part that lacks tokens. -/
def Lacks (unit : LocatedTree) : Prop :=
  outerTokens unit.children = [] ∨ ∃ node ∈ unit.childNodes, Bare node

/-- Below the nodes of a forest, units stand right below units alone. -/
def UnitsBelowUnits (forest : List LocatedTree) : Prop :=
  ∀ node ∈ Tree.nodesOf forest, ∀ child ∈ node.children, isUnit child = true → isUnit node = true

instance (forest : List LocatedTree) : Decidable (UnitsBelowUnits forest) :=
  inferInstanceAs (Decidable (∀ node ∈ Tree.nodesOf forest, ∀ child ∈ node.children,
    isUnit child = true → isUnit node = true))

/-- Units stand right below the root and right below units alone, each at a range of its own, and
the root is no unit. -/
structure UnitsPlaced (tree : LocatedTree) : Prop where
  root : isUnit tree = false
  placed : UnitsBelowUnits tree.children
  distinct : (unitRanges tree).Nodup

theorem Bare.isDivision {node : LocatedTree} (bare : Bare node) :
    ∃ division : Division, kind node = division.kind := by
  cases bare with
  | division found _ => exact ⟨_, Division.ofKind?_eq_some_iff.mp found⟩
  | header isProcedure _ => exact ⟨.procedure, isProcedure⟩
  | block isProcedure _ _ _ => exact ⟨.procedure, isProcedure⟩

theorem Bare.isUnit_eq {node : LocatedTree} (bare : Bare node) : isUnit node = false := by
  obtain ⟨division, isDivision⟩ := bare.isDivision
  rw [isUnit, isDivision]
  cases division <;> exact Bool.and_false _

theorem unitsBelowUnits_node {extent : Extent} {children rest : List LocatedTree}
    (placed : UnitsBelowUnits (.node extent children :: rest)) :
    (extent.kind ≠ .programUnit → ∀ child ∈ children, isUnit child = false) ∧
      UnitsBelowUnits children ∧ UnitsBelowUnits rest := by
  rw [UnitsBelowUnits, Tree.nodesOf, Tree.nodes, List.cons_append] at placed
  obtain ⟨here, others⟩ := List.forall_mem_cons.mp placed
  refine ⟨fun plain child mem => ?_, List.forall_mem_append.mp others⟩
  cases unit : isUnit child with
  | false => rfl
  | true =>
      have above := here child mem unit
      exact absurd (by simpa [isUnit_node] using above) plain

/-- There are no units where none stands at the top and the others stand right below units. -/
theorem unitRangesOf_eq_nil {forest : List LocatedTree}
    (none : ∀ tree ∈ forest, isUnit tree = false) (placed : UnitsBelowUnits forest) :
    unitRangesOf forest = [] := by
  induction forest using Tree.forest_induction with
  | nil => rfl
  | leaf value rest ih => exact ih (fun tree mem => none tree (List.mem_cons_of_mem _ mem)) placed
  | node extent children rest below behind =>
      obtain ⟨here, inner, later⟩ := unitsBelowUnits_node placed
      obtain ⟨first, others⟩ := List.forall_mem_cons.mp none
      have plain : extent.kind ≠ .programUnit := by simpa [isUnit_node] using first
      rw [unitRangesOf_plain children rest plain, below (here plain) inner, behind others later]
      rfl

theorem UnitsBelowUnits.neat {forest : List LocatedTree} (placed : UnitsBelowUnits forest) :
    Neat forest := by
  induction forest using Tree.forest_induction with
  | nil => simp [Neat]
  | leaf value rest ih =>
      rw [Neat]
      exact ih placed
  | node extent children rest below behind =>
      obtain ⟨here, inner, later⟩ := unitsBelowUnits_node placed
      rw [Neat]
      refine ⟨?_, behind later⟩
      split
      · exact below inner
      · rename_i plain
        exact unitRangesOf_eq_nil (here plain) inner

end LocatedTree

namespace Conversion

/-- The conversion ends at a construct that has no first token. -/
def Startless {α : Type} (result : Except ConversionError α) : Prop :=
  ∃ construct offset, result = .error (.missingStart construct offset)

section Startless

variable {α β : Type} {result : Except ConversionError α}

/-- Nothing goes on behind a construct without a first token. -/
theorem Startless.bind (h : Startless result) (next : α → Except ConversionError β) :
    Startless (result >>= next) := by
  obtain ⟨construct, offset, rfl⟩ := h
  exact ⟨construct, offset, rfl⟩

theorem Startless.map (h : Startless result) (f : α → β) : Startless (result.map f) := by
  obtain ⟨construct, offset, rfl⟩ := h
  exact ⟨construct, offset, rfl⟩

end Startless

/-! ### Divisions -/

theorem procedurePart_ok (stream : Stream) {node : LocatedTree}
    (own : LocatedTree.kind node = .procedureParagraph → LocatedTree.ownTokens node ≠ []) :
    ∃ tree, procedurePart stream node = .ok tree := by
  unfold procedurePart
  split
  · rename_i isParagraph
    unfold paragraph
    split
    · rename_i none
      exact absurd none (own isParagraph)
    · exact ⟨_, rfl⟩
  · exact ⟨_, rfl⟩

theorem sectionParts_ok (stream : Stream) {node : LocatedTree}
    (own : LocatedTree.ownTokens node ≠ []) : ∃ parts, sectionParts stream node = .ok parts := by
  unfold sectionParts
  split
  · rename_i none
    exact absurd none own
  · exact ⟨_, rfl⟩

/-- Sections and paragraphs with tokens of their own are converted. -/
theorem procedureParts_ok (stream : Stream) (nodes : List LocatedTree)
    (own : ∀ node ∈ nodes, LocatedTree.kind node = .procedureSection ∨
      LocatedTree.kind node = .procedureParagraph → LocatedTree.ownTokens node ≠ [])
    (current : Option (List RuleTree)) :
    ∃ parts, procedureParts stream current nodes = .ok parts := by
  induction nodes generalizing current with
  | nil => exact ⟨_, rfl⟩
  | cons node rest ih =>
      have others := ih fun other mem => own other (List.mem_cons_of_mem node mem)
      have here := own node List.mem_cons_self
      rw [procedureParts]
      split
      · rename_i isSection
        obtain ⟨parts, converted⟩ := sectionParts_ok stream (here (.inl isSection))
        obtain ⟨behind, convertedBehind⟩ := others (some parts)
        rw [converted]
        simp only [bind, Except.bind]
        rw [convertedBehind]
        exact ⟨_, rfl⟩
      · obtain ⟨tree, converted⟩ :=
          procedurePart_ok stream fun isParagraph => here (.inr isParagraph)
        simp only [converted, bind, Except.bind]
        cases current with
        | some parts => exact others (some (parts ++ [tree]))
        | none =>
            obtain ⟨behind, convertedBehind⟩ := others none
            simp only [convertedBehind]
            exact ⟨_, rfl⟩

variable (stream : Stream)

theorem sectionParts_startless {node : LocatedTree} (own : LocatedTree.ownTokens node = []) :
    Startless (sectionParts stream node) := by
  rw [sectionParts, own]
  exact ⟨_, _, rfl⟩

theorem procedurePart_startless {node : LocatedTree}
    (isParagraph : LocatedTree.kind node = .procedureParagraph)
    (own : LocatedTree.ownTokens node = []) : Startless (procedurePart stream node) := by
  rw [procedurePart, if_pos isParagraph, paragraph, own]
  exact ⟨_, _, rfl⟩

/-- Sections and paragraphs are converted one after another, up to one without tokens of its own. -/
theorem procedureParts_startless {nodes : List LocatedTree} {child : LocatedTree}
    (mem : child ∈ nodes) (isBlock : LocatedTree.kind child = .procedureSection ∨
      LocatedTree.kind child = .procedureParagraph)
    (own : LocatedTree.ownTokens child = []) (current : Option (List RuleTree)) :
    Startless (procedureParts stream current nodes) := by
  induction nodes generalizing current with
  | nil => cases mem
  | cons node rest ih =>
      rw [procedureParts]
      split
      · rename_i isSection
        by_cases bare : LocatedTree.ownTokens node = []
        · exact (sectionParts_startless stream bare).bind _
        · obtain ⟨parts, converted⟩ := sectionParts_ok stream bare
          have later : child ∈ rest :=
            (List.mem_cons.mp mem).resolve_left fun same => bare (same ▸ own)
          rw [converted]
          exact (ih later (some parts)).bind _
      · rename_i other
        by_cases bare : LocatedTree.kind node = .procedureParagraph ∧
            LocatedTree.ownTokens node = []
        · exact (procedurePart_startless stream bare.1 bare.2).bind _
        · obtain ⟨part, converted⟩ := procedurePart_ok stream (not_and.mp bare)
          have later : child ∈ rest := by
            refine (List.mem_cons.mp mem).resolve_left fun same => ?_
            subst same
            exact bare ⟨isBlock.resolve_left other, own⟩
          rw [converted]
          cases current with
          | some parts => exact ih later (some (parts ++ [part]))
          | none => exact (ih later none).bind _

/-- A part that lacks tokens cannot be converted. -/
theorem plainPart_startless {node : LocatedTree} (bare : Bare node) :
    Startless (plainPart stream node) := by
  obtain ⟨found, isDivision⟩ := bare.isDivision
  rw [plainPart, Division.ofKind?_eq_some_iff.mpr isDivision]
  -- a division that has tokens is a PROCEDURE DIVISION, since it lacks those of a header
  have headed (isProcedure : LocatedTree.kind node = .procedureDivision)
      (fails : Startless (procedure stream node)) : Startless (division stream found node) := by
    obtain rfl : found = .procedure := by
      rw [isProcedure] at isDivision
      cases found <;> first | rfl | cases isDivision
    unfold division
    split
    · exact ⟨_, _, rfl⟩
    · exact fails.map _
  cases bare with
  | division _ none =>
      show Startless (division stream found node)
      rw [division, none]
      exact ⟨_, _, rfl⟩
  | header isProcedure own =>
      refine headed isProcedure ?_
      rw [procedure, own]
      exact ⟨_, _, rfl⟩
  | block isProcedure mem isBlock own =>
      refine headed isProcedure ?_
      unfold procedure
      split
      · exact ⟨_, _, rfl⟩
      · exact (procedureParts_startless stream mem isBlock own none).bind _

theorem procedure_ok_of_full {node : LocatedTree}
    (isProcedure : LocatedTree.kind node = .procedureDivision) (full : ¬Bare node) :
    ∃ rule, procedure stream node = .ok rule := by
  obtain ⟨parts, converted⟩ := procedureParts_ok stream node.childNodes
    (fun child mem isBlock own => full (.block isProcedure mem isBlock own)) none
  unfold procedure
  split
  · rename_i own
    exact absurd (.header isProcedure own) full
  · rw [converted]
    exact ⟨_, rfl⟩

/-- A part that lacks no tokens is converted. -/
theorem plainPart_ok {node : LocatedTree} (full : ¬Bare node) :
    ∃ result, plainPart stream node = .ok result := by
  unfold plainPart
  split
  · rename_i found isDivision
    unfold division
    split
    · rename_i none
      exact absurd (.division isDivision none) full
    · cases found with
      | identification | environment | data => exact ⟨_, rfl⟩
      | procedure =>
          have isProcedure := Division.ofKind?_eq_some_iff.mp isDivision
          obtain ⟨rule, converted⟩ := procedure_ok_of_full stream isProcedure full
          simp only [GrammarName.ofDivision?, converted]
          exact ⟨_, rfl⟩
  · exact ⟨_, rfl⟩

/-! ### Units -/

/-- The parts of a unit are converted one after another, up to one that lacks tokens. -/
theorem unitParts_startless {forest : List LocatedTree} {part : LocatedTree} (mem : part ∈ forest)
    (isNode : part.isNode = true) (bare : Bare part) (distinct : (unitRangesOf forest).Nodup)
    (table : UnitTable) (fresh : ∀ entry ∈ table, entry.1 ∉ unitRangesOf forest)
    (reports : List Diagnostic) :
    Startless (unitParts stream ⟨unitEntries stream forest ++ table, reports⟩
      ((blankUnits forest).filter Tree.isNode)) := by
  induction forest generalizing reports with
  | nil => cases mem
  | cons tree rest ih =>
      have others (later : part ∈ rest) := ih later (nodup_rest distinct) fun entry mem =>
        notMem_rest (fresh entry mem)
      cases tree with
      | leaf value =>
          have later : part ∈ rest :=
            (List.mem_cons.mp mem).resolve_left fun same => by cases same ▸ isNode
          exact others later reports
      | node extent children =>
          by_cases unit : extent.kind = .programUnit
          · have later : part ∈ rest := by
              refine (List.mem_cons.mp mem).resolve_left fun same => ?_
              have plain := bare.isUnit_eq
              rw [same, isUnit_node, unit] at plain
              cases plain
            have taken := unitPart_blanked stream unit distinct fresh reports
            rw [blankUnits_unit children rest unit, List.filter_cons_of_pos rfl, unitParts, taken]
            exact (others later reports).bind _
          · rw [blankUnits_plain children rest unit, List.filter_cons_of_pos rfl,
              unitEntries_plain children rest stream unit, unitParts, unitPart,
              if_neg (by simpa [LocatedTree.kind] using unit)]
            by_cases lacks : Bare (.node extent children)
            · exact ((plainPart_startless stream lacks).bind _).bind _
            · have later : part ∈ rest :=
                (List.mem_cons.mp mem).resolve_left fun same => lacks (same ▸ bare)
              obtain ⟨result, converted⟩ := plainPart_ok stream lacks
              rw [converted]
              exact (others later _).bind _

/-- A unit that lacks tokens cannot be converted when the units nested in it are. -/
theorem programUnit_startless {extent : Extent} {children : List LocatedTree}
    (lacks : Lacks (.node extent children)) (distinct : (unitRangesOf children).Nodup)
    (table : UnitTable) (fresh : ∀ entry ∈ table, entry.1 ∉ unitRangesOf children)
    (reports : List Diagnostic) :
    Startless (programUnit stream ⟨unitEntries stream children ++ table, reports⟩
      (.node extent (blankUnits children))) := by
  have tokens : LocatedTree.tokens (.node extent (blankUnits children)) = outerTokens children :=
    tokens_blankUnits children
  unfold programUnit
  split
  · rename_i first last begins _
    rcases lacks with none | ⟨part, mem, bare⟩
    · have none : outerTokens children = [] := none
      rw [tokens, none] at begins
      cases begins
    · obtain ⟨inside, isNode⟩ := List.mem_filter.mp mem
      exact (unitParts_startless stream inside isNode bare distinct table fresh reports).bind _
  · exact ⟨_, _, rfl⟩

section Units

variable {extent : Extent} {children rest : List LocatedTree}

/-- A unit is converted if it lacks no tokens and the units nested in it are converted. -/
theorem convertible_unit (unit : extent.kind = .programUnit) :
    Convertible stream (.node extent children :: rest) ↔
      ¬Lacks (.node extent children) ∧ Convertible stream children ∧ Convertible stream rest := by
  have parts : (∀ node ∈ children, node.isNode = true → isUnit node = false →
      ∃ result, plainPart stream node = .ok result) ↔
        ¬∃ node ∈ Tree.childNodes (.node extent children), Bare node := by
    constructor
    · rintro convertible ⟨node, mem, bare⟩
      obtain ⟨inside, isNode⟩ := List.mem_filter.mp mem
      obtain ⟨result, converted⟩ := convertible node inside isNode bare.isUnit_eq
      obtain ⟨construct, offset, fails⟩ := plainPart_startless stream bare
      rw [converted] at fails
      cases fails
    · intro full node mem isNode _
      exact plainPart_ok stream fun bare => full ⟨node, List.mem_filter.mpr ⟨mem, isNode⟩, bare⟩
  rw [Convertible, parts, Lacks, not_or, Tree.children]
  constructor
  · rintro ⟨here, behind⟩
    obtain ⟨own, below, full⟩ := here unit
    exact ⟨⟨own, full⟩, below, behind⟩
  · rintro ⟨⟨own, full⟩, below, behind⟩
    exact ⟨fun _ => ⟨own, below, full⟩, behind⟩

theorem convertible_plain (plain : extent.kind ≠ .programUnit) :
    Convertible stream (.node extent children :: rest) ↔ Convertible stream rest := by
  rw [Convertible]
  exact and_iff_right fun unit => absurd unit plain

theorem convertible_iff {forest : List LocatedTree} (neat : Neat forest) :
    Convertible stream forest ↔
      ∀ unit ∈ Tree.nodesOf forest, isUnit unit = true → ¬Lacks unit := by
  induction forest using Tree.forest_induction with
  | nil => simp [Convertible, Tree.nodesOf]
  | leaf value rest ih =>
      rw [Neat] at neat
      rw [Convertible, ih neat]
      rfl
  | node extent children rest below behind =>
      rw [Neat] at neat
      rw [Tree.nodesOf, Tree.nodes, List.cons_append, List.forall_mem_cons,
        List.forall_mem_append]
      by_cases unit : extent.kind = .programUnit
      · rw [if_pos unit] at neat
        rw [convertible_unit stream unit, below neat.1, behind neat.2]
        simp [isUnit_node, unit]
      · rw [if_neg unit] at neat
        have unitless : ∀ node ∈ Tree.nodesOf children, isUnit node = true → ¬Lacks node := by
          intro node mem isUnit
          have none := List.filter_eq_nil_iff.mp (List.map_eq_nil_iff.mp neat.1) node mem
          exact absurd isUnit none
        have plain : isUnit (.node extent children) = true → ¬Lacks (.node extent children) := by
          simp [isUnit_node, unit]
        rw [convertible_plain stream unit, behind neat.2, and_iff_right plain,
          and_iff_right unitless]

/-- The conversion ends at a unit that lacks tokens, when the units behind it and those nested in
it are converted and blanked. -/
theorem convertUnit_startless {context : List LocatedTree → LocatedTree} {table : UnitTable}
    (unit : extent.kind = .programUnit)
    (ready : Ready context (.node extent children :: rest) table)
    (lacks : Lacks (.node extent children)) (reports : List Diagnostic) :
    Startless (convertUnit stream ⟨context (.node extent (blankUnits children) :: blankUnits rest),
      ⟨unitEntries stream children ++ (unitEntries stream rest ++ table), reports⟩⟩
        extent.range) := by
  have below := ready.below unit stream
  simp only [convertUnit, ready.find? unit]
  exact (programUnit_startless stream lacks below.distinct _ below.fresh reports).bind _

end Units

/-- Where a unit lacks tokens, the conversion of the units of a forest ends at a construct that has
no first token. -/
theorem convertUnits_startless (forest : List LocatedTree) :
    ∀ {context : List LocatedTree → LocatedTree} {table : UnitTable}, Ready context forest table →
      ¬Convertible stream forest → ∀ (reports : List Diagnostic),
        Startless ((unitRangesOf forest).reverse.foldlM (convertUnit stream)
          ⟨context forest, ⟨table, reports⟩⟩) := by
  induction forest using Tree.forest_induction with
  | nil =>
      intro context table _ lacks
      rw [Convertible] at lacks
      exact absurd trivial lacks
  | leaf value rest ih =>
      intro context table ready lacks reports
      rw [Convertible] at lacks
      exact ih ready.behind lacks reports
  | node extent children rest below behind =>
      intro context table ready lacks reports
      by_cases unit : extent.kind = .programUnit
      · rw [foldlM_unit stream unit]
        by_cases later : Convertible stream rest
        · have rests := convertUnits_eq stream rest ready.behind later reports
          simp only [rests, bind, Except.bind]
          by_cases inner : Convertible stream children
          · have nests := convertUnits_eq stream children (ready.below unit stream) inner
              (reports ++ unitReports stream rest)
            have here : Lacks (.node extent children) := Classical.byContradiction fun full =>
              lacks ((convertible_unit stream unit).mpr ⟨full, inner, later⟩)
            rw [nests]
            exact convertUnit_startless stream unit ready here _
          · exact (below (ready.below unit stream) inner _).bind _
        · exact (behind ready.behind later reports).bind _
      · rw [convertible_plain stream unit] at lacks
        rw [ready.unitRangesOf_eq unit]
        exact behind ready.behind lacks reports

end Conversion

/-! ### Main statement -/

/-- A tree whose units are placed is refused if and only if one of its units lacks tokens, and each
time for a construct that has no first token. -/
theorem Adapted.ofTree_error (stream : Stream) {root : LocatedTree} (placed : UnitsPlaced root) :
    ((∃ error, Adapted.ofTree stream root = .error error) ↔
        ∃ unit ∈ root.nodes, isUnit unit = true ∧ Lacks unit) ∧
      ∀ error, Adapted.ofTree stream root = .error error →
        ∃ construct offset, error = .missingStart construct offset := by
  cases root with
  | leaf value =>
      have converted : ∃ adapted, Adapted.ofTree stream (.leaf value) = .ok adapted := ⟨_, rfl⟩
      obtain ⟨adapted, converted⟩ := converted
      rw [converted]
      simp [Tree.nodes]
  | node extent children =>
      obtain ⟨isRoot, places, distinct⟩ := placed
      have root : extent.kind ≠ .programUnit := by simpa [isUnit_node] using isRoot
      have neat : Neat children := places.neat
      have ranges := unitRanges_node children root
      rw [ranges] at distinct
      have units : (∃ unit ∈ Tree.nodes (.node extent children), isUnit unit = true ∧ Lacks unit) ↔
          ¬Convertible stream children := by
        rw [convertible_iff stream neat, Tree.nodes]
        simp [isUnit_node, root]
      rw [units]
      by_cases convertible : Convertible stream children
      · rw [Adapted.ofTree_eq stream root neat convertible distinct]
        simp [convertible]
      · have fails : Startless (Adapted.ofTree stream (.node extent children)) := by
          rw [Adapted.ofTree, ranges]
          exact (convertUnits_startless stream children (.root root neat distinct) convertible
            []).bind _
        obtain ⟨construct, offset, fails⟩ := fails
        rw [fails]
        refine ⟨⟨fun _ => convertible, fun _ => ⟨_, rfl⟩⟩, fun error same => ?_⟩
        cases same
        exact ⟨construct, offset, rfl⟩

/-- A unit with a unit nested in it, whose DATA DIVISION has nothing but a blank. -/
def blankDivision : SourceTree :=
  .node .sourceUnit [.node .programUnit [.leaf ⟨.word, "OUTER".toList⟩,
    .node .programUnit [.leaf ⟨.word, "INNER".toList⟩,
      .node .dataDivision [.leaf ⟨.whitespace, [' ']⟩]]]]

theorem Adapted.ofTree_error_of_blankDivision :
    UnitsPlaced (SourceTree.locate blankDivision) ∧
      ∃ error, Adapted.ofTree (.ofText []) (SourceTree.locate blankDivision) = .error error := by
  have placed : UnitsPlaced (SourceTree.locate blankDivision) :=
    ⟨by decide, by decide, by decide⟩
  refine ⟨placed, (Adapted.ofTree_error (.ofText []) placed).1.mpr ?_⟩
  have nested : (SourceTree.locate blankDivision).nodes[2]? = some
      (.node ⟨.programUnit, ⟨5, 11⟩⟩ [.leaf ⟨⟨.word, "INNER".toList⟩, 5⟩,
        .node ⟨.dataDivision, ⟨10, 11⟩⟩ [.leaf ⟨⟨.whitespace, [' ']⟩, 10⟩]]) := by decide
  exact ⟨_, List.mem_of_getElem? nested, rfl, .inr ⟨_, List.mem_cons_self, .division rfl rfl⟩⟩

end CobolTree
