import CobolTree.Proofs.Conversion.Correspondence

/-!
The bounds of units. The rule of a unit is built where the units nested in it are blanked already,
so it goes from the first token of the unit to the last one outside of the units nested in it. That
is the last token of the unit where the unit has a trailer (`endsInTrailer_unitParts`), and falls
short of it where a nested unit comes last. No terminal below the rule begins before its bounds,
and none goes beyond them if the unit has a trailer (`encloses_unitRule`); without one, a comment
entry that comes last may take in blanks behind the last token.
-/

namespace CobolTree

open Conversion SourceTree
open LocatedTree (outerTokens ownTokensOf isUnit)

/-- Where a rule begins, and where it stops. -/
structure Bounds where
  start : Option Terminal
  stop : Option Terminal
deriving DecidableEq, Repr

/-- The first token of a unit, and its last if it has a trailer; a unit without one stops with its
last token outside of the units nested in it. -/
def LocatedTree.bounds (stream : Stream) (unit : LocatedTree) : Bounds where
  start := unit.tokens.head?.map stream.terminalOf
  stop :=
    (if unit.ownTokens.isEmpty then outerTokens unit.children else unit.tokens).getLast?.map
      stream.terminalOf

namespace RuleTree

/-- The bounds that the rule of a tree carries. -/
def bounds (tree : RuleTree) : Bounds := ⟨start? tree, tree.label?.bind (·.stop)⟩

/-- One of the parts of the tree is an END PROGRAM statement. -/
def IsClosed (tree : RuleTree) : Prop :=
  ∃ part ∈ tree.children, kind? part = some .endProgramStatement

/-- The terminals of a tree are within the bounds of its rule: none begins before them, and none
goes beyond them if the tree is closed. -/
structure Encloses (tree : RuleTree) : Prop where
  behind : ∀ terminal ∈ tree.leaves, ∃ start ∈ tree.bounds.start,
    start.range.start ≤ terminal.range.start
  before : tree.IsClosed → ∀ terminal ∈ tree.leaves, ∃ stop ∈ tree.bounds.stop,
    terminal.range.stop ≤ stop.range.stop

end RuleTree

/-! ### Terminals in order -/

/-- None of the terminals begins before the one before it has ended. -/
structure Ordered (terminals : List Terminal) : Prop where
  forward : ∀ terminal ∈ terminals, terminal.range.start ≤ terminal.range.stop
  apart : terminals.Pairwise fun earlier later => earlier.range.stop ≤ later.range.start

namespace Ordered

variable {terminals : List Terminal}

theorem head?_le (h : Ordered terminals) {first : Terminal}
    (head : terminals.head? = some first) :
    ∀ terminal ∈ terminals, first.range.start ≤ terminal.range.start := by
  obtain ⟨others, rfl⟩ := List.head?_eq_some_iff.mp head
  have forward := h.forward first List.mem_cons_self
  have apart := (List.pairwise_cons.mp h.apart).1
  rw [List.forall_mem_cons]
  exact ⟨le_rfl, fun terminal mem => forward.trans (apart terminal mem)⟩

theorem le_getLast? (h : Ordered terminals) {last : Terminal}
    (final : terminals.getLast? = some last) :
    ∀ terminal ∈ terminals, terminal.range.stop ≤ last.range.stop := by
  obtain ⟨others, rfl⟩ := List.getLast?_eq_some_iff.mp final
  have forward := h.forward last (List.mem_append_right _ List.mem_cons_self)
  have apart := (List.pairwise_append.mp h.apart).2.2
  rw [List.forall_mem_append, List.forall_mem_singleton]
  exact ⟨fun terminal mem => (apart terminal mem last List.mem_cons_self).trans forward, le_rfl⟩

end Ordered

namespace Covers

variable {stream : Stream} {stops : Nat → Prop} {offset : Nat} {text : Text}
  {terminals : List Terminal}

theorem le_start (h : Covers stops stream.StandsFor offset text terminals) :
    ∀ terminal ∈ terminals, offset ≤ terminal.range.start := by
  induction h with
  | gap => exact List.forall_mem_nil _
  | piece _ _ stands _ ih =>
      obtain ⟨type, rfl⟩ := stands
      rw [List.forall_mem_cons]
      constructor
      · exact Nat.le_add_right _ _
      · intro terminal mem
        have := ih terminal mem
        omega

/-- Terminals that cover a text are in order. -/
theorem ordered (h : Covers stops stream.StandsFor offset text terminals) : Ordered terminals := by
  induction h with
  | gap => exact ⟨List.forall_mem_nil _, .nil⟩
  | piece _ _ stands others ih =>
      obtain ⟨type, rfl⟩ := stands
      constructor
      · rw [List.forall_mem_cons]
        exact ⟨Nat.le_add_right _ _, ih.forward⟩
      · exact List.pairwise_cons.mpr ⟨others.le_start, ih.apart⟩

end Covers

/-! ### Where units begin -/

/-- The first terminal of a part is where the first token of the part is. -/
theorem head?_leaves_plainPart (stream : Stream) {tree : SourceTree} (part : IsPlainPart tree)
    {start : Nat} {result : RuleTree × List Diagnostic}
    (converted : plainPart stream (locateAt start tree) = .ok result) :
    ∃ terminal first, result.1.leaves.head? = some terminal ∧
      (locateAt start tree).tokens.head? = some first ∧ terminal.range.start = first.start := by
  obtain ⟨sketch, -, startsWithFirst⟩ := spec_plainPart stream part converted
  have starts := congrArg PartSketch.start sketch
  obtain ⟨first, others, tokens⟩ :=
    List.exists_cons_of_ne_nil (tokens_locateAt_ne_nil part.spec.carries start)
  rw [RuleTree.sketch, LocatedTree.sketch, startsWithFirst, tokens] at starts
  obtain ⟨terminal, head, same⟩ := Option.map_eq_some_iff.mp starts
  exact ⟨terminal, first, head, by rw [tokens]; rfl, same⟩

/-- The first terminal below a unit is where the first token of the unit is. -/
theorem head?_leaves_unitParts (stream : Stream) {parts : List SourceTree}
    (h : UnitParts false parts) (start : Nat) :
    (Tree.leavesOf (partRules stream (locateAllAt start parts)) ++
        (ownTokensOf (locateAllAt start parts)).map stream.terminalOf).head?.map (·.range.start) =
      ((Tree.leavesOf (locateAllAt start parts)).filter (!·.isTrivia)).head?.map (·.start) := by
  have plain {tree : SourceTree} (rest : List SourceTree) (part : IsPlainPart tree) (start : Nat) :
      (Tree.leavesOf (partRules stream (locateAllAt start (tree :: rest))) ++
          (ownTokensOf (locateAllAt start (tree :: rest))).map stream.terminalOf).head?.map
            (·.range.start) =
        ((Tree.leavesOf (locateAllAt start (tree :: rest))).filter (!·.isTrivia)).head?.map
          (·.start) := by
    obtain ⟨result, converted⟩ := part.spec.converts stream start
    obtain ⟨terminal, first, head, tokens, same⟩ := head?_leaves_plainPart stream part converted
    have left : (Tree.leavesOf (partRules stream (locateAllAt start (tree :: rest))) ++
        (ownTokensOf (locateAllAt start (tree :: rest))).map stream.terminalOf).head? =
          some terminal := by
      rw [partRules_plainPart stream rest part converted, Tree.leavesOf_cons, List.append_assoc,
        List.head?_append, head, Option.some_or]
    have right : ((Tree.leavesOf (locateAllAt start (tree :: rest))).filter
        (!·.isTrivia)).head? = some first := by
      rw [LocatedTree.tokens] at tokens
      rw [locateAllAt, Tree.leavesOf_cons, List.filter_append, List.head?_append, tokens,
        Option.some_or]
    rw [left, right, Option.map_some, Option.map_some, same]
  generalize fresh : false = begun at h
  induction h generalizing start with
  | nil =>
      rw [locateAllAt, partRules]
      rfl
  | @trivia begun lexeme rest trivial _ ih =>
      rw [ownTokensOf_cons (.inl ⟨_, rfl, trivial⟩), partRules_leaf, locateAllAt, locateAt,
        Tree.leavesOf_cons, Tree.leaves, List.singleton_append,
        List.filter_cons_of_neg (by simp [trivial])]
      exact ih _ fresh
  | stray conforms => exact plain _ (.stray conforms) start
  | division conforms => exact plain _ (.division conforms) start
  | nested => cases fresh
  | @trailer begun lexemes _ =>
      rw [partRules_row, ownTokensOf_row, locateAllAt_row, Tree.leavesOf_map_leaf, Tree.leavesOf,
        List.nil_append, List.head?_map, Option.map_map]
      rfl

/-! ### Where units end -/

/-- The last token of a forest stands right there, outside of the units in it. -/
def EndsInTrailer (forest : List LocatedTree) : Prop :=
  ∃ last, (ownTokensOf forest).getLast? = some last ∧
    (outerTokens forest).getLast? = some last ∧
      ((Tree.leavesOf forest).filter (!·.isTrivia)).getLast? = some last

/-- What stands before the last token of a forest makes no difference. -/
theorem EndsInTrailer.cons {rest : List LocatedTree} (h : EndsInTrailer rest)
    (tree : LocatedTree) : EndsInTrailer (tree :: rest) := by
  obtain ⟨last, own, outer, all⟩ := h
  refine ⟨last, ?_, ?_, ?_⟩
  · rw [← List.singleton_append, ownTokensOf_append, List.getLast?_append, own,
      Option.some_or]
  · cases unit : isUnit tree with
    | true => simpa [outerTokens, unit] using outer
    | false => rw [outerTokens_cons unit, List.getLast?_append, outer, Option.some_or]
  · rw [Tree.leavesOf_cons, List.filter_append, List.getLast?_append, all, Option.some_or]

theorem endsInTrailer_row {lexemes : List Lexeme} (carries : Lexeme.significant lexemes ≠ [])
    (start : Nat) : EndsInTrailer (locateAllAt start (row lexemes)) := by
  have leaves : (Leaf.row start lexemes).filter (!·.isTrivia) ≠ [] := by
    intro none
    rw [← significant_row start, none] at carries
    exact carries rfl
  have outside : ((Leaf.row start lexemes).map (.leaf : Leaf → LocatedTree)).filter
      (!isUnit ·) = (Leaf.row start lexemes).map .leaf := by
    rw [List.filter_eq_self, List.forall_mem_map]
    exact fun leaf _ => rfl
  obtain ⟨last, ends⟩ := Option.ne_none_iff_exists'.mp (List.getLast?_eq_none_iff.not.mpr leaves)
  refine ⟨last, ?_, ?_, ?_⟩
  · rw [ownTokensOf_row, ends]
  · rw [locateAllAt_row, outerTokens, outside, Tree.leavesOf_map_leaf, ends]
  · rw [locateAllAt_row, Tree.leavesOf_map_leaf, ends]

/-- A unit with tokens of its own ends in them: they are its trailer. -/
theorem endsInTrailer_unitParts {begun : Bool} {parts : List SourceTree}
    (h : UnitParts begun parts) (start : Nat)
    (closed : ownTokensOf (locateAllAt start parts) ≠ []) :
    EndsInTrailer (locateAllAt start parts) := by
  induction h generalizing start with
  | nil => exact absurd rfl closed
  | trivia trivial _ ih =>
      rw [ownTokensOf_cons (.inl ⟨_, rfl, trivial⟩)] at closed
      exact (ih _ closed).cons _
  | stray conforms _ ih =>
      rw [ownTokensOf_cons (.inr conforms.isNode)] at closed
      exact (ih _ closed).cons _
  | division conforms _ ih =>
      rw [ownTokensOf_cons (.inr conforms.isNode)] at closed
      exact (ih _ closed).cons _
  | nested _ _ _ _ ih =>
      rw [ownTokensOf_cons (.inr rfl)] at closed
      exact (ih _ closed).cons _
  | trailer conforms =>
      obtain ⟨first, second, name, period, tokens, -⟩ := conforms
      refine endsInTrailer_row ?_ start
      rw [tokens]
      exact List.cons_ne_nil _ _

/-! ### Rules of units -/

/-- The rule of a unit has the bounds of the unit. -/
theorem bounds_unitRule (stream : Stream) :
    RuleTells stream RuleTree.bounds (LocatedTree.bounds stream) := by
  intro parts start inner _ _
  have stop : (outerTokens (locateAllAt start parts)).getLast? =
      (if (ownTokensOf (locateAllAt start parts)).isEmpty then
        outerTokens (locateAllAt start parts)
      else (locateAt start (.node .programUnit parts)).tokens).getLast? := by
    split
    · rfl
    · rename_i closed
      obtain ⟨last, -, outer, all⟩ := endsInTrailer_unitParts inner start (by simpa using closed)
      exact outer.trans all.symm
  rw [RuleTree.bounds, start?_unitRule stream inner]
  exact congrArg (fun last => Bounds.mk _ (last.map stream.terminalOf)) stop

/-- The rule of a unit has an END PROGRAM statement only if the unit has a trailer. -/
theorem ownTokensOf_ne_nil_of_isClosed (stream : Stream) {parts : List SourceTree}
    (h : UnitParts false parts) (start : Nat)
    (closed : (unitRule stream (locateAt start (.node .programUnit parts))
      (partRules stream (locateAllAt start parts))).IsClosed) :
    ownTokensOf (locateAllAt start parts) ≠ [] := by
  intro none
  obtain ⟨rule, mem, statement⟩ := closed
  have among : rule ∈ partRules stream (locateAllAt start parts) := by
    have nothing : LocatedTree.ownTokens (locateAt start (.node .programUnit parts)) = [] := none
    rw [unitRule, nothing] at mem
    simpa [trailer, Tree.children] using mem
  have sketched := List.mem_map_of_mem (f := RuleTree.sketch) among
  rw [map_sketch_partRules stream h] at sketched
  obtain ⟨node, -, same⟩ := List.mem_map.mp sketched
  have other (kind : Kind) : kind.ruleKind? ≠ some .endProgramStatement := by
    cases kind <;> decide
  refine other node.kind ?_
  rw [← statement]
  exact congrArg PartSketch.kind same

/-- The rule of a unit encloses its terminals. -/
theorem encloses_unitRule (stream : Stream) :
    RuleTells stream RuleTree.Encloses fun _ => True := by
  intro parts start inner legible carries
  let located := locateAllAt start parts
  let unit := locateAt start (.node .programUnit parts)
  let rule := unitRule stream unit (partRules stream located)
  have bounds : rule.bounds = unit.bounds stream :=
    bounds_unitRule stream parts start inner legible carries
  have leaves : Tree.leaves rule =
      Tree.leavesOf (partRules stream located) ++ (ownTokensOf located).map stream.terminalOf :=
    leaves_unitRule stream _ _ _
  have ordered : Ordered (Tree.leaves rule) := by
    rw [leaves]
    exact (partsCovered_unitParts stream inner (.of_legible legible)).ordered
  have encloses : rule.Encloses := by
    constructor
    · intro terminal mem
      have begins := head?_leaves_unitParts stream inner start
      obtain ⟨first, others, split⟩ := List.exists_cons_of_ne_nil (List.ne_nil_of_mem mem)
      rw [← leaves, split] at begins
      obtain ⟨token, head, same⟩ := Option.map_eq_some_iff.mp begins.symm
      refine ⟨stream.terminalOf token, ?_, ?_⟩
      · rw [bounds]
        exact congrArg (Option.map stream.terminalOf) head
      · have least := ordered.head?_le (by rw [split]; rfl) terminal mem
        exact same.trans_le least
    · intro closed terminal mem
      have own := ownTokensOf_ne_nil_of_isClosed stream inner start closed
      obtain ⟨last, final, -, all⟩ := endsInTrailer_unitParts inner start own
      refine ⟨stream.terminalOf last, ?_, ?_⟩
      · have tokens : unit.ownTokens.isEmpty = false := List.isEmpty_eq_false_iff.mpr own
        rw [bounds, LocatedTree.bounds, tokens]
        exact congrArg (Option.map stream.terminalOf) all
      · refine ordered.le_getLast? ?_ terminal mem
        rw [leaves, List.getLast?_append, List.getLast?_map, final]
        rfl
  exact eq_true encloses

/-! ### Whole texts -/

namespace Analysis

/-- The units of an analysed stream are bounded by their tokens, and enclose what is below them. -/
theorem exists_bounded (settings : Settings) (stream : Stream) :
    ∃ analysis contexts, ofStream settings stream = .ok analysis ∧
      analysis.adapted.tree.childNodes = [RuleTree.bounded .compilationUnit contexts] ∧
        RuleTree.unitForest RuleTree.bounds contexts =
          LocatedTree.unitForest (LocatedTree.bounds stream) [analysis.parsed.tree.locate] ∧
        ∀ rule ∈ Tree.nodesOf contexts, RuleTree.kind? rule = some .programUnit →
          RuleTree.Encloses rule := by
  obtain ⟨analysis, contexts, converted, root, units⟩ := unitForest_contexts settings stream
  have enclosed := RuleTree.forall_of_unitForest (units (encloses_unitRule stream))
  exact ⟨analysis, contexts, converted, root, units (bounds_unitRule stream), enclosed⟩

/-- In every analysed text, and in every expanded text, the rule of a unit begins with the first
token of the unit, and stops with its last token if it has a trailer, else with the last that is
outside of the units nested in it; no terminal below the rule begins before its start, and none
goes beyond its stop if there is an END PROGRAM statement. -/
theorem units_bounded (settings : Settings) :
    (∀ text, ∃ analysis contexts, ofText settings text = .ok analysis ∧
      analysis.adapted.tree.childNodes = [RuleTree.bounded .compilationUnit contexts] ∧
        RuleTree.unitForest RuleTree.bounds contexts =
          LocatedTree.unitForest (LocatedTree.bounds (.ofText text))
            [analysis.parsed.tree.locate] ∧
        ∀ rule ∈ Tree.nodesOf contexts, RuleTree.kind? rule = some .programUnit →
          RuleTree.Encloses rule) ∧
    ∀ document, ∃ analysis contexts, ofDocument settings document = .ok analysis ∧
      analysis.adapted.tree.childNodes = [RuleTree.bounded .compilationUnit contexts] ∧
        RuleTree.unitForest RuleTree.bounds contexts =
          LocatedTree.unitForest (LocatedTree.bounds (.ofDocument document))
            [analysis.parsed.tree.locate] ∧
        ∀ rule ∈ Tree.nodesOf contexts, RuleTree.kind? rule = some .programUnit →
          RuleTree.Encloses rule := by
  constructor
  · intro text
    exact exists_bounded settings (.ofText text)
  · intro document
    exact exists_bounded settings (.ofDocument document)

end Analysis

end CobolTree
