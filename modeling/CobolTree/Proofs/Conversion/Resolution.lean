import CobolTree.Proofs.Conversion.Blanking
import CobolTree.Proofs.Conversion.Correspondence
import Mathlib.Data.List.Basic

/-!
Adapted nodes and the units that they stand for. Units begin one behind another, nested ones
included (`spread_firstsOf`), and so do their rules; what is found within the range of a unit is its
rule and the rules of the units nested in it, its own first of all (`unitOf?_ruleOf`). So every
unit of a source text is resolved to its own rule, in the order of the text (`Analysis.resolves`).
-/

namespace CobolTree

open Conversion SourceTree
open LocatedTree (isUnit unitRangesOf)

/-! ### First tokens of units -/

/-- The first tokens of the units of a forest, outer units first. -/
def LocatedTree.firstsOf (forest : List LocatedTree) : List Leaf :=
  ((Tree.nodesOf forest).filter isUnit).filterMap (·.tokens.head?)

namespace SourceTree

open LocatedTree (firstsOf)

theorem firstsOf_cons (tree : LocatedTree) (rest : List LocatedTree) :
    firstsOf (tree :: rest) = firstsOf [tree] ++ firstsOf rest := by
  simp [firstsOf, Tree.nodesOf]

theorem firstsOf_of_unitRangesOf {forest : List LocatedTree} (none : unitRangesOf forest = []) :
    firstsOf forest = [] := by
  rw [firstsOf, List.map_eq_nil_iff.mp none, List.filterMap_nil]

theorem firstsOf_unit {extent : Extent} {children : List LocatedTree} {first : Leaf}
    (unit : extent.kind = .programUnit)
    (begins : (LocatedTree.tokens (.node extent children)).head? = some first) :
    firstsOf [.node extent children] = first :: firstsOf children := by
  simp [firstsOf, Tree.nodesOf, Tree.nodes, isUnit_node, unit, begins]

/-- A leaf of a tree lies in the bytes of the tree. -/
theorem bounds_of_mem_leaves (tree : SourceTree)
    (legible : ∀ lexeme ∈ tree.leaves, lexeme.Legible) {start : Nat} {leaf : Leaf}
    (mem : leaf ∈ (locateAt start tree).leaves) :
    start ≤ leaf.start ∧ leaf.start < leaf.range.stop ∧
      leaf.range.stop ≤ start + (text tree).byteLength := by
  rw [leaves_locateAt_eq_row] at mem
  obtain ⟨before, after, split, -⟩ := Leaf.exists_split_of_mem_row mem
  have some := (legible leaf.toLexeme (by simp [split])).text_ne_nil
  have long := List.length_pos_iff.mpr some
  have size := Text.length_le_byteLength leaf.text
  have bounds := Leaf.range_le_of_mem_row mem
  refine ⟨bounds.1, ?_, bounds.2⟩
  simp only [Leaf.range, Range.ofText]
  omega

/-- The first tokens of the units of a forest begin one behind another within the forest, and no
unit begins with the first token of all where no division has been read. -/
structure FirstsApart (begun : Bool) (parts : List SourceTree) (start : Nat) : Prop where
  spread : Spread start (start + (textOf parts).byteLength)
    ((firstsOf (locateAllAt start parts)).map Leaf.range)
  fresh : begun = false →
    ∀ first ∈ ((Leaf.row start (Tree.leavesOf parts)).filter (!·.isTrivia)).head?,
      ∀ leaf ∈ firstsOf (locateAllAt start parts), first.start < leaf.start

/-- A unit begins with its first token, and the units nested in it begin behind that token. -/
theorem spread_firstsOf_unit {parts : List SourceTree} {start : Nat} (legible : Legible parts)
    (carries : Lexeme.significant (Tree.leavesOf parts) ≠ [])
    (inner : FirstsApart false parts start) :
    Spread start (start + (textOf parts).byteLength)
      ((firstsOf [locateAt start (.node .programUnit parts)]).map Leaf.range) := by
  obtain ⟨first, others, tokens⟩ := List.exists_cons_of_ne_nil
    (@tokens_locateAt_ne_nil (.node .programUnit parts) carries start)
  have begins : (locateAt start (.node .programUnit parts)).tokens.head? = some first := by
    rw [tokens]
    rfl
  have mem : first ∈ (locateAt start (.node .programUnit parts)).tokens := by
    rw [tokens]
    exact List.mem_cons_self
  have bounds := bounds_of_mem_leaves (.node .programUnit parts) legible
    (List.mem_filter.mp mem).1
  have size : text (.node .programUnit parts) = textOf parts := rfl
  rw [size] at bounds
  rw [tokens_locateAt] at begins
  have later := inner.fresh rfl first begins
  rw [← tokens_locateAt start (.node .programUnit parts)] at begins
  rw [locateAt, firstsOf_unit rfl begins, List.map_cons]
  have room : first.start < start + (textOf parts).byteLength := by omega
  have nested : Spread (first.start + 1) (start + (textOf parts).byteLength)
      ((firstsOf (locateAllAt start parts)).map Leaf.range) := by
    refine ⟨fun range mem => ?_, inner.spread.apart⟩
    obtain ⟨leaf, among, rfl⟩ := List.mem_map.mp mem
    exact ⟨later leaf among, (inner.spread.within _ mem).2⟩
  exact (Spread.cons rfl nested room).mono bounds.1 (Nat.le_refl _)

/-- A tree without units makes no difference to the units behind it; where it has a token, they
begin behind that token. -/
theorem FirstsApart.cons {begun later : Bool} {tree : SourceTree} {rest : List SourceTree}
    {start : Nat} (legible : ∀ lexeme ∈ tree.leaves, lexeme.Legible)
    (none : firstsOf [locateAt start tree] = [])
    (read : later = begun ∨ Lexeme.significant tree.leaves ≠ [])
    (behind : FirstsApart later rest (start + (text tree).byteLength)) :
    FirstsApart begun (tree :: rest) start := by
  have firsts : firstsOf (locateAllAt start (tree :: rest)) =
      firstsOf (locateAllAt (start + (text tree).byteLength) rest) := by
    rw [locateAllAt, firstsOf_cons, none, List.nil_append]
  constructor
  · rw [firsts, textOf_cons, Text.byteLength_append, ← Nat.add_assoc]
    exact behind.spread.mono (Nat.le_add_right _ _) (Nat.le_refl _)
  · intro fresh first mem leaf among
    rw [firsts] at among
    rw [Tree.leavesOf_cons, Leaf.row_append, List.filter_append, ← tokens_locateAt] at mem
    cases tokens : (locateAt start tree).tokens with
    | nil =>
        have same := read.resolve_right fun carries => tokens_locateAt_ne_nil carries start tokens
        rw [tokens, List.nil_append] at mem
        exact behind.fresh (same.trans fresh) first mem leaf among
    | cons token others =>
        rw [tokens] at mem
        obtain rfl : token = first := Option.some.inj mem
        have here : token ∈ (locateAt start tree).tokens := by
          rw [tokens]
          exact List.mem_cons_self
        have bounds := bounds_of_mem_leaves _ legible (List.mem_filter.mp here).1
        have within := behind.spread.within leaf.range (List.mem_map_of_mem among)
        exact Nat.lt_of_lt_of_le (by omega) within.1

theorem UnitParts.firstsApart {begun : Bool} {parts : List SourceTree} (h : UnitParts begun parts) :
    Legible parts → ∀ start, FirstsApart begun parts start := by
  refine UnitParts.induction (motive := fun begun parts => Legible parts → ∀ start,
    FirstsApart begun parts start) ?nil ?leaf ?plain ?nested h
  case nil =>
    intro begun _ start
    exact ⟨spread_nil _ _, fun _ _ _ leaf mem => by cases mem⟩
  case leaf =>
    intro begun lexeme rest ih legible start
    obtain ⟨here, others⟩ := legible_cons.mp legible
    exact .cons here rfl (.inl rfl) (ih others _)
  case plain =>
    intro begun later kind children rest other conforms ih legible start
    obtain ⟨here, others⟩ := legible_cons.mp legible
    exact .cons here (firstsOf_of_unitRangesOf (conforms.spec.unitless start))
      (.inr conforms.spec.carries) (ih others _)
  case nested =>
    intro parts rest opens _ inner ih legible start
    obtain ⟨here, others⟩ := legible_cons.mp legible
    have carries := significant_ne_nil_of_opensDivision opens
    have unit := spread_firstsOf_unit here carries (inner here start)
    have behind := ih others (start + (text (.node .programUnit parts)).byteLength)
    refine ⟨?_, fun never => by cases never⟩
    rw [locateAllAt, firstsOf_cons, List.map_append, textOf_cons, Text.byteLength_append,
      ← Nat.add_assoc]
    exact unit.append behind.spread (Nat.le_add_right _ _) (Nat.le_add_right _ _)

/-- The units of a source unit begin one behind another, those nested in them included. -/
theorem Among.spread_firstsOf {children : List SourceTree} (h : Among IsUnit children)
    (legible : Legible children) (start : Nat) :
    Spread start (start + (textOf children).byteLength)
      ((firstsOf (locateAllAt start children)).map Leaf.range) := by
  induction children generalizing start with
  | nil => exact spread_nil _ _
  | cons tree rest ih =>
      obtain ⟨here, behind⟩ := legible_cons.mp legible
      obtain ⟨first, later⟩ := among_cons.mp h
      have others := ih later behind (start + (text tree).byteLength)
      rw [locateAllAt, firstsOf_cons, List.map_append, textOf_cons, Text.byteLength_append,
        ← Nat.add_assoc]
      rcases first with ⟨lexeme, rfl, -⟩ | unit
      · exact others.mono (Nat.le_add_right _ _) (Nat.le_refl _)
      · cases unit with
        | @of parts inner carries =>
            have unit := spread_firstsOf_unit here carries (inner.firstsApart here start)
            exact unit.append others (Nat.le_add_right _ _) (Nat.le_add_right _ _)

/-- A unit of a text, at its place: its parts can be read again, and one of them at least carries
meaning. -/
def IsPlacedUnit (unit : LocatedTree) : Prop :=
  ∃ place parts, unit = locateAt place (.node .programUnit parts) ∧ UnitParts false parts ∧
    Lexeme.significant (Tree.leavesOf parts) ≠ [] ∧ Legible parts

/-- The units right below the root of a text are units at their places. -/
theorem Among.placed {children : List SourceTree} (units : Among IsUnit children)
    (legible : Legible children) {start : Nat} {unit : LocatedTree}
    (mem : unit ∈ (locateAllAt start children).filter isUnit) : IsPlacedUnit unit := by
  obtain ⟨inside, is⟩ := List.mem_filter.mp mem
  obtain ⟨before, tree, after, rfl, rfl⟩ := exists_split_of_mem inside
  rcases units tree (by simp) with ⟨lexeme, rfl, -⟩ | unit
  · cases is
  · cases unit with
    | @of parts inner carries =>
        have legible := (legible_cons.mp (legible_append.mp legible).2).1
        exact ⟨_, parts, rfl, inner, carries, legible⟩

theorem mem_leavesOf_of_mem_firstsOf {forest : List LocatedTree} {leaf : Leaf}
    (mem : leaf ∈ firstsOf forest) : leaf ∈ Tree.leavesOf forest := by
  obtain ⟨unit, among, first⟩ := List.mem_filterMap.mp mem
  have token : leaf ∈ unit.tokens := List.mem_of_head? first
  exact Tree.leaves_subset_of_mem_nodesOf (List.mem_filter.mp among).1 (List.mem_filter.mp token).1

end SourceTree

/-! ### Rules of units -/

/-- The rules of the units in a forest of rule trees. -/
def RuleTree.contextsOf (forest : List RuleTree) : List RuleTree :=
  (Tree.nodesOf forest).filter (RuleTree.kind? · == some .programUnit)

theorem RuleTree.contextsOf_append (s t : List RuleTree) :
    contextsOf (s ++ t) = contextsOf s ++ contextsOf t := by
  simp [contextsOf]

theorem RuleTree.contextsOf_cons (tree : RuleTree) (rest : List RuleTree) :
    contextsOf (tree :: rest) = contextsOf [tree] ++ contextsOf rest :=
  contextsOf_append [tree] rest

/-- The rule of a unit. -/
def Conversion.ruleOf (stream : Stream) (unit : LocatedTree) : RuleTree :=
  unitRule stream unit (partRules stream unit.children)

section Contexts

open LocatedTree (firstsOf)
open RuleTree (contextsOf)

variable (stream : Stream)

theorem start?_tells : RuleTells stream RuleTree.start?
    (fun unit => unit.tokens.head?.map stream.terminalOf) :=
  fun _ start inner _ _ => start?_unitRule stream inner start _

variable {stream}

/-- Rules that make up the same forest as units begin with the first tokens of the units. -/
theorem starts_contextsOf {rules : List RuleTree} {forest : List LocatedTree}
    (same : RuleTree.unitForest RuleTree.start? rules =
      LocatedTree.unitForest (fun unit => unit.tokens.head?.map stream.terminalOf) forest) :
    (contextsOf rules).filterMap RuleTree.start? = (firstsOf forest).map stream.terminalOf := by
  have labels := congrArg (fun units => ((Tree.nodesOf units).filterMap Tree.label?).filterMap id)
    same
  simp only [RuleTree.unitForest, LocatedTree.unitForest, Tree.labels_selectAll,
    List.filterMap_filterMap] at labels
  have left : (contextsOf rules).filterMap RuleTree.start? =
      (Tree.nodesOf rules).filterMap fun rule => (if RuleTree.kind? rule = some .programUnit then
        some (RuleTree.start? rule) else none).bind id := by
    rw [contextsOf, List.filterMap_filter]
    refine congrArg (List.filterMap · (Tree.nodesOf rules)) (funext fun rule => ?_)
    by_cases unit : RuleTree.kind? rule = some .programUnit
    · simp [unit]
    · simp [unit]
  have right : (firstsOf forest).map stream.terminalOf =
      (Tree.nodesOf forest).filterMap fun unit => (if isUnit unit = true then
        some (unit.tokens.head?.map stream.terminalOf) else none).bind id := by
    rw [firstsOf, List.filterMap_filter, List.map_filterMap]
    refine congrArg (List.filterMap · (Tree.nodesOf forest)) (funext fun unit => ?_)
    by_cases is : isUnit unit = true
    · simp [is]
    · simp [is]
  rw [left, right, labels]

/-- The rules of the parts of a source unit are those of its units. -/
theorem rootRules_eq_map {children : List SourceTree} (units : Among IsUnit children)
    (start : Nat) : rootRules stream (locateAllAt start children) =
      ((locateAllAt start children).filter isUnit).map (ruleOf stream) := by
  induction children generalizing start with
  | nil => rfl
  | cons tree rest ih =>
      obtain ⟨first, later⟩ := among_cons.mp units
      have others := ih later (start + (SourceTree.text tree).byteLength)
      rcases first with ⟨lexeme, rfl, trivial⟩ | unit
      · rw [locateAllAt, locateAt, rootRules, if_pos trivial]
        exact others
      · cases unit with
        | @of parts _ _ =>
            rw [locateAllAt, locateAt, rootRules, if_pos rfl, others, List.filter_cons_of_pos rfl]
            rfl

theorem contextsOf_ruleOf (unit : LocatedTree) :
    contextsOf [ruleOf stream unit] =
      ruleOf stream unit :: contextsOf (ruleOf stream unit).children := by
  simp [contextsOf, ruleOf, unitRule, Tree.nodesOf, Tree.nodes, Tree.children, RuleTree.kind?,
    Tree.label?]

/-- The rules in the rule of a unit: its own comes first, and the others begin behind it, all of
them with tokens of the unit. -/
theorem exists_contextsOf_ruleOf (stream : Stream) {parts : List SourceTree}
    (inner : UnitParts false parts) (legible : Legible parts)
    (carries : Lexeme.significant (Tree.leavesOf parts) ≠ []) (place : Nat) :
    let unit := locateAt place (.node .programUnit parts)
    ∃ first others, contextsOf [ruleOf stream unit] = ruleOf stream unit :: others ∧
      unit.tokens.head? = some first ∧
        RuleTree.start? (ruleOf stream unit) = some (stream.terminalOf first) ∧
          ∀ rule ∈ others, ∀ begins ∈ RuleTree.start? rule, ∃ leaf ∈ unit.leaves,
            begins = stream.terminalOf leaf ∧ first.start < leaf.start := by
  intro unit
  have below := unitForest_partRules (start?_tells stream) inner legible place
  have starts : (contextsOf [ruleOf stream unit]).filterMap RuleTree.start? =
      (firstsOf [unit]).map stream.terminalOf :=
    starts_contextsOf (unitForest_unit (start?_tells stream) inner legible carries below)
  obtain ⟨first, others, tokens⟩ := List.exists_cons_of_ne_nil
    (@tokens_locateAt_ne_nil (.node .programUnit parts) carries place)
  have begins : unit.tokens.head? = some first := by
    rw [tokens]
    rfl
  have start : RuleTree.start? (ruleOf stream unit) = some (stream.terminalOf first) := by
    rw [← Option.map_some, ← begins]
    exact start?_unitRule stream inner place _
  have spread : Spread place _ ((firstsOf [unit]).map Leaf.range) :=
    spread_firstsOf_unit legible carries (inner.firstsApart legible place)
  have firsts : firstsOf [unit] = first :: firstsOf (locateAllAt place parts) :=
    firstsOf_unit rfl begins
  rw [contextsOf_ruleOf, List.filterMap_cons_some start, firsts, List.map_cons] at starts
  rw [firsts, List.map_cons] at spread
  refine ⟨first, _, contextsOf_ruleOf unit, begins, start, fun rule mem terminal opens => ?_⟩
  have among : terminal ∈ (firstsOf (locateAllAt place parts)).map stream.terminalOf := by
    rw [← (List.cons.inj starts).2]
    exact List.mem_filterMap.mpr ⟨rule, mem, opens⟩
  obtain ⟨leaf, found, rfl⟩ := List.mem_map.mp among
  exact ⟨leaf, mem_leavesOf_of_mem_firstsOf found, rfl,
    (List.pairwise_cons.mp spread.apart).1 leaf.range (List.mem_map_of_mem found)⟩

end Contexts

/-! ### What is found within a unit -/

namespace Adapted

open RuleTree (contextsOf)

/-- Where a rule begins, if that is within a node. -/
def beginning? (node : LocatedTree) (rule : RuleTree) : Option (Nat × RuleTree) :=
  ((RuleTree.start? rule).filter ((LocatedTree.range node).covers ·.range)).map fun start =>
    (start.range.start, rule)

variable {node : LocatedTree} {rule : RuleTree}

theorem beginning?_of_covers {start : Terminal} (begins : RuleTree.start? rule = some start)
    (covers : (LocatedTree.range node).covers start.range = true) :
    beginning? node rule = some (start.range.start, rule) := by
  rw [beginning?, begins, Option.filter_some, if_pos covers, Option.map_some]

theorem exists_of_beginning? {entry : Nat × RuleTree} (h : beginning? node rule = some entry) :
    ∃ start, RuleTree.start? rule = some start ∧
      (LocatedTree.range node).covers start.range = true ∧ entry.1 = start.range.start := by
  obtain ⟨start, found, rfl⟩ := Option.map_eq_some_iff.mp h
  obtain ⟨begins, covers⟩ := Option.filter_eq_some_iff.mp found
  exact ⟨start, begins, covers, rfl⟩

/-- The earlier of what was found so far and the next find; of two that begin alike, the one that
was found before. -/
def earlier (best : Option (Nat × RuleTree)) (next : Nat × RuleTree) : Option (Nat × RuleTree) :=
  match best with
  | some found => if next.1 < found.1 then some next else some found
  | none => some next

theorem unitOf?_eq (adapted : Adapted) (node : LocatedTree) :
    adapted.unitOf? node =
      (((contextsOf [adapted.tree]).filterMap (beginning? node)).foldl earlier none).map (·.2) := by
  have all : Tree.nodesOf [adapted.tree] = adapted.tree.nodes := List.append_nil _
  rw [contextsOf, all]
  rfl

theorem foldl_earlier {first : Nat × RuleTree} {others : List (Nat × RuleTree)}
    (least : ∀ entry ∈ others, first.1 ≤ entry.1) :
    others.foldl earlier (some first) = some first := by
  induction others with
  | nil => rfl
  | cons entry rest ih =>
      obtain ⟨here, behind⟩ := List.forall_mem_cons.mp least
      rw [List.foldl_cons, earlier, if_neg (Nat.not_lt.mpr here)]
      exact ih behind

/-- The first rule that is found is kept if no other begins before it. -/
theorem unitOf?_eq_some {adapted : Adapted} {first : Nat} {others : List (Nat × RuleTree)}
    (found : (contextsOf [adapted.tree]).filterMap (beginning? node) = (first, rule) :: others)
    (least : ∀ entry ∈ others, first ≤ entry.1) : adapted.unitOf? node = some rule := by
  rw [unitOf?_eq, found, List.foldl_cons, earlier, foldl_earlier least, Option.map_some]

section Unit

variable {stream : Stream} {parts : List SourceTree} {place : Nat}

/-- Within the range of a unit its own rule begins first. -/
theorem beginnings_of_unit (stream : Stream) (inner : UnitParts false parts)
    (legible : Legible parts) (carries : Lexeme.significant (Tree.leavesOf parts) ≠ [])
    (same : LocatedTree.range node =
      LocatedTree.range (locateAt place (.node .programUnit parts))) :
    let rule := ruleOf stream (locateAt place (.node .programUnit parts))
    ∃ first others, (contextsOf [rule]).filterMap (beginning? node) = (first, rule) :: others ∧
      ∀ entry ∈ others, first ≤ entry.1 := by
  intro rule
  obtain ⟨first, others, split, begins, start, later⟩ :=
    exists_contextsOf_ruleOf stream inner legible carries place
  have token : first ∈ (locateAt place (.node .programUnit parts)).tokens :=
    List.mem_of_head? begins
  have bounds := bounds_of_mem_leaves (.node .programUnit parts) legible
    (List.mem_filter.mp token).1
  have covers : (LocatedTree.range node).covers (stream.terminalOf first).range = true := by
    rw [same, Range.covers, Bool.and_eq_true, decide_eq_true_eq, decide_eq_true_eq]
    exact ⟨bounds.1, bounds.2.2⟩
  refine ⟨first.start, others.filterMap (beginning? node), ?_, fun entry mem => ?_⟩
  · rw [split, List.filterMap_cons_some (beginning?_of_covers start covers)]
    rfl
  · obtain ⟨other, among, found⟩ := List.mem_filterMap.mp mem
    obtain ⟨terminal, opens, -, place⟩ := exists_of_beginning? found
    obtain ⟨leaf, -, rfl, behind⟩ := later other among terminal opens
    rw [place]
    exact Nat.le_of_lt behind

/-- No rule of a unit begins within a node that lies before the unit or behind it. -/
theorem beginnings_of_other (inner : UnitParts false parts) (legible : Legible parts)
    (carries : Lexeme.significant (Tree.leavesOf parts) ≠ [])
    (apart : (LocatedTree.range node).stop ≤ place ∨
      place + (textOf parts).byteLength ≤ (LocatedTree.range node).start) :
    (contextsOf [ruleOf stream (locateAt place (.node .programUnit parts))]).filterMap
      (beginning? node) = [] := by
  obtain ⟨first, others, split, begins, start, later⟩ :=
    exists_contextsOf_ruleOf stream inner legible carries place
  have inside : ∀ rule ∈ contextsOf [ruleOf stream (locateAt place (.node .programUnit parts))],
      ∀ terminal ∈ RuleTree.start? rule,
        ∃ leaf ∈ (locateAt place (.node .programUnit parts)).leaves,
          terminal = stream.terminalOf leaf := by
    rw [split, List.forall_mem_cons]
    constructor
    · intro terminal opens
      rw [start, Option.mem_some] at opens
      exact ⟨first, (List.mem_filter.mp (List.mem_of_head? begins)).1, opens.symm⟩
    · intro rule mem terminal opens
      obtain ⟨leaf, among, same, -⟩ := later rule mem terminal opens
      exact ⟨leaf, among, same⟩
  refine List.filterMap_eq_nil_iff.mpr fun rule mem => Option.eq_none_iff_forall_ne_some.mpr ?_
  intro entry found
  obtain ⟨terminal, opens, covers, -⟩ := exists_of_beginning? found
  obtain ⟨leaf, among, rfl⟩ := inside rule mem terminal opens
  have bounds := bounds_of_mem_leaves (.node .programUnit parts) legible among
  have size : SourceTree.text (.node .programUnit parts) = textOf parts := rfl
  rw [size] at bounds
  rw [Range.covers, Bool.and_eq_true, decide_eq_true_eq, decide_eq_true_eq] at covers
  have from_ : (LocatedTree.range node).start ≤ leaf.start := covers.1
  have upTo : leaf.range.stop ≤ (LocatedTree.range node).stop := covers.2
  omega

end Unit

/-- No rule of any unit begins within a node that lies apart from all of them. -/
theorem beginnings_of_others (stream : Stream) (node : LocatedTree) {others : List LocatedTree}
    (placed : ∀ unit ∈ others, IsPlacedUnit unit)
    (apart : ∀ unit ∈ others, (LocatedTree.range node).stop ≤ (LocatedTree.range unit).start ∨
      (LocatedTree.range unit).stop ≤ (LocatedTree.range node).start) :
    (contextsOf (others.map (ruleOf stream))).filterMap (beginning? node) = [] := by
  induction others with
  | nil => rfl
  | cons unit rest ih =>
      rw [List.forall_mem_cons] at placed apart
      obtain ⟨⟨place, parts, rfl, inner, carries, legible⟩, later⟩ := placed
      have here : (contextsOf [ruleOf stream (locateAt place (.node .programUnit parts))]).filterMap
          (beginning? node) = [] := beginnings_of_other inner legible carries apart.1
      rw [List.map_cons, RuleTree.contextsOf_cons, List.filterMap_append, here,
        ih later apart.2]
      rfl

/-- A unit of a source unit is resolved to its own rule. -/
theorem unitOf?_ruleOf {adapted : Adapted} {stream : Stream} {children : List SourceTree}
    (units : Among IsUnit children) (legible : Legible children)
    (contexts : contextsOf [adapted.tree] = contextsOf (rootRules stream (locateAllAt 0 children)))
    {unit : LocatedTree} (mem : unit ∈ (locateAllAt 0 children).filter isUnit)
    (same : LocatedTree.range node = LocatedTree.range unit) :
    adapted.unitOf? node = some (ruleOf stream unit) := by
  have row := (pairwise_locateAllAt 0 children).filter isUnit
  have placed : ∀ other ∈ (locateAllAt 0 children).filter isUnit, IsPlacedUnit other :=
    fun other => units.placed legible
  rw [rootRules_eq_map units] at contexts
  obtain ⟨before, after, split⟩ := List.append_of_mem mem
  rw [split] at row placed contexts
  obtain ⟨-, behind, ahead⟩ := List.pairwise_append.mp row
  obtain ⟨early, here, late⟩ : (∀ other ∈ before, IsPlacedUnit other) ∧ IsPlacedUnit unit ∧
      ∀ other ∈ after, IsPlacedUnit other := by
    rwa [List.forall_mem_append, List.forall_mem_cons] at placed
  obtain ⟨place, parts, rfl, inner, carries, letters⟩ := here
  -- the units before and behind this one have no rule that begins within it
  have noneBefore := beginnings_of_others stream node early fun other among => by
    rw [same]
    exact .inr (ahead other among _ List.mem_cons_self)
  have noneBehind := beginnings_of_others stream node late fun other among => by
    rw [same]
    exact .inl ((List.pairwise_cons.mp behind).1 other among)
  obtain ⟨first, others, found, least⟩ :=
    beginnings_of_unit stream inner letters carries same
  refine unitOf?_eq_some ?_ least
  rw [contexts, List.map_append, List.map_cons, RuleTree.contextsOf_append, List.filterMap_append,
    noneBefore, RuleTree.contextsOf_cons, List.filterMap_append, found, noneBehind, List.append_nil]
  rfl

end Adapted

/-! ### Source units -/

namespace LocatedTree

/-- The node that stands for a unit in the rewritten tree. -/
def adaptedOf (unit : LocatedTree) : LocatedTree :=
  .node ⟨.adaptedNode, range unit⟩ [.leaf ⟨⟨.whitespace, unit.text.blank⟩, (range unit).start⟩]

theorem filter_isUnit_blankUnits (forest : List LocatedTree) :
    (blankUnits forest).filter isUnit = (forest.filter isUnit).map LocatedTree.blanked := by
  induction forest with
  | nil => rfl
  | cons tree rest ih =>
      cases is : isUnit tree with
      | true => rw [Conversion.blankUnits_cons_of_unit rest is, List.filter_cons_of_pos rfl, ih,
          List.filter_cons_of_pos is, List.map_cons]
      | false => rw [Conversion.blankUnits_cons_of_plain rest is,
          List.filter_cons_of_neg (by simp [is]), ih, List.filter_cons_of_neg (by simp [is])]

end LocatedTree

section Source

open RuleTree (contextsOf)
open LocatedTree (adaptedOf)

variable {adapted : Adapted} {stream : Stream} {leaves : List Leaf} {range : Range}
  {children : List SourceTree}

theorem contextsOf_startRule (rules : List RuleTree) :
    contextsOf [startRule stream leaves rules] = contextsOf rules := by
  simp [contextsOf, startRule, RuleTree.bounded, Tree.nodesOf, Tree.nodes, RuleTree.kind?,
    Tree.label?]

/-- The rules of the units that no other encloses are those of the units right below the root. -/
theorem programUnits_eq_map (units : Among IsUnit children)
    (tree : adapted.tree = startRule stream leaves (rootRules stream (locateAllAt 0 children))) :
    adapted.programUnits = ((locateAllAt 0 children).filter isUnit).map (ruleOf stream) := by
  rw [rootRules_eq_map units] at tree
  rw [Adapted.programUnits, tree]
  have root (rules : List RuleTree) : (RuleTree.rulesOf .compilationUnit
      (startRule stream leaves rules)).head? = some (RuleTree.bounded .compilationUnit rules) := rfl
  rw [root]
  simp only [RuleTree.rulesOf, RuleTree.bounded, Tree.childNodes, Tree.children, List.filter_filter]
  refine List.filter_eq_self.mpr ?_
  rw [List.forall_mem_map]
  exact fun unit _ => rfl

/-- Every unit right below the root is resolved to its own rule, in the order of the text. -/
theorem units_eq_map (units : Among IsUnit children) (legible : Legible children)
    (tree : adapted.tree = startRule stream leaves (rootRules stream (locateAllAt 0 children)))
    (source : adapted.source =
      .node ⟨.sourceUnit, range⟩ (LocatedTree.blankUnits (locateAllAt 0 children))) :
    adapted.units = ((locateAllAt 0 children).filter isUnit).map fun unit =>
      (adaptedOf unit, ruleOf stream unit) := by
  have contexts : contextsOf [adapted.tree] =
      contextsOf (rootRules stream (locateAllAt 0 children)) := by
    rw [tree, contextsOf_startRule]
  have blanked : adapted.source.childrenOf .programUnit =
      ((locateAllAt 0 children).filter isUnit).map LocatedTree.blanked := by
    rw [LocatedTree.childrenOf_programUnit, source]
    exact LocatedTree.filter_isUnit_blankUnits _
  have nodes : (adapted.source.childrenOf .programUnit).filterMap (fun unit =>
      (LocatedTree.childrenOf .adaptedNode unit).head?) =
        ((locateAllAt 0 children).filter isUnit).map adaptedOf := by
    rw [blanked, List.filterMap_map]
    exact List.filterMap_eq_map_iff_forall_eq_some.mpr fun unit _ => rfl
  have root : adapted.source.isNode = true ∧ LocatedTree.kind adapted.source = .sourceUnit := by
    rw [source]
    exact ⟨rfl, rfl⟩
  rw [Adapted.units, if_pos root]
  simp only [nodes, List.filterMap_map]
  refine List.filterMap_eq_map_iff_forall_eq_some.mpr fun unit mem => ?_
  have own : adapted.unitOf? (adaptedOf unit) = some (ruleOf stream unit) :=
    adapted.unitOf?_ruleOf units legible contexts mem rfl
  rw [Function.comp_apply, own, Option.map_some]

/-- The rules of all units, nested ones included, begin one behind another. -/
theorem exists_starts (units : Among IsUnit children) (legible : Legible children) :
    ∃ starts : List Terminal,
      (contextsOf (rootRules stream (locateAllAt 0 children))).map RuleTree.start? =
        starts.map some ∧
      starts.Pairwise fun earlier later => earlier.range.start < later.range.start := by
  have begins : ∀ rule ∈ contextsOf (rootRules stream (locateAllAt 0 children)),
      (RuleTree.start? rule).isSome = true := by
    intro rule mem
    obtain ⟨among, unit⟩ := List.mem_filter.mp mem
    refine @RuleTree.forall_of_unitForest (fun rule => (RuleTree.start? rule).isSome = true) _ _
      (unitForest_rootRules ?_ units legible 0) rule among (eq_of_beq unit)
    intro parts start inner _ carries
    beta_reduce
    rw [start?_unitRule stream inner, Option.isSome_map, List.isSome_head?]
    exact eq_true (@tokens_locateAt_ne_nil (.node .programUnit parts) carries start)
  have starts := starts_contextsOf
    (unitForest_rootRules (start?_tells stream) units legible 0)
  refine ⟨(LocatedTree.firstsOf (locateAllAt 0 children)).map stream.terminalOf, ?_, ?_⟩
  · rw [← starts, List.map_filterMap]
    refine (List.filterMap_eq_map_iff_forall_eq_some.mpr fun rule mem => ?_).symm
    obtain ⟨start, opens⟩ := Option.isSome_iff_exists.mp (begins rule mem)
    rw [opens, Option.map_some]
  · have spread := (units.spread_firstsOf legible 0).apart
    rw [List.pairwise_map] at spread ⊢
    exact spread

end Source

/-! ### Whole texts -/

/-- An analysis whose units are resolved: the units right below the root of the parsed tree have one
adapted node each, in order and at the same range, and each of these nodes stands for the rule of
its own unit. The rules of all units, nested ones included, begin at tokens of their own, so no
other rule begins where that of a unit does. -/
structure Analysis.Resolves (analysis : Analysis) : Prop where
  nodes : analysis.adapted.units.map (·.1) =
    (analysis.adapted.source.childrenOf .programUnit).flatMap
      (LocatedTree.childrenOf .adaptedNode ·)
  ranges : analysis.adapted.units.map (LocatedTree.range ·.1) =
    (analysis.parsed.tree.locate.childrenOf .programUnit).map LocatedTree.range
  rules : analysis.adapted.units.map (·.2) = analysis.adapted.programUnits
  begins : analysis.adapted.programUnits.map (fun rule => (RuleTree.start? rule).map (·.range)) =
    (analysis.parsed.tree.locate.childrenOf .programUnit).map fun unit =>
      unit.tokens.head?.map (·.range)
  apart : ∃ starts : List Terminal,
    (RuleTree.contextsOf [analysis.adapted.tree]).map RuleTree.start? = starts.map some ∧
      starts.Pairwise fun earlier later => earlier.range.start < later.range.start

namespace Analysis

theorem resolves_ofStream (settings : Settings) (stream : Stream) :
    ∃ analysis, ofStream settings stream = .ok analysis ∧ analysis.Resolves := by
  obtain ⟨children, parsed, units, legible, converted⟩ := ofStream_eq settings stream
  refine ⟨_, converted, ?_⟩
  have given : (Parsed.ofText settings stream.text).tree.locate.childrenOf .programUnit =
      (locateAllAt 0 children).filter isUnit := by
    rw [parsed, LocatedTree.childrenOf_programUnit]
    rfl
  constructor
  · rw [units_eq_map units legible rfl rfl, LocatedTree.childrenOf_programUnit, List.map_map]
    simp only [Tree.children]
    rw [LocatedTree.filter_isUnit_blankUnits, List.flatMap_map, List.map_eq_flatMap]
    rfl
  · rw [units_eq_map units legible rfl rfl, given, List.map_map]
    rfl
  · rw [units_eq_map units legible rfl rfl, programUnits_eq_map units rfl, List.map_map]
    rfl
  · rw [programUnits_eq_map units rfl, given, List.map_map]
    refine List.map_congr_left fun unit mem => ?_
    obtain ⟨place, parts, rfl, inner, -, -⟩ := units.placed legible mem
    rw [Function.comp_apply, ruleOf, start?_unitRule stream inner, Option.map_map]
    rfl
  · rw [contextsOf_startRule]
    exact exists_starts units legible

/-- In every analysed text, and in every expanded text, the adapted nodes are resolved to the rules
of their own units. -/
theorem resolves (settings : Settings) :
    (∀ text, ∃ analysis, ofText settings text = .ok analysis ∧ analysis.Resolves) ∧
      ∀ document, ∃ analysis, ofDocument settings document = .ok analysis ∧ analysis.Resolves :=
  ⟨fun text => resolves_ofStream settings (.ofText text),
    fun document => resolves_ofStream settings (.ofDocument document)⟩

end Analysis

end CobolTree
