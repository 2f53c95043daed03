import CobolTree.Analysis
import CobolTree.Proofs.Conversion.Failures
import CobolTree.Proofs.Lossless
import CobolTree.Proofs.Production.Conformance
import CobolTree.Proofs.Tree.Headed
import CobolTree.Proofs.Tree.Kinds
import CobolTree.Proofs.Tree.Legible
import CobolTree.Proofs.Tree.Subtrees

/-!
Parsed trees are converted, however malformed the text. The shape of a parsed tree puts units
right below units (`UnitParts.neat`), gives every construct that the conversion asks for a token
(`not_bare_of_isDivision`, `UnitParts.convertible`), and sets units apart: every unit begins behind
the beginning of the unit around it and behind the end of the unit before it, so no two of them take
the same range (`UnitParts.spread`). Then the conversion is the structural one, which cannot fail
(`Adapted.ofTree_locate`).
-/

namespace CobolTree

open Conversion

namespace SourceTree

open LocatedTree (unitRangesOf outerTokens isUnit Neat)

/-! ### Trees without units -/

/-- No unit stands in the tree, wherever it is located. -/
def Unitless (tree : SourceTree) : Prop := ∀ start, unitRangesOf [locateAt start tree] = []

theorem KindsIn.unitless {kinds : List Kind} {tree : SourceTree} (h : KindsIn kinds [tree])
    (other : .programUnit ∉ kinds) : Unitless tree := by
  intro start
  rw [unitRangesOf, List.map_eq_nil_iff, List.filter_eq_nil_iff]
  intro node mem isUnit
  have inside := h start node (by simpa [locateAllAt] using mem)
  simp only [LocatedTree.isUnit, Bool.and_eq_true, beq_iff_eq] at isUnit
  exact other (isUnit.2 ▸ inside)

theorem IsDivision.unitless {division : Division} {tree : SourceTree}
    (h : IsDivision division tree) : Unitless tree := by
  obtain ⟨children, rfl, below⟩ := h.kindsIn
  refine @KindsIn.unitless (division.kind :: bodyKinds) _ ?_ ?_
  · exact kindsIn_node List.mem_cons_self fun start node mem =>
      List.mem_cons_of_mem _ (below start node mem)
  · cases division <;> decide

/-! ### Parts with tokens -/

/-- A token of a tree is a token of the tree where it is located. -/
theorem tokens_locateAt_ne_nil {tree : SourceTree} (h : Lexeme.significant tree.leaves ≠ [])
    (start : Nat) : (locateAt start tree).tokens ≠ [] := by
  intro empty
  have same := significant_locateAllAt start [tree]
  simp only [locateAllAt, Tree.leavesOf, List.append_nil] at same
  rw [LocatedTree.tokens] at empty
  rw [← same, empty] at h
  exact h rfl

theorem significant_ne_nil_of_opensDivision {division : Division} {lexemes : List Lexeme}
    (h : OpensDivision division lexemes) : Lexeme.significant lexemes ≠ [] := by
  obtain ⟨name, word, rest, first, -⟩ := h
  simp [first]

theorem IsBlock.ownTokens_ne_nil {tree : SourceTree} (h : IsBlock tree) (start : Nat) :
    (locateAt start tree).ownTokens ≠ [] := by
  obtain ⟨kind, header, body, rfl, -, carries, -⟩ := h.exists_header
  exact ownTokens_headed_ne_nil header body _ start carries

end SourceTree

namespace Conversion

/-! ### Divisions -/

/-- The sections and paragraphs right below a PROCEDURE DIVISION have tokens of their own. -/
theorem ownTokens_of_isEntry {tree : SourceTree} (h : SourceTree.IsEntry .procedure tree)
    {place : Nat}
    (isBlock : LocatedTree.kind (SourceTree.locateAt place tree) = .procedureSection ∨
      LocatedTree.kind (SourceTree.locateAt place tree) = .procedureParagraph) :
    LocatedTree.ownTokens (SourceTree.locateAt place tree) ≠ [] := by
  rcases h with plain | block
  · cases plain with
    | of _ => rcases isBlock with other | other <;> cases other
  · exact block.ownTokens_ne_nil place

theorem kind_of_isDivision {division : Division} {tree : SourceTree}
    (h : SourceTree.IsDivision division tree) (start : Nat) :
    LocatedTree.kind (SourceTree.locateAt start tree) = division.kind := by
  cases h with
  | of _ _ => rfl

/-- Among the parts of a unit, a division is converted as what it is. -/
theorem plainPart_of_isDivision (stream : Stream) {division : Division} {tree : SourceTree}
    (h : SourceTree.IsDivision division tree) (start : Nat) :
    plainPart stream (SourceTree.locateAt start tree) =
      Conversion.division stream division (SourceTree.locateAt start tree) := by
  rw [plainPart, kind_of_isDivision h, Division.ofKind?_eq_some_iff.mpr rfl]

/-- A division lacks no tokens: it begins with those of its header. -/
theorem not_bare_of_isDivision {division : Division} {tree : SourceTree}
    (h : SourceTree.IsDivision division tree) (start : Nat) :
    ¬LocatedTree.Bare (SourceTree.locateAt start tree) := by
  have carries := SourceTree.significant_ne_nil_of_opensDivision h.opens
  intro bare
  cases h with
  | @of header body opens entries =>
      have own := SourceTree.ownTokens_headed_ne_nil header body
        ⟨division.kind, Range.ofText start (SourceTree.textOf (SourceTree.row header ++ body))⟩
        start (SourceTree.significant_ne_nil_of_opensDivision opens)
      cases bare with
      | division _ none => exact SourceTree.tokens_locateAt_ne_nil carries start none
      | header _ none => exact own none
      | block isProcedure mem isBlock none =>
          obtain rfl : division = .procedure := by
            cases division <;> first | rfl | cases isProcedure
          rw [SourceTree.locateAt, SourceTree.childNodes_headed] at mem
          obtain ⟨inside, isNode⟩ := List.mem_filter.mp mem
          obtain ⟨before, tree, after, rfl, rfl⟩ := SourceTree.exists_split_of_mem inside
          rcases entries tree (by simp) with ⟨lexeme, rfl, -⟩ | entry
          · cases isNode
          · exact ownTokens_of_isEntry entry isBlock none

theorem procedure_ok (stream : Stream) {tree : SourceTree}
    (h : SourceTree.IsDivision .procedure tree) (start : Nat) :
    ∃ result, procedure stream (SourceTree.locateAt start tree) = .ok result :=
  procedure_ok_of_full stream (kind_of_isDivision h start) (not_bare_of_isDivision h start)

end Conversion

/-! ### Units -/

namespace SourceTree

open LocatedTree (unitRangesOf outerTokens isUnit Neat)

/-- A part of a unit that is no unit itself: a division, or stray text. -/
inductive IsPlainPart : SourceTree → Prop where
  | stray {tree : SourceTree} : IsPlain .errorNode tree → IsPlainPart tree
  | division {division : Division} {tree : SourceTree} : IsDivision division tree → IsPlainPart tree

/-- What the conversion relies on at a part that is no unit. -/
structure PlainPartSpec (tree : SourceTree) : Prop where
  isNode : ∃ kind children, tree = .node kind children ∧ kind ≠ .programUnit
  unitless : Unitless tree
  carries : Lexeme.significant tree.leaves ≠ []
  converts : ∀ stream start, ∃ result, plainPart stream (locateAt start tree) = .ok result

theorem IsPlainPart.spec {tree : SourceTree} (h : IsPlainPart tree) : PlainPartSpec tree := by
  cases h with
  | stray plain =>
      refine ⟨?_, @KindsIn.unitless [.errorNode] _ (plain.kindsIn List.mem_cons_self) (by decide), ?_,
        fun stream start => ?_⟩
      · cases plain with
        | of _ => exact ⟨_, _, rfl, by decide⟩
      · cases plain with
        | of carries => simpa [Tree.leaves] using carries
      · cases plain with
        | of _ => exact ⟨_, rfl⟩
  | @division division tree conforms =>
      refine ⟨?_, conforms.unitless, significant_ne_nil_of_opensDivision conforms.opens,
        fun stream start => ?_⟩
      · cases conforms with
        | of _ _ => exact ⟨_, _, rfl, by cases division <;> decide⟩
      · exact plainPart_ok stream (not_bare_of_isDivision conforms start)

/-- Induction on the parts of a unit, part by part: a trailer is a row of leaves, and a division
and stray text are one case. -/
theorem UnitParts.induction {motive : Bool → List SourceTree → Prop}
    (nil : ∀ begun, motive begun [])
    (leaf : ∀ begun lexeme rest, motive begun rest → motive begun (.leaf lexeme :: rest))
    (plain : ∀ begun later kind children rest, kind ≠ .programUnit →
      IsPlainPart (.node kind children) → motive later rest →
        motive begun (.node kind children :: rest))
    (nested : ∀ parts rest, OpensDivision .identification (Tree.leavesOf parts) →
      UnitParts false parts → motive false parts → motive true rest →
        motive true (.node .programUnit parts :: rest))
    {begun : Bool} {parts : List SourceTree} (h : UnitParts begun parts) : motive begun parts := by
  induction h with
  | nil => exact nil _
  | @trailer begun lexemes conforms =>
      clear conforms
      induction lexemes with
      | nil => exact nil _
      | cons lexeme rest ih => exact leaf _ _ _ ih
  | trivia _ _ ih => exact leaf _ _ _ ih
  | stray conforms _ ih =>
      obtain ⟨kind, children, rfl, other⟩ := (IsPlainPart.stray conforms).spec.isNode
      exact plain _ _ _ _ _ other (.stray conforms) ih
  | division conforms _ ih =>
      obtain ⟨kind, children, rfl, other⟩ := (IsPlainPart.division conforms).spec.isNode
      exact plain _ _ _ _ _ other (.division conforms) ih
  | nested opens inner _ ihInner ihRest => exact nested _ _ opens inner ihInner ihRest

theorem unitRangesOf_children {kind : Kind} {children : List SourceTree}
    (other : kind ≠ .programUnit) (h : Unitless (.node kind children)) (start : Nat) :
    unitRangesOf (locateAllAt start children) = [] := by
  have none := h start
  rw [locateAt, unitRangesOf_plain _ _ other, List.append_eq_nil_iff] at none
  exact none.1

/-- Units stand right below units. -/
theorem UnitParts.neat {begun : Bool} {parts : List SourceTree} (h : UnitParts begun parts) :
    ∀ start, Neat (locateAllAt start parts) := by
  refine UnitParts.induction (motive := fun _ parts => ∀ start, Neat (locateAllAt start parts))
    ?nil ?leaf ?plain ?nested h
  case nil =>
    intro begun start
    simp [locateAllAt, Neat]
  case leaf =>
    intro begun lexeme rest ih start
    rw [locateAllAt, locateAt, Neat]
    exact ih _
  case plain =>
    intro begun later kind children rest other conforms ih start
    rw [locateAllAt, locateAt, Neat, if_neg other]
    exact ⟨unitRangesOf_children other conforms.spec.unitless start, ih _⟩
  case nested =>
    intro parts rest _ _ inner ih start
    rw [locateAllAt, locateAt, Neat, if_pos rfl]
    exact ⟨inner start, ih _⟩

theorem outerTokens_cons {tree : LocatedTree} (other : isUnit tree = false)
    (rest : List LocatedTree) :
    outerTokens (tree :: rest) = tree.leaves.filter (!·.isTrivia) ++ outerTokens rest := by
  simp [outerTokens, other, Tree.leavesOf]

/-- A unit that has not begun has its tokens before any unit nested in it. -/
theorem UnitParts.outerTokens_ne_nil {parts : List SourceTree} (h : UnitParts false parts)
    (carries : Lexeme.significant (Tree.leavesOf parts) ≠ []) (start : Nat) :
    outerTokens (locateAllAt start parts) ≠ [] := by
  refine UnitParts.induction
    (motive := fun begun parts => begun = false → Lexeme.significant (Tree.leavesOf parts) ≠ [] →
      ∀ start, outerTokens (locateAllAt start parts) ≠ [])
    ?nil ?leaf ?plain ?nested h rfl carries start
  case nil =>
    intro begun _ carries
    exact absurd rfl carries
  case leaf =>
    intro begun lexeme rest ih fresh carries start
    rw [locateAllAt, locateAt, outerTokens_cons rfl]
    cases trivial : lexeme.isTrivia with
    | true =>
        have behind := ih fresh (by
          simpa [Tree.leavesOf, Tree.leaves, Lexeme.significant, trivial] using carries)
        exact List.append_ne_nil_of_right_ne_nil _ (behind _)
    | false =>
        refine List.append_ne_nil_of_left_ne_nil ?_ _
        have here : (⟨lexeme, start⟩ : Leaf).isTrivia = false := trivial
        simp [Tree.leaves, here]
  case plain =>
    intro begun later kind children rest other conforms _ _ _ start
    have tokens := tokens_locateAt_ne_nil conforms.spec.carries start
    rw [locateAllAt, outerTokens_cons (by simp [locateAt, isUnit_node, other])]
    exact List.append_ne_nil_of_left_ne_nil tokens _
  case nested =>
    intro parts rest _ _ _ _ fresh
    cases fresh

/-- The parts of a unit that are no units are converted. -/
theorem UnitParts.plainPart_ok {begun : Bool} {parts : List SourceTree} (h : UnitParts begun parts)
    (stream : Stream) :
    ∀ start, ∀ node ∈ locateAllAt start parts, node.isNode = true → isUnit node = false →
      ∃ result, plainPart stream node = .ok result := by
  refine UnitParts.induction (motive := fun _ parts => ∀ start, ∀ node ∈ locateAllAt start parts,
    node.isNode = true → isUnit node = false → ∃ result, plainPart stream node = .ok result)
    ?nil ?leaf ?plain ?nested h
  case nil =>
    intro begun start node mem
    cases mem
  case leaf =>
    intro begun lexeme rest ih start node mem isNode other
    rcases List.mem_cons.mp mem with same | behind
    · rw [same] at isNode
      cases isNode
    · exact ih _ node behind isNode other
  case plain =>
    intro begun later kind children rest _ conforms ih start node mem isNode other
    rcases List.mem_cons.mp mem with same | behind
    · rw [same]
      exact conforms.spec.converts stream start
    · exact ih _ node behind isNode other
  case nested =>
    intro parts rest _ _ _ ih start node mem isNode other
    rcases List.mem_cons.mp mem with same | behind
    · rw [same] at other
      cases other
    · exact ih _ node behind isNode other

/-- Every unit among the parts of a unit can be converted. -/
theorem UnitParts.convertible {begun : Bool} {parts : List SourceTree} (h : UnitParts begun parts)
    (stream : Stream) : ∀ start, Convertible stream (locateAllAt start parts) := by
  refine UnitParts.induction
    (motive := fun _ parts => ∀ start, Convertible stream (locateAllAt start parts))
    ?nil ?leaf ?plain ?nested h
  case nil =>
    intro begun start
    simp [locateAllAt, Convertible]
  case leaf =>
    intro begun lexeme rest ih start
    rw [locateAllAt, locateAt, Convertible]
    exact ih _
  case plain =>
    intro begun later kind children rest other _ ih start
    rw [locateAllAt, locateAt, Convertible]
    exact ⟨fun unit => absurd unit other, ih _⟩
  case nested =>
    intro parts rest opens inner nested ih start
    have carries := significant_ne_nil_of_opensDivision opens
    rw [locateAllAt, locateAt, Convertible]
    exact ⟨fun _ => ⟨inner.outerTokens_ne_nil carries start, nested start,
      inner.plainPart_ok stream start⟩, ih _⟩

/-! ### Units apart -/

/-- Ranges that begin one behind another, all of them from `first` on and before `last`. -/
structure Spread (first last : Nat) (ranges : List Range) : Prop where
  within : ∀ range ∈ ranges, first ≤ range.start ∧ range.start < last
  apart : ranges.Pairwise fun earlier later => earlier.start < later.start

theorem spread_nil (first last : Nat) : Spread first last [] :=
  ⟨fun _ mem => (by cases mem), .nil⟩

theorem Spread.mono {first last first' last' : Nat} {ranges : List Range}
    (h : Spread first last ranges) (lower : first' ≤ first) (upper : last ≤ last') :
    Spread first' last' ranges := by
  refine ⟨fun range mem => ?_, h.apart⟩
  have := h.within range mem
  omega

theorem Spread.append {first middle last : Nat} {s t : List Range} (h : Spread first middle s)
    (k : Spread middle last t) (lower : first ≤ middle) (upper : middle ≤ last) :
    Spread first last (s ++ t) := by
  refine ⟨fun range mem => ?_, List.pairwise_append.mpr ⟨h.apart, k.apart, ?_⟩⟩
  · rcases List.mem_append.mp mem with inside | inside
    · have := h.within range inside
      omega
    · have := k.within range inside
      omega
  · intro earlier before later behind
    have := h.within earlier before
    have := k.within later behind
    omega

theorem Spread.cons {first last : Nat} {range : Range} {ranges : List Range}
    (begins : range.start = first) (h : Spread (first + 1) last ranges) (room : first < last) :
    Spread first last (range :: ranges) := by
  refine ⟨fun other mem => ?_, List.pairwise_cons.mpr ⟨fun other mem => ?_, h.apart⟩⟩
  · rcases List.mem_cons.mp mem with same | inside
    · rw [same]
      omega
    · have := h.within other inside
      omega
  · have := h.within other mem
    omega

theorem Spread.nodup {first last : Nat} {ranges : List Range} (h : Spread first last ranges) :
    ranges.Nodup := by
  refine List.Pairwise.imp ?_ h.apart
  intro earlier later apart same
  rw [same] at apart
  omega

/-- A unit begins where it stands, the units nested in it begin behind its first character, and
those behind it begin behind its text. -/
theorem spread_unit {parts rest : List SourceTree} {start : Nat}
    (room : 0 < (textOf parts).byteLength)
    (inner : Spread (start + 1) (start + (textOf parts).byteLength)
      (unitRangesOf (locateAllAt start parts)))
    (behind : Spread (start + (textOf parts).byteLength)
      (start + (textOf parts).byteLength + (textOf rest).byteLength)
      (unitRangesOf (locateAllAt (start + (textOf parts).byteLength) rest))) :
    Spread start (start + (textOf (.node .programUnit parts :: rest)).byteLength)
      (unitRangesOf (locateAllAt start (.node .programUnit parts :: rest))) := by
  have size : text (.node .programUnit parts) = textOf parts := rfl
  rw [locateAllAt, locateAt, unitRangesOf_unit _ _ rfl, textOf_cons, Text.byteLength_append, size,
    ← Nat.add_assoc]
  exact .cons rfl (inner.append behind (by omega) (by omega)) (by omega)

/-- The units among the parts of a unit begin one behind another; where no division has been
read, they begin behind the first character. -/
theorem UnitParts.spread {begun : Bool} {parts : List SourceTree} (h : UnitParts begun parts) :
    Legible parts → ∀ start, Spread (if begun then start else start + 1)
      (start + (textOf parts).byteLength) (unitRangesOf (locateAllAt start parts)) := by
  refine UnitParts.induction (motive := fun begun parts => Legible parts → ∀ start,
    Spread (if begun then start else start + 1) (start + (textOf parts).byteLength)
      (unitRangesOf (locateAllAt start parts))) ?nil ?leaf ?plain ?nested h
  case nil =>
    intro begun _ start
    exact spread_nil _ _
  case leaf =>
    intro begun lexeme rest ih legible start
    have behind := ih (legible_cons.mp legible).2 (start + (text (.leaf lexeme)).byteLength)
    rw [locateAllAt, unitRangesOf_cons, locateAt, unitRangesOf_leaf, textOf_cons,
      Text.byteLength_append]
    refine behind.mono ?_ (by omega)
    split <;> omega
  case plain =>
    intro begun later kind children rest other conforms ih legible start
    obtain ⟨here, others⟩ := legible_cons.mp legible
    have room := room_of_legible here conforms.spec.carries
    have behind := ih others (start + (text (.node kind children)).byteLength)
    rw [locateAllAt, unitRangesOf_cons, conforms.spec.unitless, List.nil_append, textOf_cons,
      Text.byteLength_append]
    refine behind.mono ?_ (by omega)
    split <;> split <;> omega
  case nested =>
    intro parts rest opens _ inner ih legible start
    obtain ⟨here, others⟩ := legible_cons.mp legible
    have room := room_of_legible here (significant_ne_nil_of_opensDivision opens)
    exact spread_unit room (inner here start) (ih others _)

/-! ### Source units -/

/-- What the conversion relies on at the root of a source unit. -/
theorem Among.convertible {children : List SourceTree} (h : Among IsUnit children)
    (stream : Stream) (start : Nat) :
    Neat (locateAllAt start children) ∧ Convertible stream (locateAllAt start children) := by
  induction children generalizing start with
  | nil => simp [locateAllAt, Neat, Convertible]
  | cons tree rest ih =>
      obtain ⟨first, later⟩ := among_cons.mp h
      have others := ih later
      rw [locateAllAt]
      rcases first with ⟨lexeme, rfl, -⟩ | unit
      · rw [locateAt, Neat, Convertible]
        exact others _
      · cases unit with
        | of inner carries =>
            rw [locateAt, Neat, Convertible, if_pos rfl]
            exact ⟨⟨inner.neat start, (others _).1⟩,
              fun _ => ⟨inner.outerTokens_ne_nil carries start, inner.convertible stream start,
                inner.plainPart_ok stream start⟩, (others _).2⟩

/-- The units of a source unit begin one behind another. -/
theorem Among.spread {children : List SourceTree} (h : Among IsUnit children)
    (legible : Legible children) (start : Nat) :
    Spread start (start + (textOf children).byteLength)
      (unitRangesOf (locateAllAt start children)) := by
  induction children generalizing start with
  | nil => exact spread_nil _ _
  | cons tree rest ih =>
      obtain ⟨here, behind⟩ := legible_cons.mp legible
      obtain ⟨first, later⟩ := among_cons.mp h
      have others := ih later behind
      rcases first with ⟨lexeme, rfl, -⟩ | unit
      · have behind := others (start + (text (.leaf lexeme)).byteLength)
        rw [locateAllAt, unitRangesOf_cons, locateAt, unitRangesOf_leaf, textOf_cons,
          Text.byteLength_append]
        exact behind.mono (by omega) (by omega)
      · cases unit with
        | of inner carries =>
            exact spread_unit (room_of_legible here carries) (inner.spread here start) (others _)

end SourceTree

/-! ### Parsed trees -/

namespace Adapted

open Conversion SourceTree LocatedTree in
/-- The tree of a source unit, located at the beginning of the text, is converted by structure. -/
theorem ofTree_locate (stream : Stream) {children : List SourceTree}
    (conforms : Among IsUnit children) (legible : Legible children) :
    Adapted.ofTree stream (SourceTree.locate (.node .sourceUnit children)) =
      .ok ⟨startRule stream (LocatedTree.tokens (SourceTree.locate (.node .sourceUnit children)))
          (rootRules stream (locateAllAt 0 children)),
        .node ⟨.sourceUnit, Range.ofText 0 (SourceTree.textOf children)⟩
          (blankUnits (locateAllAt 0 children)),
        unitReports stream (locateAllAt 0 children)⟩ := by
  obtain ⟨neat, convertible⟩ := conforms.convertible stream 0
  exact ofTree_eq stream (by simp) neat convertible (conforms.spread legible 0).nodup

end Adapted

namespace Parsed

/-- The leaves of a parsed tree are tokens as they are read. -/
theorem legible_ofText (settings : Settings) (text : Text) :
    ∀ lexeme ∈ (ofText settings text).tree.leaves, lexeme.Legible := by
  rw [leaves_ofText]
  obtain ⟨last, -, reads⟩ := reads_ofText settings text
  exact reads.legible

end Parsed

namespace Analysis

open Conversion SourceTree LocatedTree in
/-- What an analysis is: the parse, and the conversion of its tree by structure. -/
theorem ofStream_eq (settings : Settings) (stream : Stream) :
    ∃ children, (Parsed.ofText settings stream.text).tree = .node .sourceUnit children ∧
      SourceTree.Among IsUnit children ∧ Legible children ∧
      ofStream settings stream = .ok ⟨Parsed.ofText settings stream.text,
        ⟨startRule stream (LocatedTree.tokens (SourceTree.locate (.node .sourceUnit children)))
            (rootRules stream (locateAllAt 0 children)),
          .node ⟨.sourceUnit, Range.ofText 0 (SourceTree.textOf children)⟩
            (blankUnits (locateAllAt 0 children)),
          unitReports stream (locateAllAt 0 children)⟩⟩ := by
  have conforms := Production.among_programUnits settings (Cursor.start stream.text)
  have legible := Parsed.legible_ofText settings stream.text
  have converted := Adapted.ofTree_locate stream conforms legible
  refine ⟨_, rfl, conforms, legible, ?_⟩
  rw [ofStream]
  simp only [Parsed.ofText, converted, bind, Except.bind, pure, Except.pure]

/-- Every text and every expanded text is analysed, however malformed: no conversion of a parsed
tree fails. -/
theorem ofText_ok_and_ofDocument_ok (settings : Settings) :
    (∀ text, ∃ analysis, ofText settings text = .ok analysis) ∧
      ∀ document, ∃ analysis, ofDocument settings document = .ok analysis := by
  constructor
  · intro text
    obtain ⟨children, -, -, -, converted⟩ := ofStream_eq settings (.ofText text)
    exact ⟨_, converted⟩
  · intro document
    obtain ⟨children, -, -, -, converted⟩ := ofStream_eq settings (.ofDocument document)
    exact ⟨_, converted⟩

end Analysis

end CobolTree
