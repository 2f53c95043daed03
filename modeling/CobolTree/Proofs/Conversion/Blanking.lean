import CobolTree.Proofs.Conversion.Total
import CobolTree.Proofs.Source.Slices

/-!
What a conversion does to the source tree. Units are blanked byte for byte, so the rewritten tree
is that of a text of its own: the given text with every unit in it blank (`locateAllAt_blankUnits`).
The two texts take the same bytes and are the same outside of the units
(`slice?_textOf_blankUnits`), and each unit is the blank of what it was (`exists_slices_of_unit`).
The main statement puts this together for analysed texts (`Analysis.blanksUnits`).
-/

namespace CobolTree

open Conversion
open LocatedTree (isUnit)

namespace SourceTree

/-- A unit with nothing in it but the blanks of a text. -/
def blankUnit (text : Text) : SourceTree :=
  .node .programUnit [.node .adaptedNode [.leaf ⟨.whitespace, text.blank⟩]]

/-- The tree, blanked if it is a unit. -/
def unitBlanked : SourceTree → SourceTree
  | .leaf lexeme => .leaf lexeme
  | .node kind children =>
      if kind = .programUnit then blankUnit (textOf children) else .node kind children

/-- The forest with its units blanked. -/
def blankUnits (forest : List SourceTree) : List SourceTree := forest.map unitBlanked

theorem text_blankUnit (letters : Text) : text (blankUnit letters) = letters.blank := by
  simp [blankUnit, text, Tree.leaves, Tree.leavesOf]

theorem unitBlanked_unit (children : List SourceTree) :
    unitBlanked (.node .programUnit children) = blankUnit (textOf children) := rfl

theorem byteLength_text_unitBlanked (tree : SourceTree) :
    (text (unitBlanked tree)).byteLength = (text tree).byteLength := by
  cases tree with
  | leaf lexeme => rfl
  | node kind children =>
      rw [unitBlanked]
      split
      · rw [text_blankUnit, Text.byteLength_blank]
        rfl
      · rfl

theorem byteLength_textOf_blankUnits (forest : List SourceTree) :
    (textOf (blankUnits forest)).byteLength = (textOf forest).byteLength := by
  induction forest with
  | nil => rfl
  | cons tree rest ih =>
      rw [blankUnits, List.map_cons, ← blankUnits, textOf_cons, textOf_cons, Text.byteLength_append,
        Text.byteLength_append, byteLength_text_unitBlanked, ih]

/-- A blanked unit takes the bytes that it took. -/
theorem blanked_locateAt (start : Nat) (children : List SourceTree) :
    (locateAt start (.node .programUnit children)).blanked =
      locateAt start (blankUnit (textOf children)) := by
  have inner : LocatedTree.text (locateAt start (.node .programUnit children)) =
      textOf children := text_locateAt start _
  have unit : Range.ofText start (textOf [.node .adaptedNode
      [.leaf ⟨.whitespace, (textOf children).blank⟩]]) = Range.ofText start (textOf children) := by
    simp [Range.ofText, textOf, Tree.leavesOf, Tree.leaves]
  have blanks : Range.ofText start (textOf [.leaf ⟨.whitespace, (textOf children).blank⟩]) =
      Range.ofText start (textOf children) := by
    simp [Range.ofText, textOf, Tree.leavesOf, Tree.leaves]
  rw [LocatedTree.blanked, inner]
  simp only [blankUnit, locateAt, locateAllAt, unit, blanks]
  rfl

/-- Blanking the units of a located forest is locating the forest with its units blanked. -/
theorem locateAllAt_blankUnits (forest : List SourceTree) (start : Nat) :
    LocatedTree.blankUnits (locateAllAt start forest) = locateAllAt start (blankUnits forest) := by
  induction forest generalizing start with
  | nil => rfl
  | cons tree rest ih =>
      rw [blankUnits, List.map_cons, ← blankUnits, locateAllAt, locateAllAt,
        byteLength_text_unitBlanked, ← ih]
      cases tree with
      | leaf lexeme => exact blankUnits_leaf _ _
      | node kind children =>
          by_cases unit : kind = .programUnit
          · subst unit
            rw [unitBlanked_unit, ← blanked_locateAt]
            exact blankUnits_unit _ _ rfl
          · rw [unitBlanked, if_neg unit]
            exact blankUnits_plain _ _ unit

/-! ### The two texts -/

/-- Outside of its units a text stays what it is. -/
theorem slice?_textOf_blankUnits (forest : List SourceTree) (place start stop : Nat)
    (outside : ∀ unit ∈ locateAllAt place forest, isUnit unit = true →
      place + stop ≤ (LocatedTree.range unit).start ∨
        (LocatedTree.range unit).stop ≤ place + start) :
    (textOf (blankUnits forest)).slice? start stop = (textOf forest).slice? start stop := by
  induction forest generalizing place start stop with
  | nil => rfl
  | cons tree rest ih =>
      obtain ⟨here, others⟩ := List.forall_mem_cons.mp outside
      by_cases none : stop = 0
      · rw [none, Text.slice?_zero, Text.slice?_zero]
      · rw [blankUnits, List.map_cons, ← blankUnits, textOf_cons, textOf_cons]
        refine Text.slice?_append_congr (byteLength_text_unitBlanked tree) ?_ fun behind => ?_
        · cases tree with
          | leaf lexeme => exact .inl rfl
          | node kind children =>
              by_cases unit : kind = .programUnit
              · subst unit
                have apart := here rfl
                simp only [locateAt, LocatedTree.range, Range.ofText] at apart
                refine .inr ?_
                rw [show text (.node .programUnit children) = textOf children from rfl]
                omega
              · exact .inl (by rw [unitBlanked, if_neg unit])
        · refine ih (place + (text tree).byteLength) _ _ fun unit mem isUnit => ?_
          have apart := others unit mem isUnit
          obtain ⟨before, other, after, -, rfl⟩ := exists_split_of_mem mem
          rw [start_locateAt] at apart ⊢
          omega

/-- The text around a unit and that of the unit, before and after its units are blanked. -/
theorem exists_texts_of_unit {forest : List SourceTree} {unit : LocatedTree}
    (mem : unit ∈ locateAllAt 0 forest) (is : isUnit unit = true) :
    ∃ before slice after before' after', textOf forest = before ++ (slice ++ after) ∧
      textOf (blankUnits forest) = before' ++ (slice.blank ++ after') ∧
        before'.byteLength = before.byteLength ∧
          LocatedTree.range unit = Range.ofText before.byteLength slice := by
  obtain ⟨before, tree, after, rfl, rfl⟩ := exists_split_of_mem mem
  cases tree with
  | leaf lexeme => cases is
  | node kind children =>
      obtain rfl : kind = .programUnit := by
        rw [locateAt, isUnit_node] at is
        exact eq_of_beq is
      refine ⟨textOf before, textOf children, textOf after, textOf (blankUnits before),
        textOf (blankUnits after), ?_, ?_, byteLength_textOf_blankUnits before, ?_⟩
      · rw [textOf_append, textOf_cons]
        rfl
      · rw [blankUnits, List.map_append, List.map_cons, unitBlanked_unit, textOf_append,
          textOf_cons, text_blankUnit]
        rfl
      · rw [locateAt, LocatedTree.range, Nat.zero_add]

/-- A unit is the blank of what it was, wherever it stands. -/
theorem exists_slices_of_unit {forest : List SourceTree} {unit : LocatedTree}
    (mem : unit ∈ locateAllAt 0 forest) (is : isUnit unit = true) :
    ∃ slice, (textOf forest).slice? (LocatedTree.range unit).start (LocatedTree.range unit).stop =
        some slice ∧
      (textOf (blankUnits forest)).slice? (LocatedTree.range unit).start
        (LocatedTree.range unit).stop = some slice.blank := by
  obtain ⟨before, slice, after, before', after', given, new, size, range⟩ :=
    exists_texts_of_unit mem is
  have second := Text.slice?_append before' slice.blank after'
  rw [size, Text.byteLength_blank, ← new] at second
  rw [range, given]
  exact ⟨slice, Text.slice?_append before slice after, second⟩

/-- A character of a unit becomes as many spaces as it has bytes, and a line feed stays. -/
theorem slice?_letter_of_unit {forest : List SourceTree} {unit : LocatedTree}
    (mem : unit ∈ locateAllAt 0 forest) (is : isUnit unit = true) {place : Nat} {c : Char}
    (first : (LocatedTree.range unit).start ≤ place)
    (last : place + c.utf8Size ≤ (LocatedTree.range unit).stop)
    (letter : (textOf forest).slice? place (place + c.utf8Size) = some [c]) :
    (textOf (blankUnits forest)).slice? place (place + c.utf8Size) =
      some (if c = '\n' then ['\n'] else List.replicate c.utf8Size ' ') := by
  obtain ⟨before, slice, after, before', after', given, new, size, range⟩ :=
    exists_texts_of_unit mem is
  rw [range, Range.ofText] at first last
  rw [given, Text.slice?_append_middle _ _ _ first last (Nat.le_add_right _ _)] at letter
  have blank := Text.slice?_blank letter
  rw [← size] at first last blank
  rw [← Text.byteLength_blank slice] at last
  rw [new, Text.slice?_append_middle _ _ _ first last (Nat.le_add_right _ _), blank]
  simp [Text.blank]

/-! ### The rewritten tree -/

/-- Every unit of a rewritten forest stands right in it, with blanks alone below it. -/
theorem Among.exists_adapted {children : List SourceTree} (h : Among IsUnit children)
    (start : Nat) :
    (Tree.nodesOf (locateAllAt start (blankUnits children))).filter isUnit =
        (locateAllAt start (blankUnits children)).filter isUnit ∧
      ∀ unit ∈ locateAllAt start (blankUnits children), isUnit unit = true →
        ∃ blanks, blanks.kind = .whitespace ∧
          unit.children = [.node ⟨.adaptedNode, LocatedTree.range unit⟩ [.leaf blanks]] := by
  induction children generalizing start with
  | nil => exact ⟨rfl, fun unit mem => by cases mem⟩
  | cons tree rest ih =>
      obtain ⟨first, later⟩ := among_cons.mp h
      rw [blankUnits, List.map_cons, ← blankUnits, locateAllAt, Tree.nodesOf, List.filter_append]
      obtain ⟨topmost, adapted⟩ := ih later (start + (text (unitBlanked tree)).byteLength)
      rcases first with ⟨lexeme, rfl, -⟩ | unit
      · refine ⟨?_, List.forall_mem_cons.mpr ⟨fun is => ?_, adapted⟩⟩
        · exact topmost
        · cases is
      · cases unit with
        | @of parts _ _ =>
            rw [unitBlanked_unit]
            rw [unitBlanked_unit] at topmost adapted
            refine ⟨?_, List.forall_mem_cons.mpr ⟨fun _ => ?_, adapted⟩⟩
            · rw [topmost, blankUnit, locateAt, List.filter_cons_of_pos rfl]
              rfl
            · exact ⟨⟨⟨.whitespace, (textOf parts).blank⟩, start⟩, rfl, rfl⟩

end SourceTree

namespace LocatedTree

/-- What a part is, and the bytes it takes. -/
def extent (tree : LocatedTree) : Extent := ⟨kind tree, range tree⟩

theorem map_extent_blankUnits (forest : List LocatedTree) :
    (blankUnits forest).map extent = forest.map extent := by
  rw [blankUnits, List.map_map]
  refine List.map_congr_left fun tree _ => ?_
  rw [Function.comp_apply]
  split
  · rename_i unit
    rw [isUnit, Bool.and_eq_true, beq_iff_eq] at unit
    rw [extent, extent, unit.2]
    rfl
  · rfl

theorem childrenOf_programUnit (tree : LocatedTree) :
    tree.childrenOf .programUnit = tree.children.filter isUnit := by
  rw [childrenOf, Tree.childNodes, List.filter_filter]
  refine List.filter_congr fun child _ => ?_
  rw [isUnit, Bool.and_comm]

end LocatedTree

/-! ### Whole texts -/

/-- A tree over a text with its units blanked: nothing is moved, nothing outside of the units is
changed, and a unit has nothing below it but the blanks of its text. -/
structure LocatedTree.BlanksUnits (text : Text) (given rewritten : LocatedTree) : Prop where
  given_text : LocatedTree.text given = text
  root : LocatedTree.extent rewritten = LocatedTree.extent given
  outline : rewritten.children.map LocatedTree.extent = given.children.map LocatedTree.extent
  byteLength : (LocatedTree.text rewritten).byteLength = text.byteLength
  outside : ∀ start stop, (∀ unit ∈ given.childrenOf .programUnit,
    stop ≤ (LocatedTree.range unit).start ∨ (LocatedTree.range unit).stop ≤ start) →
      (LocatedTree.text rewritten).slice? start stop = text.slice? start stop
  within : ∀ unit ∈ given.childrenOf .programUnit, ∃ slice,
    text.slice? (LocatedTree.range unit).start (LocatedTree.range unit).stop = some slice ∧
      (LocatedTree.text rewritten).slice? (LocatedTree.range unit).start
        (LocatedTree.range unit).stop = some slice.blank
  letters : ∀ unit ∈ given.childrenOf .programUnit, ∀ place c,
    (LocatedTree.range unit).start ≤ place → place + c.utf8Size ≤ (LocatedTree.range unit).stop →
      text.slice? place (place + c.utf8Size) = some [c] →
        (LocatedTree.text rewritten).slice? place (place + c.utf8Size) =
          some (if c = '\n' then ['\n'] else List.replicate c.utf8Size ' ')
  topmost : rewritten.nodes.filter isUnit = rewritten.childrenOf .programUnit
  adapted : ∀ unit ∈ rewritten.nodes, isUnit unit = true → ∃ blanks, blanks.kind = .whitespace ∧
    unit.children = [.node ⟨.adaptedNode, LocatedTree.range unit⟩ [.leaf blanks]]
  placed : SourceTree.locate rewritten.forget = rewritten

namespace SourceTree

/-- A source unit with its units blanked. -/
theorem Among.blanksUnits_locate {children : List SourceTree} (h : Among IsUnit children) :
    LocatedTree.BlanksUnits (textOf children) (locate (.node .sourceUnit children))
      (locate (.node .sourceUnit (blankUnits children))) := by
  have text : LocatedTree.text (locate (.node .sourceUnit (blankUnits children))) =
      textOf (blankUnits children) := text_locateAt 0 _
  have size := byteLength_textOf_blankUnits children
  have units := LocatedTree.childrenOf_programUnit (locate (.node .sourceUnit children))
  obtain ⟨topmost, adapted⟩ := h.exists_adapted 0
  constructor
  · exact text_locateAt 0 _
  · simp only [locate, locateAt, LocatedTree.extent, LocatedTree.kind, LocatedTree.range,
      Range.ofText, size]
  · have same := LocatedTree.map_extent_blankUnits (locateAllAt 0 children)
    rwa [locateAllAt_blankUnits] at same
  · rw [text, size]
  · intro start stop outside
    rw [text]
    refine slice?_textOf_blankUnits children 0 start stop fun unit mem is => ?_
    rw [Nat.zero_add, Nat.zero_add]
    refine outside unit ?_
    rw [units]
    exact List.mem_filter.mpr ⟨mem, is⟩
  · intro unit mem
    rw [units] at mem
    obtain ⟨inside, is⟩ := List.mem_filter.mp mem
    rw [text]
    exact exists_slices_of_unit inside is
  · intro unit mem place c first last letter
    rw [units] at mem
    obtain ⟨inside, is⟩ := List.mem_filter.mp mem
    rw [text]
    exact slice?_letter_of_unit inside is first last letter
  · rw [LocatedTree.childrenOf_programUnit]
    exact topmost
  · intro unit mem is
    have inside : unit ∈ (locateAllAt 0 (blankUnits children)).filter isUnit := by
      rw [← topmost]
      refine List.mem_filter.mpr ⟨?_, is⟩
      rcases List.mem_cons.mp mem with rfl | below
      · cases is
      · exact below
    exact adapted unit (List.mem_filter.mp inside).1 is
  · rw [locate, locate, forget_locateAt]

end SourceTree

namespace Analysis

theorem blanksUnits_ofStream (settings : Settings) (stream : Stream) :
    ∃ analysis, ofStream settings stream = .ok analysis ∧
      LocatedTree.BlanksUnits stream.text analysis.parsed.tree.locate analysis.adapted.source := by
  obtain ⟨children, parsed, units, -, converted⟩ := ofStream_eq settings stream
  refine ⟨_, converted, ?_⟩
  have text := Parsed.textOf_children parsed
  have range : Range.ofText 0 (SourceTree.textOf children) =
      Range.ofText 0 (SourceTree.textOf (SourceTree.blankUnits children)) := by
    rw [Range.ofText, Range.ofText, SourceTree.byteLength_textOf_blankUnits]
  rw [parsed, range, SourceTree.locateAllAt_blankUnits, ← text]
  exact units.blanksUnits_locate

/-- The tree of every analysed text, and of every expanded text, is rewritten with its units
blanked and with nothing else changed; the parsed tree keeps the text. -/
theorem blanksUnits (settings : Settings) :
    (∀ text, ∃ analysis, ofText settings text = .ok analysis ∧
      LocatedTree.BlanksUnits text analysis.parsed.tree.locate analysis.adapted.source) ∧
    ∀ document, ∃ analysis, ofDocument settings document = .ok analysis ∧
      LocatedTree.BlanksUnits document.source.text analysis.parsed.tree.locate
        analysis.adapted.source :=
  ⟨fun text => blanksUnits_ofStream settings (.ofText text),
    fun document => blanksUnits_ofStream settings (.ofDocument document)⟩

end Analysis

end CobolTree
