import CobolTree.Proofs.Conversion.Capitals
import CobolTree.Proofs.Conversion.Total
import CobolTree.Proofs.Mirror.ProgramUnit

/-!
The case of letters makes no difference. A text and the same text in capitals are analysed alike
(`Analysis.ofText_upper`): their source trees have the same nodes and tokens at the same places, the
problems found in them differ in the words of messages at most, and their divisions become the same
rules or are refused for the same reasons. The parser is a mirror of itself in capitals
(`Placement.mirrors_programUnits`), and so is every step of the conversion.
-/

namespace CobolTree

/-! ### A parse in capitals -/

/-- The tree with its lexemes in capitals. -/
def SourceTree.upper (tree : SourceTree) : SourceTree := tree.map id Lexeme.upper

/-- The token in capitals, of the same kind and at the same position. -/
def Token.upper (token : Token) : Token := { token with text := token.text.upper }

/-- The diagnostic without the words of its message and its hint. -/
def Diagnostic.wordless (diagnostic : Diagnostic) : Diagnostic :=
  { diagnostic with message := "", hint := diagnostic.hint.map fun _ => "" }

namespace SourceTree

theorem textOf_map_upper (forest : List SourceTree) :
    textOf (forest.map upper) = (textOf forest).upper := by
  have leaves : Tree.leavesOf (forest.map upper) = (Tree.leavesOf forest).map Lexeme.upper :=
    Tree.leavesOf_map id Lexeme.upper forest
  rw [textOf, leaves, List.flatMap_map, textOf, Text.upper_flatMap]
  rfl

theorem upper_node (kind : Kind) (children : List SourceTree) :
    upper (.node kind children) = .node kind (children.map upper) := by
  rw [upper, Tree.map, Tree.mapAll_eq_map]
  rfl

theorem byteLength_text_upper (tree : SourceTree) :
    (text tree.upper).byteLength = (text tree).byteLength := by
  have same : text tree.upper = (text tree).upper := by
    rw [text, upper, Tree.leaves_map, List.flatMap_map, text, Text.upper_flatMap]
    rfl
  rw [same, Text.byteLength_upper]

/-- Letters in either case take the same bytes, so every part of a tree stays where it is. -/
theorem locateAllAt_upper (start : Nat) (forest : List SourceTree) :
    locateAllAt start (forest.map upper) = (locateAllAt start forest).map LocatedTree.upper := by
  induction forest using Tree.forest_induction generalizing start with
  | nil => rfl
  | leaf lexeme rest ih =>
      have size : (text (upper (.leaf lexeme))).byteLength = (text (.leaf lexeme)).byteLength :=
        byteLength_text_upper (.leaf lexeme)
      rw [List.map_cons, locateAllAt, locateAllAt, List.map_cons, size, ih]
      rfl
  | node kind children rest below behind =>
      have size := byteLength_text_upper (.node kind children)
      rw [List.map_cons, locateAllAt, locateAllAt, List.map_cons, size, behind, upper_node,
        locateAt, locateAt, below, textOf_map_upper, Range.ofText, Text.byteLength_upper,
        LocatedTree.upper_node]
      rfl

theorem locate_upper (tree : SourceTree) : tree.upper.locate = tree.locate.upper :=
  (List.cons.inj (locateAllAt_upper 0 [tree])).1

end SourceTree

namespace Placement

/-- A text in capitals, with nothing before it or behind it. -/
def capitals : Placement := ⟨.capitals, 0, 0, []⟩

theorem Tells.wordless_eq {diagnostic whole : Diagnostic} (h : capitals.Tells diagnostic whole) :
    whole.wordless = diagnostic.wordless := by
  obtain ⟨problem, range, position, severity, rfl, rfl⟩ := h
  cases problem with
  | _ => rfl

end Placement

namespace Parsed

open Production

/-- How many diagnostics are kept depends on their number alone. -/
theorem map_keep {α : Type} (f : Diagnostic → α) (most : Option Nat) (final : Position)
    {reports others : List Diagnostic} (same : others.map f = reports.map f) :
    (keep most final others).map f = (keep most final reports).map f := by
  have length : others.length = reports.length := by simpa using congrArg List.length same
  cases most with
  | none => exact same
  | some most =>
      rw [keep, keep, length]
      split
      · exact same
      · rw [List.map_append, List.map_append, List.map_take, List.map_take, same]

/-- The parse of a text in capitals is that of the text, in capitals. -/
theorem parse_upper (settings : Settings) (text : Text) :
    (ofText settings text.upper).tree = (ofText settings text).tree.upper ∧
      (ofText settings text.upper).tokens = (ofText settings text).tokens.map Token.upper ∧
        (ofText settings text.upper).diagnostics.map Diagnostic.wordless =
          (ofText settings text).diagnostics.map Diagnostic.wordless := by
  have mirrors : Placement.capitals.Mirrors false id (programUnits settings)
      (programUnits settings) := Placement.mirrors_programUnits settings
  obtain ⟨-, alike⟩ := (mirrors (.start text)).hands (.of_alone rfl) (.inl rfl)
  have start : Placement.capitals.cursor (.start text) = .start text.upper := by
    rw [Placement.cursor, Cursor.start, Placement.capitals, List.append_nil]
    rfl
  rw [start] at alike
  refine ⟨?_, alike.tokens, ?_⟩
  · have trees := congrArg (Tree.node Kind.sourceUnit) alike.trees
    exact trees.trans (SourceTree.upper_node _ _).symm
  · have final : (programUnits settings (.start text.upper)).next.position =
        (programUnits settings (.start text)).next.position := congrArg (·.position) alike.next
    have tells : List.Forall₂
        (fun diagnostic whole => Diagnostic.wordless diagnostic = Diagnostic.wordless whole)
        (programUnits settings (.start text)).reports
        (programUnits settings (.start text.upper)).reports :=
      alike.reports.imp fun _ _ tells => tells.wordless_eq.symm
    have reports := List.forall₂_map_left_iff.mpr (List.forall₂_map_right_iff.mpr tells)
    rw [List.forall₂_eq_eq_eq] at reports
    simp only [ofText, final]
    exact map_keep _ _ _ reports.symm

end Parsed

/-! ### An analysis in capitals -/

namespace Analysis

/-- The first analysis is the second one in capitals. -/
structure IsUpper (capital mixed : Analysis) : Prop where
  /-- The nodes and tokens of the source tree are of the same kinds, and begin at the same
  places. -/
  tree : capital.parsed.tree.locate = mixed.parsed.tree.locate.upper
  /-- The tokens take the same bytes. -/
  ranges : capital.parsed.tree.locate.leaves.map Leaf.range =
    mixed.parsed.tree.locate.leaves.map Leaf.range
  tokens : capital.parsed.tokens = mixed.parsed.tokens.map Token.upper
  diagnostics : capital.parsed.diagnostics.map Diagnostic.wordless =
    mixed.parsed.diagnostics.map Diagnostic.wordless
  /-- The rules are the same and have the same reasons if they were refused; the terminals are of
  the same types and at the same places. -/
  ruleTree : capital.adapted.tree = mixed.adapted.tree.upper
  source : capital.adapted.source = mixed.adapted.source.upper
  reports : capital.adapted.diagnostics = mixed.adapted.diagnostics

open Conversion LocatedTree SourceTree in
/-- A text and the same text in capitals are analysed alike. -/
theorem ofText_upper (settings : Settings) (text : Text) : ∃ mixed capital,
    ofText settings text = .ok mixed ∧ ofText settings text.upper = .ok capital ∧
      capital.IsUpper mixed := by
  obtain ⟨children, tree, -, -, mixed⟩ := ofStream_eq settings (.ofText text)
  obtain ⟨others, tree', -, -, capital⟩ := ofStream_eq settings (.ofText text.upper)
  have text' (text : Text) : (Stream.ofText text).text = text := rfl
  rw [text'] at tree tree' mixed capital
  obtain ⟨trees, tokens, diagnostics⟩ := Parsed.parse_upper settings text
  obtain rfl : others = children.map SourceTree.upper := by
    rw [tree, tree', SourceTree.upper_node] at trees
    exact (Tree.node.inj trees).2
  have located : (Parsed.ofText settings text.upper).tree.locate =
      (Parsed.ofText settings text).tree.locate.upper := by rw [trees, locate_upper]
  refine ⟨_, _, mixed, capital, ?_⟩
  constructor
  case tree => exact located
  case ranges =>
    rw [located, LocatedTree.upper, Tree.leaves_map, List.map_map]
    exact List.map_congr_left fun leaf _ => leaf.range_upper
  case tokens => exact tokens
  case diagnostics => exact diagnostics
  case ruleTree =>
    simp only [← SourceTree.upper_node, locate_upper, tokens_upper, locateAllAt_upper,
      rootRules_upper, startRule_upper]
  case source =>
    simp only [locateAllAt_upper, blankUnits_upper, textOf_map_upper, Range.ofText,
      Text.byteLength_upper, LocatedTree.upper_node]
  case reports => simp only [locateAllAt_upper, unitReports_upper]

end Analysis

end CobolTree
