import CobolTree.Proofs.Lossless
import CobolTree.Proofs.Mirror.Closing
import CobolTree.Proofs.Tree.Forest

/-!
Sibling programs compile independently. Where a text ends a line and its last tokens are the full
trailer of a program that no other encloses, a second text behind it changes nothing in the parse of
the first one, and is itself parsed as if it began there: the units, tokens and diagnostics of the
two stand one behind the other, those of the second text shifted by the lines and bytes of the first.
There is one exception, and `Parsed.ofText_append` says exactly which. The look ahead for the word
IS, which can stand before a picture string, takes for a comment what is read as the picture string
if the word is not there. Where it finds nothing up to the end of the first text (`Token.HidesEnd`),
a second text that begins with the word is taken for the rest of the clause
(`Parsed.ofText_append_hidden`).
-/

namespace CobolTree

/-! ### What is shifted -/

/-- The place when the text stands behind some lines and bytes. -/
def Position.shift (lines bytes : Nat) (position : Position) : Position :=
  ⟨position.line + lines, position.column, position.index + bytes⟩

def Range.shift (bytes : Nat) (range : Range) : Range := ⟨range.start + bytes, range.stop + bytes⟩

def Token.shift (lines bytes : Nat) (token : Token) : Token :=
  { token with position := token.position.shift lines bytes }

theorem Token.lexemes_shift (lines bytes : Nat) (tokens : List Token) :
    lexemes (tokens.map (shift lines bytes)) = lexemes tokens := by
  simp [lexemes, Function.comp_def, shift]

def Related.shift (bytes : Nat) (related : Related) : Related :=
  { related with range := related.range.shift bytes }

/-- The diagnostic with its range, its position and its related ranges behind some lines and
bytes. -/
def Diagnostic.shift (lines bytes : Nat) (diagnostic : Diagnostic) : Diagnostic :=
  { diagnostic with
    range := diagnostic.range.shift bytes
    position := diagnostic.position.shift lines bytes
    related := diagnostic.related.map (Related.shift bytes) }

theorem Diagnostic.shift_zero : Diagnostic.shift 0 0 = id := by
  have related : Related.shift 0 = id := rfl
  funext diagnostic
  simp [shift, related, Range.shift, Position.shift]

namespace Parsed

/-- The units, tokens and diagnostics of one parse, and behind them those of another one. -/
def append (lines bytes : Nat) (first second : Parsed) : Parsed where
  tree := .node .sourceUnit (first.tree.children ++ second.tree.children)
  tokens := first.tokens ++ second.tokens.map (Token.shift lines bytes)
  diagnostics := first.diagnostics ++ second.diagnostics.map (Diagnostic.shift lines bytes)

end Parsed

/-- The words END PROGRAM, a name and a period. -/
def Leaf.isFullTrailer : List Leaf → Bool
  | [first, second, name, period] =>
      first.isWord "END".toList && second.isWord "PROGRAM".toList && name.namesProgram &&
        period.kind == .dot
  | _ => false

/-- The last four tokens of a parse that are neither blanks nor comments are the trailer of a unit
right below the root. -/
def Parsed.IsClosed (parsed : Parsed) : Prop :=
  ∃ unit ∈ parsed.tree.locate.childrenOf .programUnit,
    Leaf.isFullTrailer unit.ownTokens = true ∧ unit.ownTokens <:+ parsed.tree.locate.tokens

instance (parsed : Parsed) : Decidable parsed.IsClosed :=
  inferInstanceAs (Decidable (∃ _ ∈ _, _))

/-- A text begins with neither a blank nor a line break nor a comment. -/
def Text.beginsSolid (text : Text) : Bool :=
  !text.head?.any (fun c => Scan.isSpace c || Scan.isLineBreak c) &&
    !(['*', '>'].isPrefixOf text)

theorem Tree.mapAll_id {ν α : Type} (forest : List (Tree ν α)) : mapAll id id forest = forest := by
  induction forest using forest_induction with
  | nil => rfl
  | leaf value rest ih => rw [mapAll, map, ih, id]
  | node label children rest below behind => rw [mapAll, map, below, behind, id]

/-! ### Places in a text behind another one -/

namespace Position

theorem line_advance (place : Position) (text : Text) :
    (place.advance text).line = place.line + text.count '\n' := by
  induction text generalizing place with
  | nil => rfl
  | cons c rest ih =>
      have behind := ih (place.step c)
      simp only [advance, List.foldl_cons] at behind ⊢
      rw [behind, line_step, List.count_cons]
      by_cases feed : c = '\n'
      · simp only [feed, beq_self_eq_true, if_true]
        omega
      · simp [feed]

/-- Behind a line feed a line begins. -/
theorem advance_of_endsLine {text : Text} (ends : Scan.EndsLine text) (place : Position) :
    place.advance text =
      ⟨place.line + text.count '\n', 0, place.index + text.byteLength⟩ := by
  have line := line_advance place text
  have index := index_advance place text
  have column : (place.advance text).column = 0 := by
    obtain ⟨lines, rfl⟩ := ends
    rw [advance_append, advance, List.foldl_cons, List.foldl_nil, column_step, if_pos rfl]
  rw [← line, ← index, ← column]

end Position

namespace Placement

/-- At the beginning of a whole, before another text. -/
def before (second : Text) : Placement := ⟨.same, 0, 0, second⟩

/-- At the end of a whole, behind another text. -/
def below (first : Text) : Placement := ⟨.same, first.count '\n', first.byteLength, []⟩

variable {place : Placement} (same : place.toRecasing = .same)

include same

theorem text_of_same (text : Text) : place.text text = text := by
  rw [same, Recasing.text_same]

theorem lexeme_of_same (lexeme : Lexeme) : place.lexeme lexeme = lexeme := by
  rw [Placement.lexeme, text_of_same same]

theorem tree_of_same (tree : SourceTree) : place.tree tree = tree := by
  have lexeme : place.lexeme = id := funext (lexeme_of_same same)
  rw [Placement.tree, lexeme]
  exact (List.cons.inj (Tree.mapAll_id [tree])).1

theorem token_of_same (token : Token) :
    place.token token = token.shift place.lines place.bytes := by
  rw [Placement.token, lexeme_of_same same]
  rfl

/-- What tells of a problem in the whole is the diagnostic, shifted. -/
theorem Tells.eq_shift {diagnostic whole : Diagnostic} (h : place.Tells diagnostic whole) :
    whole = diagnostic.shift place.lines place.bytes := by
  obtain ⟨problem, range, position, severity, rfl, rfl⟩ := h
  cases problem with
  | unrecognized text => simp only [Placement.problem, text_of_same same]; rfl
  | endProgramMismatch found program =>
      simp only [Placement.problem, identity, text_of_same same]; rfl
  | strayToken text => simp only [Placement.problem, text_of_same same]; rfl
  | _ => rfl

theorem Alike.of_same {α β : Type} {f : α → β} {outcome : Outcome α} {whole : Outcome β}
    (h : place.Alike f outcome whole) :
    whole.trees = outcome.trees ∧
      whole.tokens = outcome.tokens.map (Token.shift place.lines place.bytes) ∧
        whole.reports = outcome.reports.map (Diagnostic.shift place.lines place.bytes) := by
  refine ⟨?_, ?_, ?_⟩
  · rw [h.trees, funext (tree_of_same same), List.map_id']
  · rw [h.tokens, funext (token_of_same same)]
  · have shifted : List.Forall₂ (fun diagnostic whole => diagnostic.shift place.lines place.bytes =
        whole) outcome.reports whole.reports := h.reports.imp fun _ _ tells => (tells.eq_shift same).symm
    have row := List.forall₂_map_left_iff.mpr shifted
    rw [List.forall₂_eq_eq_eq] at row
    exact row.symm

end Placement

/-! ### Two texts -/

theorem Text.solid_start {text : Text} (h : text.beginsSolid = true) :
    (Cursor.start text).Solid := by
  intro token after read
  rw [Cursor.next?_of_rest (Cursor.rest_ne_nil_of_next? read), Option.some.injEq,
    Prod.mk.injEq] at read
  obtain ⟨rfl, -⟩ := read
  rw [Text.beginsSolid, Bool.and_eq_true, Bool.not_eq_true', Bool.not_eq_true'] at h
  refine Bool.eq_false_iff.mpr fun trivial => ?_
  have begins : (∃ c ∈ text.head?, Scan.isSpace c = true ∨ Scan.isLineBreak c = true) ∨
      ['*', '>'] <+: text := Scan.begins_of_trivia trivial
  rcases begins with ⟨c, first, blank⟩ | mark
  · rw [Option.mem_def.mp first, Option.any_some, Bool.or_eq_false_iff] at h
    simp [h.1] at blank
  · rw [List.isPrefixOf_iff_prefix.mpr mark] at h
    cases h.2

namespace Parsed

open Production

variable {settings : Settings} {first second : Text}

theorem length_of_isFullTrailer {row : List Leaf} (h : Leaf.isFullTrailer row = true) :
    row.length = 4 := by
  unfold Leaf.isFullTrailer at h
  split at h
  · rfl
  · cases h

theorem IsClosed.outcome (h : (ofText settings first).IsClosed) :
    (programUnits settings (.start first)).IsClosed (.start first) := by
  obtain ⟨unit, mem, full, ends⟩ := h
  have faithful := faithful_programUnits settings (.start first)
  have tokens : (ofText settings first).tree.locate.tokens =
      (Token.significant (programUnits settings (.start first)).tokens).map Token.leaf := by
    have leaves := Outcome.leavesOf_located faithful
    rw [LocatedTree.tokens, show (ofText settings first).tree.locate.leaves = _ from leaves,
      List.filter_map]
    rfl
  obtain ⟨below, -⟩ := List.mem_filter.mp mem
  obtain ⟨below, isNode⟩ := List.mem_filter.mp below
  have four := length_of_isFullTrailer full
  obtain ⟨last, own⟩ : ∃ last, unit.ownTokens.getLast? = some last := by
    cases own : unit.ownTokens.getLast? with
    | none => simp [List.getLast?_eq_none_iff.mp own] at four
    | some last => exact ⟨last, rfl⟩
  refine ⟨unit, below, last, isNode, four, own, ?_⟩
  obtain ⟨others, split⟩ := ends
  rw [← tokens, ← split, List.getLast?_append, own, Option.some_or]

/-- What follows a text is allowed if it does not begin with the word IS where the end of the text is
hidden. -/
theorem allows_of_solid (solid : (Cursor.start second).Solid) {tokens : List Token}
    (operands : Token.HidesEnd [] tokens →
      ∀ next ∈ (Cursor.start second).peek? .programUnit, next.isWord "IS".toList = false) :
    (Placement.before second).Allows tokens [] := by
  intro hides next after read
  change (Cursor.start second).significant? .programUnit = some (next, after) at read
  obtain ⟨other, behind, found⟩ : ∃ other behind,
      (Cursor.start second).next? .programUnit = some (other, behind) := by
    rw [Cursor.next?_of_rest (Cursor.rest_ne_nil_of_significant? read)]
    exact ⟨_, _, rfl⟩
  rw [Cursor.significant?_of_next? found (solid _ _ found)] at read
  cases read
  exact operands hides next (by simp [Cursor.peek?, found])

theorem cursor_start_before (first second : Text) :
    (Placement.before second).cursor (.start first) = .start (first ++ second) := by
  rw [Placement.cursor, Placement.text_of_same rfl]
  rfl

/-- Where the first text ends, the second one begins, behind its lines and bytes. -/
theorem cursor_next_before (line : Scan.EndsLine first) :
    (Placement.before second).cursor (programUnits settings (.start first)).next =
      (Placement.below first).cursor (.start second) := by
  have reads := (faithful_programUnits settings (.start first)).reads
  have ends := Cursor.atEnd_iff.mp (atEnd_programUnits settings (.start first))
  have text : first = Lexeme.textOf (Token.lexemes
      (programUnits settings (.start first)).tokens) := by
    have rest := reads.rest_eq
    rwa [ends, List.append_nil] at rest
  have position : (programUnits settings (.start first)).next.position =
      ⟨0 + first.count '\n', 0, 0 + first.byteLength⟩ := by
    rw [reads.position_eq, ← text]
    exact Position.advance_of_endsLine line .zero
  rw [Placement.cursor, Placement.cursor, ends, position]
  simp [Placement.position, Placement.before, Placement.below, Cursor.start, Position.zero]

/-- No picture string of a parse has had the word IS ahead that could have stood before it. -/
theorem readsOperands_ofText (settings : Settings) (text : Text) : ∃ last, last.rest = [] ∧
    (Cursor.start text).ReadsOperands (ofText settings text).tokens last := by
  have mirrors : (Placement.below []).Mirrors false id (programUnits settings)
      (programUnits settings) := Placement.mirrors_programUnits settings
  have ends := atEnd_programUnits settings (.start text)
  exact ⟨_, Cursor.atEnd_iff.mp ends, (mirrors (.start text)).reads⟩

/-- Where nothing carries meaning up to the end of a line, what is next is what the text behind it
begins with. -/
theorem exists_significant?_append {lines : Text} {next : Token} {behind : Cursor}
    (ends : lines ≠ [] → Scan.EndsLine lines)
    (none : (Cursor.start lines).significant? .programUnit = none)
    (found : (Cursor.start second).significant? .programUnit = some (next, behind)) :
    ∃ token after, (Cursor.start (lines ++ second)).significant? .programUnit = some (token, after) ∧
      token.toLexeme = next.toLexeme := by
  have apart : lines ≠ [] → (Placement.before second).Apart (.start lines) :=
    fun some => .inr (ends some)
  obtain ⟨position, same⟩ := Placement.exists_significant?_behind apart none
  rw [cursor_start_before] at same
  obtain ⟨token, after, again, lexeme⟩ := Cursor.significant?_of_rest found ⟨position, second⟩ rfl
  exact ⟨token, after, same.trans again, lexeme⟩

section Append

variable (line : ['\n'] <:+ first) (solid : second.beginsSolid = true)

include line solid

/-- If the parses stand one behind the other, the second text does not begin with the word IS where
the end of the first one is hidden: the look ahead in the whole would have found the word. -/
theorem operands_of_append
    (same : ofText settings (first ++ second) =
      (ofText settings first).append (first.count '\n') first.byteLength (ofText settings second))
    (hides : Token.HidesEnd [] (ofText settings first).tokens) :
    ∀ next ∈ (Cursor.start second).peek? .programUnit, next.isWord "IS".toList = false := by
  intro next peeked
  obtain ⟨operand, mem, none⟩ := hides
  obtain ⟨⟨_, behind⟩, read, rfl⟩ := Option.map_eq_some_iff.mp peeked
  have found := Cursor.significant?_of_next? read (Text.solid_start solid _ _ read)
  rw [List.append_nil] at none
  -- the operand ends where the first text does, and goes on in the whole with the second one
  have suffix : Lexeme.textOf (Token.lexemes operand) <:+ first := by
    rw [← textOf_tokens_ofText settings first]
    obtain ⟨before, split⟩ := Token.suffix_of_mem_operands mem
    exact ⟨_, by rw [← split, Token.lexemes_append, Lexeme.textOf_append]⟩
  obtain ⟨token, after, ahead, lexeme⟩ :=
    exists_significant?_append (fun some => Scan.EndsLine.of_suffix line suffix some) none found
  obtain ⟨last, ends, reads⟩ := readsOperands_ofText settings (first ++ second)
  have wholeMem : operand ++ (ofText settings second).tokens.map
      (Token.shift (first.count '\n') first.byteLength) ∈
        Token.operands (ofText settings (first ++ second)).tokens := by
    rw [same]
    exact Token.append_mem_operands mem
  have differs := reads.ahead _ wholeMem token after (by
    rwa [ends, List.append_nil, Token.lexemes_append, Lexeme.textOf_append, Token.lexemes_shift,
      textOf_tokens_ofText])
  rwa [lexeme] at differs

/-- Where nothing hides the end of the first text from the look ahead for the word IS, or the second
one does not begin with this word, the parses stand one behind the other. -/
theorem append_of_operands (uncapped : settings.maxDiagnostics = none)
    (closed : (ofText settings first).IsClosed)
    (operands : Token.HidesEnd [] (ofText settings first).tokens →
      ∀ next ∈ (Cursor.start second).peek? .programUnit, next.isWord "IS".toList = false) :
    ofText settings (first ++ second) =
      (ofText settings first).append (first.count '\n') first.byteLength
        (ofText settings second) := by
  have begins := Text.solid_start solid
  have ends := Cursor.atEnd_iff.mp (atEnd_programUnits settings (.start first))
  have allowed : (Placement.before second).Allows (programUnits settings (.start first)).tokens
      (programUnits settings (.start first)).next.rest := by
    rw [ends]
    exact allows_of_solid begins operands
  obtain ⟨-, one, alike, goesOn⟩ := Placement.continues_programUnits settings begins
    (.start first) (fun _ => .inr line) closed.outcome allowed
  have mirrors : (Placement.below first).Mirrors false id (programUnits settings)
      (programUnits settings) := Placement.mirrors_programUnits settings
  obtain ⟨-, two⟩ := (mirrors (.start second)).hands (.of_alone rfl) (.inl rfl)
  rw [cursor_start_before, cursor_next_before line] at goesOn
  obtain ⟨trees, tokens, reports⟩ := alike.of_same rfl
  obtain ⟨treesBehind, tokensBehind, reportsBehind⟩ := two.of_same rfl
  have tokens : one.tokens = (programUnits settings (.start first)).tokens := by
    rw [tokens]
    exact List.map_id _
  have reports : one.reports = (programUnits settings (.start first)).reports := by
    have still : Diagnostic.shift (Placement.before second).lines (Placement.before second).bytes =
        id := Diagnostic.shift_zero
    rw [reports, still, List.map_id]
  simp only [ofText, uncapped, keep, goesOn, append, Outcome.andThen, trees, tokens, reports,
    treesBehind, tokensBehind, reportsBehind]
  rfl

end Append

/-- The programs of a text that ends its last line in the full trailer of a program, and those of a
text behind it, compile independently, but where a picture string hides the end of the first text
and the second one begins with the word IS. -/
theorem ofText_append (uncapped : settings.maxDiagnostics = none) (line : ['\n'] <:+ first)
    (closed : (ofText settings first).IsClosed) (solid : second.beginsSolid = true) :
    ofText settings (first ++ second) =
        (ofText settings first).append (first.count '\n') first.byteLength
          (ofText settings second) ↔
      (Token.HidesEnd [] (ofText settings first).tokens →
        ∀ next ∈ (Cursor.start second).peek? .programUnit, next.isWord "IS".toList = false) :=
  ⟨operands_of_append line solid, append_of_operands line solid uncapped closed⟩

/-- Two programs, the name of the second one in quotes and its trailer wrong. -/
theorem ofText_append_two_programs :
    let first : Text := "ID DIVISION. PROGRAM-ID. X. END PROGRAM X.\n".toList
    let second : Text := "ID DIVISION. PROGRAM-ID. \"y\". END PROGRAM Z.".toList
    (Settings.standard.maxDiagnostics = none ∧ ['\n'] <:+ first ∧
      (ofText .standard first).IsClosed ∧ second.beginsSolid = true) ∧
        ofText .standard (first ++ second) =
          (ofText .standard first).append 1 first.byteLength (ofText .standard second) :=
  have closed : (ofText .standard "ID DIVISION. PROGRAM-ID. X. END PROGRAM X.\n".toList).IsClosed := by
    decide +kernel
  ⟨⟨rfl, by decide, closed, by decide +kernel⟩,
    (ofText_append rfl (by decide) closed (by decide +kernel)).mpr fun _ => by decide +kernel⟩

/-- Where another line stands behind a picture string that looks like a comment, the end of the text
is not hidden. -/
example : ¬Token.HidesEnd [] (ofText .standard ("ID DIVISION. PROGRAM-ID. X. DATA DIVISION. " ++
    "01 W PIC *> Y.\n 02 Z.\nEND PROGRAM X.\n").toList).tokens := by decide +kernel

/-- Behind a picture string that looks like a comment, the word IS at the beginning of another text
is taken for the word before the picture string. -/
theorem ofText_append_hidden :
    let first : Text :=
      "ID DIVISION. PROGRAM-ID. X. DATA DIVISION. 01 W PIC *> END PROGRAM X.\n".toList
    let second : Text := "IS".toList
    (Settings.standard.maxDiagnostics = none ∧ ['\n'] <:+ first ∧
      (ofText .standard first).IsClosed ∧ second.beginsSolid = true) ∧
        ofText .standard (first ++ second) ≠
          (ofText .standard first).append 1 first.byteLength (ofText .standard second) := by
  refine ⟨⟨rfl, by decide, by decide +kernel, by decide +kernel⟩, fun same => ?_⟩
  have length := congrArg (·.tokens.length) same
  revert length
  decide +kernel

end Parsed

end CobolTree
