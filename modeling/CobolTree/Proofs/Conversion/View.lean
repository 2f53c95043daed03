import CobolTree.Proofs.Conversion.Comments
import CobolTree.Proofs.RuleTree.View

/-!
The rule tree of a text is a view of the text. A unit is covered by its divisions, its stray text,
the units nested in it and its trailer, in the order of the text (`partsCovered_unitParts`), and a
source unit by its units (`covers_rootRules`). So the terminals of a rule tree, up to the end of
the input, are a faithful and ordered view of the whole text (`Analysis.terminals_isView`). What they
leave out is blanks, separators and comments, each comment up to the end of its line, or up to where
a division ends it within the line (`Analysis.comment_cut`).
-/

namespace CobolTree

open Conversion SourceTree
open LocatedTree (ownTokensOf)

namespace Conversion

variable (stream : Stream) {stops : Nat → Prop}

/-! ### Trailers -/

theorem leavesOf_trailerName (name : List Terminal) : Tree.leavesOf (trailerName name) = name := by
  unfold trailerName
  split
  · rename_i none
    exact (List.isEmpty_iff.mp none).symm
  · rw [Tree.leavesOf_cons, RuleTree.leaves_ofTerminals]
    exact List.append_nil name

theorem leavesOf_trailerParts (name : List Terminal) (leaves : List Leaf) :
    Tree.leavesOf (trailerParts stream name leaves) = name ++ leaves.map stream.terminalOf := by
  induction leaves generalizing name with
  | nil => rw [trailerParts, leavesOf_trailerName, List.map_nil, List.append_nil]
  | cons leaf rest ih =>
      rw [trailerParts]
      split
      · rw [Tree.leavesOf_append, leavesOf_trailerName, Tree.leavesOf_cons, ih, Tree.leaves]
        rfl
      · rw [ih, List.append_assoc]
        rfl

/-- The terminals of a trailer are those of its leaves, in order. -/
theorem leavesOf_trailer (leaves : List Leaf) :
    Tree.leavesOf (trailer stream leaves) = leaves.map stream.terminalOf := by
  let isEnd (leaf : Leaf) : Bool := Text.sameWord leaf.text "END".toList
  have stray (row : List Leaf) : Tree.leavesOf
      (if row.isEmpty then [] else [stream.ruleOf .unrecognized row]) =
        row.map stream.terminalOf := by
    split
    · rename_i none
      rw [List.isEmpty_iff.mp none]
      rfl
    · rw [Tree.leavesOf_cons, Stream.leaves_ruleOf]
      exact List.append_nil _
  have statement (row : List Leaf) : Tree.leavesOf
      (if row.isEmpty then [] else
        [RuleTree.bounded .endProgramStatement
          (((row.take 2).map fun leaf => .leaf (stream.terminalOf leaf)) ++
            trailerParts stream [] (row.drop 2))]) = row.map stream.terminalOf := by
    split
    · rename_i none
      rw [List.isEmpty_iff.mp none]
      rfl
    · rw [Tree.leavesOf_cons, RuleTree.leaves_bounded, Tree.leavesOf_append,
        stream.leavesOf_terminals, leavesOf_trailerParts, List.nil_append, ← List.map_append,
        List.take_append_drop]
      exact List.append_nil _
  have parts : leaves.takeWhile (!isEnd ·) ++ leaves.dropWhile (!isEnd ·) = leaves :=
    List.takeWhile_append_dropWhile
  rw [trailer, Tree.leavesOf_append, stray, statement, ← List.map_append, parts]

/-! ### Units -/

theorem leaves_unitRule (extent : Extent) (children : List LocatedTree) (parts : List RuleTree) :
    (unitRule stream (.node extent children) parts).leaves =
      Tree.leavesOf parts ++ (ownTokensOf children).map stream.terminalOf := by
  rw [unitRule, Tree.leaves, Tree.leavesOf_append, leavesOf_trailer]
  rfl

theorem covers_division {division : Division} {tree : SourceTree}
    (conforms : IsDivision division tree) {start : Nat}
    (settled : Settled stream stops start [tree]) {result : RuleTree × List Diagnostic}
    (h : Conversion.division stream division (locateAt start tree) = .ok result) :
    Covers stops stream.StandsFor start (SourceTree.text tree) result.1.leaves := by
  have converted := h
  unfold Conversion.division at h
  split at h
  · cases h
  · rename_i first others tokens
    cases named : GrammarName.ofDivision? division with
    | some grammar =>
        simp only [named, Except.ok.injEq] at h
        subst h
        refine covers_byGrammar stream grammar division settled tokens fun accepted => ?_
        obtain ⟨children, rfl, -⟩ := conforms.kindsIn
        have ends := settled.accepted division
          (locateAt start (.node division.kind children)) List.mem_cons_self rfl (by rw [named]; rfl)
          (byGrammar stream grammar division _ first).1 (by rw [converted, ← accepted])
        rwa [start_locateAt, text_locateAt] at ends
    | none =>
        cases division with
        | procedure =>
            obtain ⟨rule, read⟩ := procedure_ok stream conforms start
            simp only [named, read, Except.map, Except.ok.injEq] at h
            subst h
            exact covers_procedure stream conforms settled read
        | _ => cases named

/-- A part of a unit that is no unit is covered by its rule. -/
theorem covers_plainPart {tree : SourceTree} (part : IsPlainPart tree) {start : Nat}
    (settled : Settled stream stops start [tree]) {result : RuleTree × List Diagnostic}
    (h : plainPart stream (locateAt start tree) = .ok result) :
    Covers stops stream.StandsFor start (SourceTree.text tree) result.1.leaves := by
  cases part with
  | stray plain =>
      cases plain with
      | of _ =>
          cases h
          exact covers_unrecognized stream settled
  | @division division _ conforms =>
      rw [plainPart_of_isDivision stream conforms] at h
      exact covers_division stream conforms settled h

section PartRules

variable (start : Nat) (rest : List SourceTree)

theorem partRules_leaf (lexeme : Lexeme) :
    partRules stream (locateAllAt start (.leaf lexeme :: rest)) =
      partRules stream
        (locateAllAt (start + (SourceTree.text (.leaf lexeme)).byteLength) rest) := by
  rw [locateAllAt, locateAt, partRules]

theorem partRules_row (lexemes : List Lexeme) :
    partRules stream (locateAllAt start (row lexemes)) = [] := by
  rw [locateAllAt_row]
  induction Leaf.row start lexemes with
  | nil => rw [List.map_nil, partRules]
  | cons leaf rest ih => rw [List.map_cons, partRules, ih]

theorem partRules_nested (parts : List SourceTree) :
    partRules stream (locateAllAt start (.node .programUnit parts :: rest)) =
      unitRule stream (locateAt start (.node .programUnit parts))
          (partRules stream (locateAllAt start parts)) ::
        partRules stream
          (locateAllAt
            (start + (SourceTree.text (.node .programUnit parts)).byteLength) rest) := by
  rw [locateAllAt, locateAt, partRules, if_pos rfl]
  rfl

variable {start}

theorem partRules_plainPart {tree : SourceTree} (part : IsPlainPart tree)
    {result : RuleTree × List Diagnostic}
    (converted : plainPart stream (locateAt start tree) = .ok result) :
    partRules stream (locateAllAt start (tree :: rest)) =
      result.1 :: partRules stream
        (locateAllAt (start + (SourceTree.text tree).byteLength) rest) := by
  obtain ⟨kind, children, rfl, other⟩ := part.spec.isNode
  rw [locateAt] at converted
  rw [locateAllAt, locateAt, partRules, if_neg other, converted]
  rfl

end PartRules

/-- The rules of the parts of a unit, and the tokens right below the unit behind them, cover the
text of the parts. A trailer comes last, so its tokens stand behind all other parts. -/
def PartsCovered (stops : Nat → Prop) (start : Nat) (parts : List SourceTree) : Prop :=
  Covers stops stream.StandsFor start (textOf parts)
    (Tree.leavesOf (partRules stream (locateAllAt start parts)) ++
      (ownTokensOf (locateAllAt start parts)).map stream.terminalOf)

theorem partsCovered_trivia {start : Nat} {lexeme : Lexeme} {rest : List SourceTree}
    (trivial : lexeme.isTrivia = true)
    (filler : IsFiller stops start (SourceTree.text (.leaf lexeme)))
    (h : PartsCovered stream stops (start + (SourceTree.text (.leaf lexeme)).byteLength) rest) :
    PartsCovered stream stops start (.leaf lexeme :: rest) := by
  have none (forest : List LocatedTree) :
      ownTokensOf (.leaf ⟨lexeme, start⟩ :: forest) = ownTokensOf forest :=
    List.filter_cons_of_neg (by simp [trivial])
  rw [PartsCovered, textOf_cons, partRules_leaf, locateAllAt, locateAt, none]
  exact h.behind filler

theorem partsCovered_plainPart {start : Nat} {tree : SourceTree} {rest : List SourceTree}
    (part : IsPlainPart tree) (settled : Settled stream stops start [tree])
    (h : PartsCovered stream stops (start + (SourceTree.text tree).byteLength) rest) :
    PartsCovered stream stops start (tree :: rest) := by
  obtain ⟨result, converted⟩ := part.spec.converts stream start
  obtain ⟨kind, children, rfl, -⟩ := part.spec.isNode
  have first := covers_plainPart stream part settled converted
  rw [PartsCovered, textOf_cons, partRules_plainPart stream rest part converted,
    Tree.leavesOf_cons, List.append_assoc]
  exact first.append h

theorem partsCovered_nested {start : Nat} {parts rest : List SourceTree}
    (inner : PartsCovered stream stops start parts)
    (h : PartsCovered stream stops (start + (textOf parts).byteLength) rest) :
    PartsCovered stream stops start (.node .programUnit parts :: rest) := by
  rw [PartsCovered, textOf_cons, partRules_nested, Tree.leavesOf_cons, locateAt, leaves_unitRule,
    List.append_assoc]
  exact inner.append h

theorem partsCovered_row {lexemes : List Lexeme} {start : Nat}
    (settled : Settled stream stops start (row lexemes)) :
    PartsCovered stream stops start (row lexemes) := by
  obtain ⟨legible, ends⟩ := settled.row
  rw [PartsCovered, partRules_row, ownTokensOf_row, textOf_eq, leavesOf_row]
  exact covers_row stream legible ends

/-- The parts of a unit cover the text of the unit. -/
theorem partsCovered_unitParts {begun : Bool} {parts : List SourceTree} (h : UnitParts begun parts)
    {start : Nat} (settled : Settled stream stops start parts) :
    PartsCovered stream stops start parts := by
  induction h generalizing start with
  | nil =>
      rw [PartsCovered, locateAllAt, partRules]
      exact .gap .nil
  | @trivia begun lexeme rest trivial _ ih =>
      obtain ⟨here, behind⟩ := settled.cons
      exact partsCovered_trivia stream trivial (here.isFiller trivial) (ih behind)
  | stray conforms _ ih =>
      obtain ⟨here, behind⟩ := settled.cons
      exact partsCovered_plainPart stream (.stray conforms) here (ih behind)
  | division conforms _ ih =>
      obtain ⟨here, behind⟩ := settled.cons
      exact partsCovered_plainPart stream (.division conforms) here (ih behind)
  | nested _ _ _ ihInner ihRest =>
      obtain ⟨here, behind⟩ := settled.cons
      exact partsCovered_nested stream (ihInner here.inside) (ihRest behind)
  | trailer _ => exact partsCovered_row stream settled

/-- The rules of a source unit cover its text. -/
theorem covers_rootRules {children : List SourceTree} (units : Among IsUnit children) {start : Nat}
    (settled : Settled stream stops start children) :
    Covers stops stream.StandsFor start (textOf children)
      (Tree.leavesOf (rootRules stream (locateAllAt start children))) := by
  induction children generalizing start with
  | nil =>
      rw [locateAllAt, rootRules]
      exact .gap .nil
  | cons tree rest ih =>
      obtain ⟨here, behind⟩ := settled.cons
      obtain ⟨first, later⟩ := among_cons.mp units
      have others := ih later behind
      rcases first with ⟨lexeme, rfl, trivial⟩ | unit
      · rw [textOf_cons, locateAllAt, locateAt, rootRules, if_pos trivial]
        exact others.behind (here.isFiller trivial)
      · cases unit with
        | @of parts inner _ =>
            have first := partsCovered_unitParts stream inner here.inside
            rw [textOf_cons, locateAllAt, locateAt, rootRules, if_pos rfl, Tree.leavesOf_cons,
              leaves_unitRule]
            exact first.append others

end Conversion

/-! ### Whole texts -/

namespace Analysis

theorem terminals_startRule (stream : Stream) (leaves : List Leaf) (parts : List RuleTree) :
    (startRule stream leaves parts).terminals = Tree.leavesOf parts ++ [stream.endOfInput] := by
  rw [RuleTree.terminals, LeafWalk.toList_ofTree]
  rfl

/-- The terminals of an analysed stream are a view of its text, with the end of the input behind
them. -/
theorem exists_isView (settings : Settings) (stream : Stream) :
    ∃ analysis terminals, ofStream settings stream = .ok analysis ∧
      analysis.adapted.tree.terminals = terminals ++ [stream.endOfInput] ∧
        IsView stream (StopsComment stream analysis.parsed) 0 terminals := by
  obtain ⟨children, parsed, units, -, converted⟩ := ofStream_eq settings stream
  have covers : Covers (StopsComment stream (Parsed.ofText settings stream.text)) stream.StandsFor
      (Text.byteLength []) (textOf children)
        (Tree.leavesOf (rootRules stream (locateAllAt 0 children))) :=
    covers_rootRules stream units (settled_children parsed)
  rw [Parsed.textOf_children parsed] at covers
  exact ⟨_, _, converted, terminals_startRule stream _ _, covers.isView rfl⟩

/-- The terminals of every analysed text, and of every expanded text, are a faithful and ordered
view of it: none is empty, each has the text and the position of its range and the origin that the
mapping gives, if there is one, each begins where the one before it has ended or later, and what
is outside of them is filler. A comment outside of them goes on to the end of its line, or to the
end of a division that cuts it off. -/
theorem terminals_isView (settings : Settings) :
    (∀ text, ∃ analysis terminals, ofText settings text = .ok analysis ∧
      analysis.adapted.tree.terminals = terminals ++ [(Stream.ofText text).endOfInput] ∧
        IsView (.ofText text) (StopsComment (.ofText text) analysis.parsed) 0 terminals) ∧
    ∀ document, ∃ analysis terminals, ofDocument settings document = .ok analysis ∧
      analysis.adapted.tree.terminals = terminals ++ [(Stream.ofDocument document).endOfInput] ∧
        IsView (.ofDocument document) (StopsComment (.ofDocument document) analysis.parsed) 0
          terminals := by
  constructor
  · intro text
    exact exists_isView settings (.ofText text)
  · intro document
    exact exists_isView settings (.ofDocument document)

/-- The grammar of the DATA DIVISION takes the word PIC for the name of a file, where the tokens have
a picture string behind it. In the picture string it finds the period of the entry and a comment,
which ends with the division and not with the line: another division begins behind it. -/
theorem comment_cut :
    let text : Text := ("ID DIVISION. PROGRAM-ID. A. DATA DIVISION. FILE SECTION. " ++
      "FD PIC .*> PROCEDURE DIVISION. X.").toList
    ∃ analysis, ofText .standard text = .ok analysis ∧
      ¬IsView (.ofText text) text.IsLineEnd 0 analysis.adapted.tree.terminals.dropLast := by
  intro text
  have evaluated : (ofText .standard text).toOption.map (fun analysis =>
      decide (⟨65, 68⟩ ∈ gaps text.byteLength 0 analysis.adapted.tree.terminals.dropLast)) =
        some true := by decide +kernel
  obtain ⟨analysis, found, among⟩ := Option.map_eq_some_iff.mp evaluated
  have analysed : ofText .standard text = .ok analysis := by
    cases same : ofText .standard text with
    | error => simp [same, Except.toOption] at found
    | ok other =>
        rw [same] at found
        exact congrArg Except.ok (Option.some.inj found)
  refine ⟨analysis, analysed, fun view => ?_⟩
  obtain ⟨filler, slice, blank⟩ := view.filled _ (of_decide_eq_true among)
  have mark : text.slice? 65 68 = some ['*', '>', ' '] := by decide +kernel
  obtain rfl : filler = ['*', '>', ' '] := Option.some.inj (slice.symm.trans mark)
  have inLine : ¬text.IsLineEnd 67 ∧ ¬text.IsLineEnd 68 := by decide +kernel
  generalize same : ['*', '>', ' '] = gap at blank
  cases blank with
  | nil => cases same
  | blank filler _ =>
      cases same
      cases filler
  | @comment _ body rest _ stop _ =>
      obtain ⟨-, split⟩ := List.cons.inj same
      obtain ⟨-, split⟩ := List.cons.inj split
      rcases List.cons_eq_append_iff.mp split with ⟨rfl, -⟩ | ⟨others, rfl, none⟩
      · exact inLine.1 stop
      · obtain ⟨rfl, -⟩ := List.append_eq_nil_iff.mp none.symm
        exact inLine.2 stop

end Analysis

end CobolTree
