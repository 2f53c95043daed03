import CobolTree.Proofs.Production.Divisions
import CobolTree.Proofs.Production.Openings
import CobolTree.Proofs.Tree.Headed
import CobolTree.Proofs.Verbs.Body
import CobolTree.Proofs.Verbs.Forest
import CobolTree.View.Procedure

/-!
Headings in a PROCEDURE DIVISION. A section begins with a word and SECTION, a paragraph with a word
that is no statement verb and a period, and a sentence with neither, whatever blanks and comments
stand between the two tokens (`Procedure.TellsHeadings`). Sentences of a section or a paragraph are
read up to where the division could go on with a block (`stopsSentences_procedureSentences`), so
the sentences right below the division are those before its first block
(`Production.kindsOf_procedureBody`). All of it holds in every PROCEDURE DIVISION of every text
(`Parsed.tellsHeadings_ofText`).
-/

namespace CobolTree

open SourceTree LocatedTree

/-! ### Nodes with a heading -/

namespace Procedure

/-- The node begins with two tokens that pass a test, and goes by the first of them. -/
def HasHeading (test : Lexeme → Lexeme → Bool) (node : LocatedTree) : Prop :=
  ∃ name second rest, node.tokens = name :: second :: rest ∧
    test name.toLexeme second.toLexeme = true ∧ name? node = some name.text

/-- A node with a header in a row has the heading that the header has. -/
theorem hasHeading_headed {test : Lexeme → Lexeme → Bool} {header : List Lexeme}
    (opens : Lexeme.beginWith test (Lexeme.significant header) = true)
    (named : ∀ name second, test name second = true → name.kind = .word) (extent : Extent)
    (start : Nat) (body : List SourceTree) :
    HasHeading test (.node extent (locateAllAt start (row header ++ body))) := by
  obtain ⟨first, second, rest, significant, passes⟩ := Lexeme.beginWith_iff.mp opens
  have lexemes := significant_row start header
  rw [significant] at lexemes
  obtain ⟨name, others, tokens, rfl, more⟩ := List.map_eq_cons_iff.mp lexemes
  obtain ⟨other, behind, rfl, rfl, -⟩ := List.map_eq_cons_iff.mp more
  have isName := named _ _ passes
  refine ⟨name, other, behind ++ (Tree.leavesOf (locateAllAt
    (start + (textOf (row header)).byteLength) body)).filter (!·.isTrivia), ?_, passes, ?_⟩
  · rw [LocatedTree.tokens, Tree.leaves, locateAllAt_append, Tree.leavesOf_append,
      leavesOf_locateAllAt_eq_row start, leavesOf_row, List.filter_append, tokens]
    rfl
  · rw [name?, nameToken?, ownTokens_append_row, tokens]
    simp [isName]

end Procedure

/-! ### Sentences before blocks -/

/-- The kinds of the nodes right in a forest. -/
def SourceTree.kindsOf (forest : List SourceTree) : List Kind := forest.filterMap Tree.label?

namespace SourceTree

theorem kindsOf_append (s t : List SourceTree) : kindsOf (s ++ t) = kindsOf s ++ kindsOf t :=
  List.filterMap_append

theorem kindsOf_row (lexemes : List Lexeme) : kindsOf (row lexemes) = [] := by
  apply List.filterMap_eq_nil_iff.mpr
  intro tree mem
  obtain ⟨lexeme, -, rfl⟩ := List.mem_map.mp mem
  rfl

theorem map_kind_childNodes (extent : Extent) (start : Nat) (forest : List SourceTree) :
    (Tree.childNodes (.node extent (locateAllAt start forest))).map LocatedTree.kind =
      kindsOf forest := by
  induction forest generalizing start with
  | nil => rfl
  | cons tree rest ih =>
      have behind := ih (start + (text tree).byteLength)
      cases tree with
      | leaf lexeme => exact behind
      | node kind children => exact congrArg (kind :: ·) behind

end SourceTree

namespace Kind

/-- A section or a paragraph. -/
def IsBlock (kind : Kind) : Prop := kind = .procedureSection ∨ kind = .procedureParagraph

/-- Sentences, and then sections and paragraphs. -/
def SentencesFirst (kinds : List Kind) : Prop :=
  ∃ sentences blocks, kinds = sentences ++ blocks ∧ (∀ kind ∈ sentences, kind = .sentence) ∧
    ∀ kind ∈ blocks, kind.IsBlock

theorem sentencesFirst_of_blocks {kinds : List Kind} (blocks : ∀ kind ∈ kinds, kind.IsBlock) :
    SentencesFirst kinds := ⟨[], kinds, rfl, nofun, blocks⟩

theorem SentencesFirst.behind {kinds : List Kind} (h : SentencesFirst kinds) :
    SentencesFirst (.sentence :: kinds) := by
  obtain ⟨sentences, blocks, rfl, first, others⟩ := h
  exact ⟨.sentence :: sentences, blocks, rfl, List.forall_mem_cons.mpr ⟨rfl, first⟩, others⟩

end Kind

namespace Production

variable (settings : Settings)

/-- Behind blanks and comments, no more sentences follow: a block begins there, or the division
ends. -/
def stopsSentences (cursor : Cursor) : Bool :=
  let place := (trivia .procedureDivision cursor).next
  place.atUnitBoundary || place.atSectionHeader || place.atParagraphHeader settings

/-- Sentences are read up to where no more of them follow. -/
theorem stopsSentences_procedureSentences (cursor : Cursor) :
    stopsSentences settings (procedureSentences settings cursor).next = true := by
  rw [procedureSentences, rounds_eq_repeating .procedureDivision
    (fun _ => faithful_procedureSentenceRound settings) (advances_procedureSentenceRound settings)]
  apply repeating_induction
    (motive := fun _ outcome => stopsSentences settings outcome.next = true)
    (fun _ => faithful_procedureSentenceRound settings) (advances_procedureSentenceRound settings)
    ?last ?goesOn
  case last =>
    intro _ cursor final done
    rw [procedureSentenceRound_apply] at done ⊢
    simp only at done ⊢
    split at done
    · rename_i stops
      rw [if_pos stops]
      simp only [Outcome.next_withValue, Outcome.next_andThen, Outcome.next_still, stopsSentences,
        trivia_trivia]
      exact stops
    · cases done
  case goesOn => exact fun _ _ _ _ _ later => later

/-- What stands at a token of the division is a sentence where no block begins, and else a block
with the sentences that follow it. -/
theorem kindsOf_procedurePart (cursor : Cursor) :
    kindsOf (procedurePart settings cursor).trees = [.sentence] ∧
        cursor.atSectionHeader = false ∧ cursor.atParagraphHeader settings = false ∨
      ∃ kind : Kind, kind.IsBlock ∧ kindsOf (procedurePart settings cursor).trees = [kind] ∧
        stopsSentences settings (procedurePart settings cursor).next = true := by
  unfold procedurePart
  split
  · refine .inr ⟨.procedureSection, .inl rfl, ?_, stopsSentences_procedureSentences settings _⟩
    rw [procedureSection, trees_headed _ flat_sectionHeader]
    rfl
  · rename_i noSection
    split
    · refine .inr ⟨.procedureParagraph, .inr rfl, ?_, stopsSentences_procedureSentences settings _⟩
      rw [procedureParagraph, trees_headed _ flat_paragraphHeader]
      rfl
    · rename_i noParagraph
      refine .inl ⟨?_, Bool.eq_false_iff.mpr noSection, Bool.eq_false_iff.mpr noParagraph⟩
      rw [(gathered_sentence _ _ _ cursor).trees]
      rfl

theorem procedureRound_eq (cursor : Cursor) :
    procedureRound settings cursor =
      let lead := trivia .procedureDivision cursor
      lead.andThen (if lead.next.atUnitBoundary then .still (.done ()) lead.next
        else (procedurePart settings lead.next).withValue (.yield ())) := by
  rw [procedureRound_apply]
  simp only [procedurePart]
  split_ifs <;> rfl

/-- The nodes right in the body of a division are sentences and, behind them, blocks; where no
sentence can follow, they are blocks alone. -/
theorem kindsOf_procedureBody (cursor : Cursor) :
    Kind.SentencesFirst (kindsOf (procedureBody settings cursor).trees) ∧
      (stopsSentences settings cursor = true →
        ∀ kind ∈ kindsOf (procedureBody settings cursor).trees, kind.IsBlock) := by
  have blanks (cursor : Cursor) : kindsOf (trivia .procedureDivision cursor).trees = [] := by
    rw [(flat_trivia _ cursor).trees, kindsOf_row]
  rw [procedureBody, rounds_eq_repeating .procedureDivision
    (fun _ => faithful_procedureRound settings) (advances_procedureRound settings)]
  apply repeating_induction
    (motive := fun cursor outcome => Kind.SentencesFirst (kindsOf outcome.trees) ∧
      (stopsSentences settings cursor = true → ∀ kind ∈ kindsOf outcome.trees, kind.IsBlock))
    (fun _ => faithful_procedureRound settings) (advances_procedureRound settings) ?last ?goesOn
  case last =>
    intro _ cursor final done
    have none : kindsOf (procedureRound settings cursor).trees = [] := by
      rw [procedureRound_eq] at done ⊢
      simp only at done ⊢
      split at done
      · rename_i boundary
        rw [if_pos boundary, Outcome.trees_andThen, Outcome.trees_still, List.append_nil, blanks]
      · cases done
    rw [Outcome.trees_withValue, none]
    exact ⟨Kind.sentencesFirst_of_blocks (List.forall_mem_nil _), fun _ => List.forall_mem_nil _⟩
  case goesOn =>
    intro _ cursor next outcome yields later
    obtain ⟨first, blocks⟩ := later
    have round := procedureRound_eq settings cursor
    simp only at round
    by_cases boundary : (trivia .procedureDivision cursor).next.atUnitBoundary = true
    · rw [if_pos boundary] at round
      rw [round] at yields
      cases yields
    rw [if_neg boundary] at round
    rw [round, Outcome.next_andThen, Outcome.next_withValue] at blocks
    rw [round, Outcome.trees_andThen, Outcome.trees_andThen, kindsOf_append, kindsOf_append, blanks,
      Outcome.trees_withValue, List.nil_append]
    rcases kindsOf_procedurePart settings (trivia .procedureDivision cursor).next with
      ⟨kinds, noSection, noParagraph⟩ | ⟨kind, isBlock, kinds, stops⟩
    · rw [kinds]
      refine ⟨first.behind, fun stops => ?_⟩
      simp [stopsSentences, boundary, noSection, noParagraph] at stops
    · rw [kinds]
      have all := List.forall_mem_cons.mpr ⟨isBlock, blocks stops⟩
      exact ⟨Kind.sentencesFirst_of_blocks all, fun _ => all⟩

/-- The nodes in a PROCEDURE DIVISION are those in its body and the division itself. -/
theorem originates_procedureDivision (cursor : Cursor) :
    (Production.division settings .procedure cursor).Originates
      (fun kind place part => kind = .procedureDivision ∨ ProcedureOrigin settings kind place part)
      cursor := by
  rw [division_procedure_eq]
  have header := flat_divisionHeader .procedure cursor
  have body : (procedureBody settings (divisionHeader .procedure cursor).next).Originates
      (fun kind place part => kind = .procedureDivision ∨ ProcedureOrigin settings kind place part)
      (divisionHeader .procedure cursor).next :=
    (originates_procedureBody settings _).mono fun _ _ _ => Or.inr
  have inside := Outcome.Originates.andThen header.faithful header.originates body
  have faithful := header.faithful.andThen (faithful_procedureBody settings _)
  exact Outcome.Originates.under inside (faithful.withValue none) (.inl rfl)

/-! ### Blocks and their headings -/

section Blocks

variable {settings}

theorem beginSection_sectionHeader {cursor : Cursor} (h : cursor.atSectionHeader = true) :
    Lexeme.beginWith Lexeme.beginSection
      (Lexeme.significant (Token.lexemes (sectionHeader cursor).tokens)) = true := by
  obtain ⟨name, word, rest, first, isName, isSection⟩ := opensSection_sectionHeader h
  refine Lexeme.beginWith_iff.mpr ⟨name, word, rest, first, ?_⟩
  rw [Lexeme.beginSection, isName, isSection]
  rfl

theorem beginParagraph_paragraphHeader {cursor : Cursor}
    (h : cursor.atParagraphHeader settings = true) :
    Lexeme.beginWith (Lexeme.beginParagraph settings)
      (Lexeme.significant (Token.lexemes (paragraphHeader cursor).tokens)) = true := by
  obtain ⟨name, period, ahead, passes⟩ := Cursor.atParagraphHeader_iff.mp h
  have isPeriod : (period.kind == .dot) = true := by
    simp only [Bool.and_eq_true] at passes
    exact passes.1.2
  rw [significant_paragraphHeader ahead isPeriod]
  exact passes

theorem hasHeading_procedureSection {cursor : Cursor} (h : cursor.atSectionHeader = true)
    {node : LocatedTree} (located : (procedureSection settings cursor).located cursor = [node]) :
    Procedure.HasHeading Lexeme.beginSection node := by
  rw [Outcome.located, procedureSection, trees_headed _ flat_sectionHeader] at located
  obtain rfl := (List.cons.inj located).1
  refine Procedure.hasHeading_headed (beginSection_sectionHeader h) (fun name word passes => ?_) _ _ _
  exact eq_of_beq (Bool.and_eq_true_iff.mp passes).1

theorem hasHeading_procedureParagraph {cursor : Cursor}
    (h : cursor.atParagraphHeader settings = true) {node : LocatedTree}
    (located : (procedureParagraph settings cursor).located cursor = [node]) :
    Procedure.HasHeading (Lexeme.beginParagraph settings) node := by
  rw [Outcome.located, procedureParagraph, trees_headed _ flat_paragraphHeader] at located
  obtain rfl := (List.cons.inj located).1
  refine Procedure.hasHeading_headed (beginParagraph_paragraphHeader h)
    (fun name period passes => ?_) _ _ _
  exact eq_of_beq (Bool.and_eq_true_iff.mp (Bool.and_eq_true_iff.mp passes).1).1

theorem ProcedureOrigin.of_section {kind : Kind} {place : Cursor} {part : Outcome Unit}
    (h : ProcedureOrigin settings kind place part) (same : kind = .procedureSection) :
    place.atSectionHeader = true ∧ part = procedureSection settings place := by
  cases h with
  | «section» _ heading => exact ⟨heading, rfl⟩
  | _ => cases same

theorem ProcedureOrigin.of_paragraph {kind : Kind} {place : Cursor} {part : Outcome Unit}
    (h : ProcedureOrigin settings kind place part) (same : kind = .procedureParagraph) :
    place.atParagraphHeader settings = true ∧ part = procedureParagraph settings place := by
  cases h with
  | paragraph _ heading => exact ⟨heading, rfl⟩
  | _ => cases same

theorem ProcedureOrigin.of_sentence {kind : Kind} {place : Cursor} {part : Outcome Unit}
    (h : ProcedureOrigin settings kind place part) (same : kind = .sentence) :
    place.atSectionHeader = false ∧ place.atParagraphHeader settings = false := by
  cases h with
  | sentence _ noSection noParagraph => exact ⟨noSection, noParagraph⟩
  | _ => cases same

end Blocks

end Production

/-! ### Whole texts -/

/-- In a PROCEDURE DIVISION of a text, headings tell sections and paragraphs from sentences. -/
structure Procedure.TellsHeadings (settings : Settings) (text : Text) (division : LocatedTree) :
    Prop where
  /-- The sentences right below the division stand before its first section or paragraph. -/
  ordered : ∃ sentences blocks, division.childNodes = sentences ++ blocks ∧
    (∀ node ∈ sentences, LocatedTree.kind node = .sentence) ∧
      ∀ node ∈ blocks, isSection node = true ∨ isParagraph node = true
  sections : ∀ node ∈ division.nodes, isSection node = true →
    HasHeading Lexeme.beginSection node
  paragraphs : ∀ node ∈ division.nodes, isParagraph node = true →
    HasHeading (Lexeme.beginParagraph settings) node
  /-- No sentence begins as a section or a paragraph does. -/
  sentences : ∀ node ∈ division.nodes, LocatedTree.kind node = .sentence →
    ∃ place ∈ text.cursorAt? (LocatedTree.range node).start,
      place.opens Lexeme.beginSection = false ∧
        place.opens (Lexeme.beginParagraph settings) = false

namespace Parsed

open Production

variable (settings : Settings) (text : Text)

/-- Every node below a PROCEDURE DIVISION comes from where a part of the division was called for. -/
theorem exists_procedureOrigin {division node : LocatedTree}
    (mem : division ∈ procedures [(ofText settings text).tree.locate])
    (below : node ∈ division.nodes) (inner : LocatedTree.kind node ≠ .procedureDivision) :
    ∃ reports place part, Outcome.IsMadeAt (.start text) reports node place part ∧
      ProcedureOrigin settings (LocatedTree.kind node) place part := by
  obtain ⟨among, kind⟩ := mem_procedures mem
  obtain ⟨start, whole, made, origin⟩ := exists_origin settings text among (by rw [kind]; decide)
  obtain ⟨-, rfl⟩ := origin.of_division kind
  obtain ⟨before, reads⟩ := made.reached
  have within : node ∈ Tree.nodesOf
      ((Production.division settings .procedure start).located start) := by
    have located : (Production.division settings .procedure start).located start = [division] :=
      made.located
    rwa [located, Tree.nodesOf, Tree.nodesOf, List.append_nil]
  obtain ⟨place, part, madeHere, other | origin⟩ :=
    originates_procedureDivision settings start node within
  · exact absurd other inner
  · exact ⟨_, place, part, madeHere.behind reads (List.Subset.refl _), origin⟩

/-- The nodes right below a PROCEDURE DIVISION are those right in its body. -/
theorem map_kind_procedureDivision {division : LocatedTree}
    (mem : division ∈ procedures [(ofText settings text).tree.locate]) :
    ∃ cursor, division.childNodes.map LocatedTree.kind =
      kindsOf (procedureBody settings cursor).trees := by
  obtain ⟨among, kind⟩ := mem_procedures mem
  obtain ⟨place, -, located⟩ := exists_place settings text among kind
  rw [division_procedure_eq] at located
  obtain rfl := (List.cons.inj located).1
  refine ⟨(divisionHeader .procedure place).next, ?_⟩
  rw [locateAt, map_kind_childNodes, Outcome.trees_withValue, Outcome.trees_andThen,
    (flat_divisionHeader .procedure place).trees, kindsOf_append, kindsOf_row, List.nil_append]

/-- In every PROCEDURE DIVISION of every text, headings tell sections and paragraphs from
sentences. -/
theorem tellsHeadings_ofText {division : LocatedTree}
    (mem : division ∈ procedures [(ofText settings text).tree.locate]) :
    Procedure.TellsHeadings settings text division := by
  have origin (node : LocatedTree) (below : node ∈ division.nodes)
      (inner : LocatedTree.kind node ≠ .procedureDivision) :=
    exists_procedureOrigin settings text mem below inner
  constructor
  case ordered =>
    obtain ⟨cursor, kinds⟩ := map_kind_procedureDivision settings text mem
    obtain ⟨first, behind, split, sentences, blocks⟩ := (kindsOf_procedureBody settings cursor).1
    obtain ⟨front, others, children, rfl, rfl⟩ := List.map_eq_append_iff.mp (kinds.trans split)
    refine ⟨front, others, children, fun node mem => ?_, fun node mem => ?_⟩
    · exact sentences _ (List.mem_map_of_mem mem)
    · exact (blocks _ (List.mem_map_of_mem mem)).imp beq_iff_eq.mpr beq_iff_eq.mpr
  case sections =>
    intro node below isSection
    have kind : LocatedTree.kind node = .procedureSection := eq_of_beq isSection
    obtain ⟨reports, place, part, made, from_⟩ := origin node below (by rw [kind]; decide)
    obtain ⟨heading, rfl⟩ := from_.of_section kind
    exact hasHeading_procedureSection heading made.located
  case paragraphs =>
    intro node below isParagraph
    have kind : LocatedTree.kind node = .procedureParagraph := eq_of_beq isParagraph
    obtain ⟨reports, place, part, made, from_⟩ := origin node below (by rw [kind]; decide)
    obtain ⟨heading, rfl⟩ := from_.of_paragraph kind
    exact hasHeading_procedureParagraph heading made.located
  case sentences =>
    intro node below kind
    obtain ⟨reports, place, part, made, from_⟩ := origin node below (by rw [kind]; decide)
    obtain ⟨noSection, noParagraph⟩ := from_.of_sentence kind
    refine ⟨place, made.cursorAt?_start, ?_, ?_⟩
    · rw [Cursor.opens_eq_atSectionHeader, noSection]
    · rw [Cursor.opens_eq_atParagraphHeader, noParagraph]

/-- A sentence that is a verb and a period, and two blocks whose headings have comments in them. -/
theorem tellsHeadings_main :
    let text : Text :=
      "PROCEDURE DIVISION. EXIT.\nMAIN *> first\n section. STOP RUN. Done *> last\n. EXIT.".toList
    ∃ division ∈ procedures [(ofText .standard text).tree.locate],
      Procedure.TellsHeadings .standard text division ∧
        division.childNodes.map (fun node => (LocatedTree.kind node, Procedure.name? node)) =
          [(.sentence, some "EXIT".toList), (.procedureSection, some "MAIN".toList),
            (.procedureParagraph, some "Done".toList)] := by
  intro text
  obtain ⟨division, mem, names⟩ : ∃ division ∈ procedures [(ofText .standard text).tree.locate],
      division.childNodes.map (fun node => (LocatedTree.kind node, Procedure.name? node)) =
        [(.sentence, some "EXIT".toList), (.procedureSection, some "MAIN".toList),
          (.procedureParagraph, some "Done".toList)] := by decide +kernel
  exact ⟨division, mem, tellsHeadings_ofText .standard text mem, names⟩

end Parsed

end CobolTree
