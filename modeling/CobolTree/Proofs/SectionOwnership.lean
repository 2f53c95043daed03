import CobolTree.Proofs.Conversion.Rereading
import CobolTree.Proofs.Conversion.Sections
import CobolTree.Proofs.Production.Divisions
import CobolTree.Proofs.Verbs.Forest

/-!
Sections and the paragraphs that they own. A PROCEDURE DIVISION is told twice: by the view of its
tree, which looks for each section and takes the paragraphs behind it, and by its rule, which
collects them on the way. Main statement (`Analysis.ownsAlike`): in every analysed text both have
the same sections in the same order, the same paragraphs in each of them and the same paragraphs
before the first, by the names of all of these; and each paragraph of the division is found once.

A section is looked for among its siblings by what it is, so it matters that no two of them are the
same: each takes bytes of its own (`nodup_childNodes`), so what is found behind a section is what
stands behind it (`ownership_eq`).
-/

namespace CobolTree

open Conversion LocatedTree Procedure SourceTree
open List (Forall₂)

/-! ### Trees that are found where they stand -/

namespace LocatedTree

/-- In a row without repetition, each tree is found where it stands. -/
theorem occurrences_eq_withRest {row : List LocatedTree} (distinct : row.Nodup) :
    occurrences row = withRest row := by
  have here : ∀ entry ∈ withRest row, row.dropWhile (· ≠ entry.1) = entry.1 :: entry.2 := by
    intro entry mem
    obtain ⟨before, split⟩ := exists_split_of_mem_withRest mem
    have fresh : ∀ other ∈ before, decide (other ≠ entry.1) = true := by
      intro other inside
      rw [split] at distinct
      have := (List.nodup_append.mp distinct).2.2 other inside entry.1 List.mem_cons_self
      simpa using this
    rw [split, List.dropWhile_append_of_pos fresh, List.dropWhile_cons_of_neg (by simp)]
  calc occurrences row = (withRest row).map id := List.map_congr_left fun entry mem => by
        simp only [here entry mem, List.drop_one, List.tail_cons, ite_self, id]
    _ = withRest row := List.map_id _

/-- Trees that lie one behind another and take bytes are no two the same. -/
theorem nodup_of_apart {row : List LocatedTree}
    (apart : row.Pairwise fun first second =>
      (LocatedTree.range first).stop ≤ (LocatedTree.range second).start)
    (room : ∀ tree ∈ row, (LocatedTree.range tree).start < (LocatedTree.range tree).stop) :
    row.Nodup := by
  refine List.Pairwise.imp_of_mem (fun {first second} mem _ order => ?_) apart
  rintro rfl
  have := room first mem
  omega

end LocatedTree

/-! ### Paragraphs by their owners -/

namespace Procedure

/-- The paragraphs of a row are those before its first section and then, section by section, those
between it and the next. -/
theorem paragraphs_eq_owned (row : List LocatedTree) :
    (row.takeWhile (!isSection ·)).filter (isParagraph ·) ++
        (sectionsIn row).flatMap (fun entry =>
          (entry.2.takeWhile (!isSection ·)).filter (isParagraph ·)) =
      row.filter (isParagraph ·) := by
  induction row with
  | nil => rfl
  | cons node rest ih =>
      by_cases begins : isSection node = true
      · have other : isParagraph node = false := by
          rw [isParagraph, eq_of_beq begins]
          rfl
        rw [List.takeWhile_cons_of_neg (by simp [begins]), sectionsIn_cons_of_section begins,
          List.flatMap_cons, List.filter_cons_of_neg (by simp [other]), ← ih]
        rfl
      · have goes : isSection node = false := by simpa using begins
        rw [List.takeWhile_cons_of_pos (by simp [goes]), sectionsIn_cons_of_not_section goes]
        by_cases paragraph : isParagraph node = true
        · rw [List.filter_cons_of_pos paragraph, List.filter_cons_of_pos paragraph,
            List.cons_append, ih]
        · rw [List.filter_cons_of_neg paragraph, List.filter_cons_of_neg paragraph, ih]

/-- Where no two parts of a division are the same, a section owns what stands behind it. -/
theorem ownership_eq {division : LocatedTree} (distinct : division.childNodes.Nodup) :
    ownership division = (sectionsIn division.childNodes).map fun entry =>
      (entry.1, (entry.2.takeWhile (!isSection ·)).filter (isParagraph ·)) := by
  rw [ownership, occurrences_eq_withRest distinct]
  rfl

end Procedure

/-! ### Parsed divisions -/

namespace SourceTree

/-- A section or a paragraph goes by the word that its header begins with. -/
theorem IsBlock.isNamed {tree : SourceTree} (h : IsBlock tree) (start : Nat) :
    IsNamed (locateAt start tree) := by
  obtain ⟨kind, header, body, name, rest, rfl, first, isName⟩ : ∃ kind header body name rest,
      tree = .node kind (row header ++ body) ∧ Lexeme.significant header = name :: rest ∧
        name.kind = .word := by
    cases h with
    | @«section» header body opens sentences =>
        obtain ⟨name, word, rest, first, isName, -⟩ := opens
        exact ⟨_, header, body, name, _, rfl, first, isName⟩
    | @paragraph header body opens sentences =>
        obtain ⟨name, period, both, isName, -⟩ := opens
        exact ⟨_, header, body, name, _, rfl, both, isName⟩
  have lexemes := significant_row start header
  rw [first] at lexemes
  obtain ⟨token, others, tokens, rfl, -⟩ := List.map_eq_cons_iff.mp lexemes
  refine ⟨token, ?_⟩
  rw [nameToken?, locateAt, ownTokens_append_row, tokens]
  simp [isName]

theorem IsEntry.significant_ne_nil {tree : SourceTree} (h : IsEntry .procedure tree) :
    Lexeme.significant tree.leaves ≠ [] := by
  rcases h with plain | block
  · cases plain with
    | of carries => simpa [Tree.leaves] using carries
  · obtain ⟨kind, header, body, rfl, -, carries, -⟩ := block.exists_header
    simp [Tree.leaves, carries]

/-- The parts of a PROCEDURE DIVISION lie apart, and its sections and paragraphs go by names. -/
theorem parts_procedureDivision {tree : SourceTree} (conforms : IsDivision .procedure tree)
    (legible : ∀ lexeme ∈ tree.leaves, lexeme.Legible) (start : Nat) :
    (Tree.childNodes (locateAt start tree)).Nodup ∧
      ∀ node ∈ Tree.childNodes (locateAt start tree),
        isSection node = true ∨ isParagraph node = true → IsNamed node := by
  cases conforms with
  | @of header body opens entries =>
      have below : Legible body := fun lexeme mem =>
        legible lexeme (by simp [Tree.leaves, mem])
      rw [locateAt, childNodes_headed]
      -- every node behind the header is an entry, at its place
      have entry : ∀ node ∈ (locateAllAt (start + (Lexeme.textOf header).byteLength) body).filter
          Tree.isNode, ∃ place tree, node = locateAt place tree ∧ IsEntry .procedure tree ∧
            ∀ lexeme ∈ tree.leaves, lexeme.Legible := by
        intro node mem
        obtain ⟨inside, isNode⟩ := List.mem_filter.mp mem
        obtain ⟨before, tree, after, rfl, rfl⟩ := exists_split_of_mem inside
        rcases entries tree (by simp) with ⟨lexeme, rfl, -⟩ | entry
        · cases isNode
        · exact ⟨_, tree, rfl, entry, (legible_cons.mp (legible_append.mp below).2).1⟩
      constructor
      · refine nodup_of_apart ((pairwise_locateAllAt _ body).filter _) fun node mem => ?_
        obtain ⟨place, tree, rfl, entry, legible⟩ := entry node mem
        have room := room_of_legible legible entry.significant_ne_nil
        rw [range_locateAt]
        simp only [Range.ofText]
        omega
      · intro node mem isBlock
        obtain ⟨place, tree, rfl, plain | block, -⟩ := entry node mem
        · cases plain with
          | of _ => rcases isBlock with other | other <;> cases other
        · exact block.isNamed place

end SourceTree

/-! ### Whole texts -/

/-- The sections of a division and its rule own the same paragraphs. -/
structure Procedure.OwnsAlike (stream : Stream) (division : LocatedTree) (rule : RuleTree) :
    Prop where
  /-- The paragraphs before the first section and those that the sections own are all paragraphs of
  the division, in order, -/
  whole : standaloneParagraphs division ++ (ownership division).flatMap (·.2) = paragraphs division
  /-- and each of them once. -/
  once : (paragraphs division).Nodup
  owners : (ownership division).map (·.1) = sections division
  /-- The paragraphs right in the rule are those before the first section. -/
  alone : Forall₂ (TellsParagraph stream) (standaloneParagraphs division) (rule.rulesOf .paragraph)
  /-- The rule has a section for each section, with the paragraphs that the section owns. -/
  owned : Forall₂ (TellsSection stream) (ownership division) (rule.rulesOf .procedureSection)

namespace Analysis

/-- Every PROCEDURE DIVISION has its rule in the rule tree, and both own paragraphs alike. -/
def OwnsAlike (stream : Stream) (analysis : Analysis) : Prop :=
  ∀ division ∈ procedures [analysis.parsed.tree.locate],
    ∃ rule ∈ analysis.adapted.tree.nodes, procedure stream division = .ok rule ∧
      Procedure.OwnsAlike stream division rule

theorem ownsAlike_procedure {settings : Settings} {text : Text} {division : LocatedTree}
    (mem : division ∈ procedures [(Parsed.ofText settings text).tree.locate]) {stream : Stream}
    {rule : RuleTree} (converted : procedure stream division = .ok rule) :
    Procedure.OwnsAlike stream division rule := by
  obtain ⟨among, kind⟩ := mem_procedures mem
  obtain ⟨place, tree, header, trees, rfl, leaves⟩ :=
    Parsed.exists_division settings text among kind
  obtain ⟨same, only, conforms⟩ := Production.isDivision_division settings header
  obtain rfl : tree = same := (List.cons.inj (trees.symm.trans only)).1
  have legible : ∀ lexeme ∈ tree.leaves, lexeme.Legible := by
    rw [leaves]
    exact (Production.faithful_division settings .procedure place).reads.legible
  obtain ⟨distinct, named⟩ := parts_procedureDivision conforms legible place.position.index
  obtain ⟨alone, owned⟩ := tells_procedure converted named
  have owns := ownership_eq distinct
  constructor
  case whole =>
    rw [owns, List.flatMap_map]
    exact paragraphs_eq_owned _
  case once => exact distinct.filter _
  case owners => exact map_fst_ownership _
  case alone => exact alone
  case owned =>
    rw [owns, List.forall₂_map_left_iff]
    exact owned

theorem ownsAlike_ofStream (settings : Settings) (stream : Stream) :
    ∃ analysis, ofStream settings stream = .ok analysis ∧ analysis.OwnsAlike stream := by
  obtain ⟨analysis, analysed, parsed, contexts⟩ := exists_contexts settings stream
  refine ⟨analysis, analysed, fun division mem => ?_⟩
  obtain ⟨among, kind⟩ := mem_procedures mem
  obtain ⟨rule, reports, converted, found⟩ := contexts .procedure division among kind
  rw [Tree.nodesOf, Tree.nodesOf, List.append_nil] at found
  have rules := procedure_of_division converted
  rw [parsed] at mem
  exact ⟨rule, found, rules, ownsAlike_procedure mem rules⟩

/-- In every analysed text and in every expanded text, the rule of a PROCEDURE DIVISION has the
sections of the division, with the paragraphs that they own. -/
theorem ownsAlike (settings : Settings) :
    (∀ text, ∃ analysis, ofText settings text = .ok analysis ∧
      analysis.OwnsAlike (.ofText text)) ∧
    ∀ document, ∃ analysis, ofDocument settings document = .ok analysis ∧
      analysis.OwnsAlike (.ofDocument document) :=
  ⟨fun text => ownsAlike_ofStream settings (.ofText text),
    fun document => ownsAlike_ofStream settings (.ofDocument document)⟩

-- a paragraph before the first section, a section without paragraphs, and a name that comes twice
example :
    let text : Text := ("PROCEDURE DIVISION. P. EXIT. A SECTION. EXIT. B SECTION. P. EXIT. " ++
      "P. EXIT. A SECTION. Q. EXIT.").toList
    (procedures [(Parsed.ofText .standard text).tree.locate]).map (fun division =>
        ((standaloneParagraphs division).map (name? ·),
          (ownership division).map fun entry => (name? entry.1, entry.2.map (name? ·)))) =
      [([some "P".toList], [(some "A".toList, []),
        (some "B".toList, [some "P".toList, some "P".toList]),
        (some "A".toList, [some "Q".toList])])] := by decide +kernel

end Analysis

end CobolTree
