import CobolTree.Proofs.Production.FreeText

/-!
Free text in the tree of a text. The lines of a paragraph of free text are taken as they are, yet
none of them begins where, read as words, the text goes on with a division, a trailer or another
paragraph of the IDENTIFICATION DIVISION; and the paragraph stops before one of these, or where
nothing is left but blanks and comments (`Parsed.FreeTextEnds`). So what follows free text is not
swallowed by it, and nothing else ends it.
-/

namespace CobolTree

open Production

/-- Free text stops here: a division begins, or the trailer of a program, or another paragraph of
the IDENTIFICATION DIVISION. -/
def Cursor.stopsFreeText (cursor : Cursor) : Bool :=
  cursor.opensBoundary || cursor.opens Lexeme.beginIdentificationParagraph

theorem Cursor.stopsFreeText_eq (cursor : Cursor) :
    cursor.stopsFreeText = (cursor.atHeader || cursor.atIdentificationParagraph) := by
  rw [stopsFreeText, opensBoundary_eq_atHeader, opens_eq_atIdentificationParagraph]

namespace Parsed

/-- Paragraphs of free text end where they should. -/
structure FreeTextEnds (text : Text) (parsed : Parsed) : Prop where
  /-- No line of free text begins where free text stops. -/
  inside : ∀ node ∈ parsed.tree.locate.nodes, LocatedTree.kind node = .commentEntryParagraph →
    ∀ leaf ∈ node.leaves, leaf.kind = .commentEntry →
      ∃ place ∈ text.cursorAt? leaf.start, place.stopsFreeText = false
  /-- Behind the paragraph, past blanks and comments, is the end of the text, or what free text stops
  at. -/
  ends : ∀ node ∈ parsed.tree.locate.nodes, LocatedTree.kind node = .commentEntryParagraph →
    ∃ place ∈ text.cursorAt? (LocatedTree.range node).stop,
      place.upcoming = [] ∨ place.stopsFreeText = true

variable (settings : Settings) (text : Text)

theorem exists_freeText {node : LocatedTree} (mem : node ∈ (ofText settings text).tree.locate.nodes)
    (freeText : LocatedTree.kind node = .commentEntryParagraph) : ∃ place,
      place.atIdentificationParagraph = true ∧
        Outcome.IsMadeAt (.start text) (programUnits settings (.start text)).reports node place
          (commentEntryParagraph place) := by
  obtain ⟨place, part, made, origin⟩ := exists_origin settings text mem (by rw [freeText]; decide)
  obtain ⟨heading, rfl⟩ := origin.of_freeText freeText
  exact ⟨place, heading, made⟩

/-- Paragraphs of free text end where they should, in every text. -/
theorem freeTextEnds_ofText : (ofText settings text).FreeTextEnds text := by
  constructor
  case inside =>
    intro node mem freeText leaf within isLine
    obtain ⟨place, heading, made⟩ := exists_freeText settings text mem freeText
    obtain ⟨here, stands, token, -, rfl, admits⟩ :=
      made.exists_place (places_commentEntryParagraph heading) within
    obtain ⟨noHeader, noParagraph⟩ := admits isLine
    refine ⟨here, stands, ?_⟩
    rw [Cursor.stopsFreeText_eq, noHeader, noParagraph]
    rfl
  case ends =>
    intro node mem freeText
    obtain ⟨place, heading, made⟩ := exists_freeText settings text mem freeText
    refine ⟨_, made.cursorAt?_stop, ?_⟩
    rw [Cursor.stopsFreeText_eq, Bool.or_eq_true]
    exact (commentEntryParagraph_end place).imp_left Cursor.upcoming_of_atEnd

/-- The name of a paragraph stops free text if its period follows, be it on another line. -/
example :
    let text : Text :=
      "ID DIVISION. AUTHOR. me,\nINSTALLATION here.\nINSTALLATION *> now\n. There.".toList
    let paragraphs := (ofText .standard text).tree.locate.nodes.filter
      (LocatedTree.kind · == .commentEntryParagraph)
    paragraphs.map (fun node => (node.leaves.filter (·.kind == .commentEntry)).map (·.text)) =
      [["me,".toList, "INSTALLATION here.".toList], ["There.".toList]] := by decide +kernel

end Parsed

end CobolTree
