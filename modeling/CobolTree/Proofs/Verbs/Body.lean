import CobolTree.Proofs.Tree.Headed
import CobolTree.Proofs.Verbs.Header
import CobolTree.View.Procedure

/-!
The body of a PROCEDURE DIVISION, read off from its heads. Sections and paragraphs are read from
their headers on like the division itself: the sentences in them, and what follows them, are what
the division would read there (`procedureSentences_andThen`). So a body opens with a node behind a
head, the header of a block or a whole sentence, and goes on as a body (`Opens`).
-/

namespace CobolTree

namespace Production

open SourceTree

variable {settings : Settings}

/-! ### Bodies from token to token -/

/-- A PROCEDURE DIVISION is its header and its body. -/
theorem division_procedure_eq (settings : Settings) (cursor : Cursor) :
    division settings .procedure cursor =
      let header := divisionHeader .procedure cursor
      ((header.andThen (procedureBody settings header.next)).withValue none).under
        .procedureDivision := by
  simp [division, node, divisionBody, Division.kind]

/-- Behind blanks and comments there are no more of them. -/
theorem trivia_trivia (context : Context) (cursor : Cursor) :
    trivia context (trivia context cursor).next = .still () (trivia context cursor).next := by
  have next := next?_trivia context cursor
  cases found : cursor.significant? context with
  | none => exact trivia_of_end (next.trans found)
  | some read =>
      exact trivia_of_carries (next.trans found) (Cursor.isTrivia_of_significant? found)

/-- What stands at a token of the division: a section, a paragraph or a sentence. -/
def procedurePart (settings : Settings) (cursor : Cursor) : Outcome Unit :=
  if cursor.atSectionHeader then procedureSection settings cursor
  else if cursor.atParagraphHeader settings then procedureParagraph settings cursor
  else sentence .sentence .sentence false cursor

/-- The body from a token on: what stands there, before a body. -/
def procedureRest (settings : Settings) (cursor : Cursor) : Outcome Unit :=
  let part := procedurePart settings cursor
  part.andThen (procedureBody settings part.next)

/-- A body is blanks, and what stands behind them unless the division ends there. -/
theorem procedureBody_eq (settings : Settings) (cursor : Cursor) :
    procedureBody settings cursor =
      let lead := trivia .procedureDivision cursor
      lead.andThen (if lead.next.atUnitBoundary then .still () lead.next
        else procedureRest settings lead.next) := by
  have loop := rounds_eq_repeating .procedureDivision
    (fun _ => faithful_procedureRound settings) (advances_procedureRound settings) ()
  have round := procedureRound_apply settings cursor
  rw [procedureBody, loop, repeating_eq (fun _ => faithful_procedureRound settings)
    (advances_procedureRound settings)]
  simp only [round, procedureRest, procedurePart, procedureBody, loop]
  split_ifs <;> simp [Outcome.andThen_assoc]

/-- Sentences are blanks, and a sentence before sentences unless they end there. -/
theorem procedureSentences_eq (settings : Settings) (cursor : Cursor) :
    procedureSentences settings cursor =
      let lead := trivia .procedureDivision cursor
      lead.andThen
        (if lead.next.atUnitBoundary || lead.next.atSectionHeader ||
            lead.next.atParagraphHeader settings then .still () lead.next
        else (sentence .sentence .sentence false lead.next).andThen
          (procedureSentences settings (sentence .sentence .sentence false lead.next).next)) := by
  have loop := rounds_eq_repeating .procedureDivision
    (fun _ => faithful_procedureSentenceRound settings)
    (advances_procedureSentenceRound settings) ()
  have round := procedureSentenceRound_apply settings cursor
  rw [procedureSentences, loop, repeating_eq (fun _ => faithful_procedureSentenceRound settings)
    (advances_procedureSentenceRound settings)]
  simp only [round]
  split_ifs <;> simp [Outcome.andThen_assoc]

/-- Blanks and comments before a body are part of it. -/
theorem procedureBody_trivia (settings : Settings) (cursor : Cursor) :
    (trivia .procedureDivision cursor).andThen
        (procedureBody settings (trivia .procedureDivision cursor).next) =
      procedureBody settings cursor := by
  rw [procedureBody_eq settings cursor, procedureBody_eq settings (trivia _ cursor).next,
    trivia_trivia]
  rfl

theorem shorter_sentence {cursor : Cursor} (atToken : cursor.AtToken) :
    (sentence .sentence .sentence false cursor).next.rest.length < cursor.rest.length :=
  (gathered_sentence _ _ _ cursor).reads.shorter (carries_sentence atToken (.inr rfl) _ _).consumes

/-- The sentences of a block with the body behind them are the body that stands where the sentences
begin. -/
theorem procedureSentences_andThen (settings : Settings) (cursor : Cursor) :
    (procedureSentences settings cursor).andThen
        (procedureBody settings (procedureSentences settings cursor).next) =
      procedureBody settings cursor := by
  have sentences := procedureSentences_eq settings cursor
  have body := procedureBody_eq settings cursor
  have blanks := procedureBody_trivia settings cursor
  have less := trivia_length_le .procedureDivision cursor
  have goesOn (inside : ¬(trivia .procedureDivision cursor).next.atUnitBoundary = true) :=
    atToken_of_not_atUnitBoundary rfl inside
  simp only at sentences body
  generalize trivia .procedureDivision cursor = lead at sentences body blanks less goesOn
  by_cases stops : (lead.next.atUnitBoundary || lead.next.atSectionHeader ||
      lead.next.atParagraphHeader settings) = true
  · rw [if_pos stops, Outcome.andThen_still] at sentences
    rw [sentences]
    exact blanks
  · obtain ⟨inside, noSection, noParagraph⟩ : lead.next.atUnitBoundary = false ∧
        lead.next.atSectionHeader = false ∧ lead.next.atParagraphHeader settings = false := by
      simpa [and_assoc] using stops
    have atToken := goesOn (Bool.eq_false_iff.mp inside)
    have rest : procedureRest settings lead.next =
        (sentence .sentence .sentence false lead.next).andThen
          (procedureBody settings (sentence .sentence .sentence false lead.next).next) := by
      simp [procedureRest, procedurePart, noSection, noParagraph]
    have shorter : (sentence .sentence .sentence false lead.next).next.rest.length <
        cursor.rest.length :=
      Nat.lt_of_lt_of_le (shorter_sentence atToken) less
    rw [if_neg stops] at sentences
    rw [if_neg (Bool.eq_false_iff.mp inside), rest] at body
    rw [sentences, body, Outcome.andThen_assoc, Outcome.andThen_assoc]
    have behind := procedureSentences_andThen settings
      (sentence .sentence .sentence false lead.next).next
    exact congrArg (fun rest => lead.andThen
      ((sentence .sentence .sentence false lead.next).andThen rest)) behind
termination_by cursor.rest.length

/-! ### What a body opens with -/

/-- The outcome opens with a node behind a head, in which the head comes first, and goes on as
another outcome would, part of it in the node. -/
structure Opens (kind : Kind) (head rest whole : Outcome Unit) : Prop where
  retraces : (head.andThen rest).Retraces whole
  trees : ∃ inner outer, inner ++ outer = rest.trees ∧
    whole.trees = .node kind (row (Token.lexemes head.tokens) ++ inner) :: outer ∧
      Among (fun tree => tree.isNode = true) inner ∧ (kind = .sentence → inner = [])

/-- A block before a body: its header before the body that stands behind that. -/
theorem opens_block {kind : Kind} (other : kind ≠ .sentence) {header : Production Unit}
    (flat : Flat header) (settings : Settings) (cursor : Cursor) :
    let head := header cursor
    let block := node kind (header >>= fun _ => procedureSentences settings) cursor
    Opens kind head (procedureBody settings head.next)
      (block.andThen (procedureBody settings block.next)) := by
  intro head block
  let inner := procedureSentences settings head.next
  have flattened := procedureSentences_andThen settings head.next
  have same : (head.andThen inner).andThen (procedureBody settings inner.next) =
      head.andThen (procedureBody settings head.next) := by
    rw [Outcome.andThen_assoc, flattened]
  constructor
  · rw [← same]
    exact ⟨rfl, rfl, rfl⟩
  · refine ⟨inner.trees, (procedureBody settings inner.next).trees, ?_, ?_, ?_, ?_⟩
    · exact congrArg Outcome.trees flattened
    · rw [Outcome.trees_andThen, trees_headed kind flat]
      rfl
    · exact (among_procedureSentences settings head.next).mono fun tree plain => plain.isNode
    · intro isSentence
      exact absurd isSentence other

section Rest

variable (settings : Settings) {cursor : Cursor}

theorem opens_section (h : cursor.atSectionHeader = true) :
    Opens .procedureSection (sectionHeader cursor)
      (procedureBody settings (sectionHeader cursor).next) (procedureRest settings cursor) := by
  have part : procedurePart settings cursor = procedureSection settings cursor := if_pos h
  rw [procedureRest, part]
  exact opens_block (by decide) flat_sectionHeader settings cursor

variable (noSection : ¬cursor.atSectionHeader = true)

include noSection

theorem opens_paragraph (h : cursor.atParagraphHeader settings = true) :
    Opens .procedureParagraph (paragraphHeader cursor)
      (procedureBody settings (paragraphHeader cursor).next) (procedureRest settings cursor) := by
  have part : procedurePart settings cursor = procedureParagraph settings cursor := by
    rw [procedurePart, if_neg noSection, if_pos h]
  rw [procedureRest, part]
  exact opens_block (by decide) flat_paragraphHeader settings cursor

theorem opens_sentence (noParagraph : ¬cursor.atParagraphHeader settings = true) :
    let head := sentence .sentence .sentence false cursor
    Opens .sentence head (procedureBody settings head.next) (procedureRest settings cursor) := by
  intro head
  have part : procedurePart settings cursor = head := by
    rw [procedurePart, if_neg noSection, if_neg noParagraph]
  rw [procedureRest, part]
  refine ⟨.refl _, [], (procedureBody settings head.next).trees, rfl, ?_, among_nil _, fun _ => rfl⟩
  rw [Outcome.trees_andThen, (gathered_sentence _ _ _ cursor).trees, List.append_nil]
  rfl

end Rest

/-! ### Heads leave less text -/

section Shorter

variable {cursor : Cursor} (atToken : cursor.AtToken)

include atToken

theorem shorter_sectionHeader : (sectionHeader cursor).next.rest.length < cursor.rest.length :=
  (flat_sectionHeader cursor).reads.shorter
    (carries_andThen_left (carries_bumpSignificant atToken rfl) _).consumes

theorem shorter_paragraphHeader : (paragraphHeader cursor).next.rest.length < cursor.rest.length :=
  (flat_paragraphHeader cursor).reads.shorter
    (carries_andThen_left (carries_bumpSignificant atToken rfl) _).consumes

end Shorter

end Production

end CobolTree
