import CobolTree.Proofs.Production.Progress
import CobolTree.Proofs.Tree.Located

/-!
The parse loses nothing. Productions are faithful, so the tokens of a parse lie one after
another from the beginning of the text, and the last loop of the parser ends at the end of the
text (`atEnd_programUnits`); hence the tree reads as the text and its leaves are the tokens,
each where it was read (`ofText_lossless`). The loops themselves end because the text runs out:
every round that goes on leaves less of it (`loops_end`).
-/

namespace CobolTree

namespace Production

variable {σ : Type}

/-! ### The loops end -/

/-- A round that does not leave its loop leaves less text. -/
def Shrinks (round : σ → Production (ForInStep σ)) : Prop :=
  ∀ state cursor next, (round state cursor).value = .yield next →
    (round state cursor).next.rest.length < cursor.rest.length

theorem Advances.shrinks {round : σ → Production (ForInStep σ)} (advances : Advances round)
    (faithful : ∀ state, Faithful (round state)) : Shrinks round := by
  intro state cursor next h
  exact (faithful state cursor).reads.shorter (advances state cursor next h)

/-- Every loop of the parser ends because its rounds use up the text. The parts of a unit are
no plain loop, since a part can be a unit of its own: every part leaves less text. -/
structure LoopsEnd (settings : Settings) : Prop where
  trivia : ∀ context, Shrinks fun _ : Unit => triviaRound context
  sentence : ∀ context pictures, Shrinks (sentenceRound context pictures)
  headerPhrase : ∀ context, Shrinks fun _ : Unit => headerPhraseRound context
  programAttributes : ∀ context, Shrinks fun _ : Unit => programAttributeRound context
  commentEntry : Shrinks fun _ : Unit => commentEntryRound
  entries : ∀ division pictures,
    Shrinks fun _ : Unit => entryRound (Division.context division) pictures
  identification : Shrinks identificationRound
  procedureSentences : Shrinks fun _ : Unit => procedureSentenceRound settings
  procedure : Shrinks fun _ : Unit => procedureRound settings
  unitParts : ∀ enclosing state cursor, cursor.AtToken →
    (unitStep settings enclosing state cursor).next.rest.length < cursor.rest.length
  programUnits : Shrinks fun _ : Unit => programUnitRound settings

theorem loops_end (settings : Settings) : LoopsEnd settings where
  trivia context :=
    (advances_triviaRound context).shrinks fun _ => (flat_triviaRound context).faithful
  sentence context pictures :=
    (advances_sentenceRound context pictures).shrinks fun state =>
      (flat_sentenceRound context pictures state).faithful
  headerPhrase context :=
    (advances_headerPhraseRound context).shrinks fun _ => (flat_headerPhraseRound context).faithful
  programAttributes context :=
    (advances_programAttributeRound context).shrinks fun _ =>
      (flat_programAttributeRound context).faithful
  commentEntry := advances_commentEntryRound.shrinks fun _ => flat_commentEntryRound.faithful
  entries division pictures :=
    (advances_entryRound (mode_context division) pictures).shrinks fun _ =>
      faithful_entryRound division.context pictures
  identification := advances_identificationRound.shrinks faithful_identificationRound
  procedureSentences :=
    (advances_procedureSentenceRound settings).shrinks fun _ =>
      faithful_procedureSentenceRound settings
  procedure :=
    (advances_procedureRound settings).shrinks fun _ => faithful_procedureRound settings
  unitParts enclosing state cursor atToken :=
    (faithful_unitStep settings enclosing state cursor).reads.shorter
      (carries_unitStep settings enclosing state atToken).consumes
  programUnits :=
    (advances_programUnitRound settings).shrinks fun _ => faithful_programUnitRound settings

/-- The loop over program units is left at the end of the text only. -/
theorem atEnd_programUnits (settings : Settings) (cursor : Cursor) :
    (programUnits settings cursor).next.atEnd = true := by
  have faithful := fun _ : Unit => faithful_programUnitRound settings
  have advances := advances_programUnitRound settings
  rw [programUnits, rounds_eq_repeating .programUnit faithful advances]
  refine repeating_induction (motive := fun _ outcome => outcome.next.atEnd = true)
    faithful advances ?_ ?_ () cursor
  · intro state cursor final h
    simp only [programUnitRound_apply, Outcome.next_withValue] at h ⊢
    split at h
    · rename_i ends
      simp [ends]
    · cases h
  · intro state cursor next outcome _ ends
    exact ends

end Production

namespace Parsed

/-! ### Nothing is lost -/

variable (settings : Settings) (text : Text)

/-- The tokens of a parse lie one after another from the first character to the last. -/
theorem reads_ofText : ∃ last, last.rest = [] ∧
    (Cursor.start text).Reads (ofText settings text).tokens last := by
  have faithful := Production.faithful_programUnits settings (Cursor.start text)
  have ends := Production.atEnd_programUnits settings (Cursor.start text)
  exact ⟨_, Cursor.atEnd_iff.mp ends, faithful.reads⟩

theorem leaves_ofText :
    (ofText settings text).tree.leaves = Token.lexemes (ofText settings text).tokens :=
  (Production.faithful_programUnits settings (Cursor.start text)).leaves

/-- The leaves of the tree, placed in the text, are the tokens of the parse. -/
theorem leaves_locate_ofText :
    (ofText settings text).tree.locate.leaves = (ofText settings text).tokens.map Token.leaf := by
  obtain ⟨last, -, reads⟩ := reads_ofText settings text
  rw [SourceTree.locate, SourceTree.leaves_locateAt_eq_row, leaves_ofText]
  exact reads.row_eq

theorem textOf_tokens_ofText :
    Lexeme.textOf (Token.lexemes (ofText settings text).tokens) = text := by
  obtain ⟨last, ends, reads⟩ := reads_ofText settings text
  have same := reads.rest_eq
  rw [ends, List.append_nil] at same
  exact same.symm

theorem text_ofText : (ofText settings text).tree.text = text := by
  rw [SourceTree.text_eq_textOf, leaves_ofText, textOf_tokens_ofText]

variable {settings text} in
theorem textOf_children {kind : Kind} {children : List SourceTree}
    (parsed : (ofText settings text).tree = .node kind children) :
    SourceTree.textOf children = text := by
  have whole := text_ofText settings text
  rwa [parsed] at whole

/-- A parse ends, its tree reads as the text, its leaves are its tokens in the order of the
text, each with its kind, its text and its offset, and the tokens in a row are the text. -/
theorem ofText_lossless :
    Production.LoopsEnd settings ∧
      (ofText settings text).tree.text = text ∧
      (ofText settings text).tree.locate.leaves = (ofText settings text).tokens.map Token.leaf ∧
      (ofText settings text).tokens.flatMap (·.text) = text := by
  have row := textOf_tokens_ofText settings text
  refine ⟨Production.loops_end settings, text_ofText settings text,
    leaves_locate_ofText settings text, ?_⟩
  simpa [Lexeme.textOf, Token.lexemes, List.flatMap_map] using row

end Parsed

end CobolTree
