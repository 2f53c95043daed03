import CobolTree.Proofs.Production.Openings

/-!
What a paragraph of free text takes, and where it stops. Behind the name of the paragraph and a
period, the text is taken a line at a time. Before each line the parser reads on from there in
another mode, as words, and past blanks and comments; it stops if a header comes
(`commentEntryRound_cases`). So no line is taken where a header comes
(`places_commentEntryParagraph`), and the paragraph ends only where one does, or where the text ends
(`commentEntryParagraph_end`).
-/

namespace CobolTree

namespace Production

variable {cursor : Cursor}

/-! ### Lines of free text -/

/-- A line of free text is taken, or a blank, unless the text ends or a header stands here. -/
theorem commentEntryRound_cases (cursor : Cursor) :
    commentEntryRound cursor = .still (.done ()) cursor ∧
        (cursor.rest = [] ∨ cursor.atHeader = true ∨ cursor.atIdentificationParagraph = true) ∨
      ∃ token after, cursor.next? .commentEntry = some (token, after) ∧
        (token.isWhitespace = true ∨
          cursor.atHeader = false ∧ cursor.atIdentificationParagraph = false) ∧
            commentEntryRound cursor = (bump .commentEntry cursor).withValue (.yield ()) := by
  cases next : cursor.next? .commentEntry with
  | none => exact .inl ⟨commentEntryRound_of_end next, .inl (Cursor.next?_eq_none_iff.mp next)⟩
  | some found =>
      obtain ⟨token, after⟩ := found
      rw [commentEntryRound_of_next? next]
      split
      · rename_i ends
        exact .inl ⟨rfl, .inr (Bool.or_eq_true_iff.mp (Bool.and_eq_true_iff.mp ends).2)⟩
      · rename_i goesOn
        refine .inr ⟨token, after, rfl, ?_, rfl⟩
        simp only [Bool.and_eq_true, Bool.not_eq_true', Bool.or_eq_true, not_and, not_or,
          Bool.not_eq_true] at goesOn
        cases blank : token.isWhitespace with
        | true => exact .inl rfl
        | false => exact .inr (goesOn blank)

/-- Free text ends where the text does, before a header of a division or the end of the program, and
before the header of a paragraph. -/
theorem commentEntryRounds_end (cursor : Cursor) :
    let lines := repeating (fun _ => commentEntryRound) () cursor
    lines.next.rest = [] ∨ lines.next.atHeader = true ∨
      lines.next.atIdentificationParagraph = true := by
  refine repeating_induction (motive := fun _ (lines : Outcome Unit) => lines.next.rest = [] ∨
    lines.next.atHeader = true ∨ lines.next.atIdentificationParagraph = true)
    (fun _ => flat_commentEntryRound.faithful) advances_commentEntryRound ?last ?goesOn () cursor
  case last =>
    intro _ cursor final done
    rcases commentEntryRound_cases cursor with ⟨same, ends⟩ | ⟨token, after, -, -, bumps⟩
    · rw [same]
      exact ends
    · rw [bumps] at done
      cases done
  case goesOn => exact fun _ cursor next outcome _ ih => ih

/-- A line of free text is read here only if no header stands here. -/
def AdmitsLine (place : Cursor) (token : Token) : Prop :=
  token.kind = .commentEntry → place.atHeader = false ∧ place.atIdentificationParagraph = false

theorem places_commentEntryRound (cursor : Cursor) :
    (commentEntryRound cursor).Places AdmitsLine cursor := by
  rcases commentEntryRound_cases cursor with ⟨same, -⟩ | ⟨token, after, read, sort, bumps⟩
  · rw [same]
    nofun
  · rw [bumps]
    intro line mem
    rw [Outcome.tokens_withValue, tokens_bump read, List.mem_singleton] at mem
    subst mem
    refine ⟨[], cursor, .nil, (Cursor.place_of_next? read).1.symm, fun isLine => ?_⟩
    refine sort.resolve_left fun blank => ?_
    cases isLine.symm.trans (eq_of_beq blank)

theorem places_commentEntryRounds (cursor : Cursor) :
    (repeating (fun _ => commentEntryRound) () cursor).Places AdmitsLine cursor := by
  refine repeating_induction (motive := fun cursor outcome => outcome.Places AdmitsLine cursor)
    (fun _ => flat_commentEntryRound.faithful) advances_commentEntryRound ?last ?goesOn () cursor
  case last => exact fun _ cursor _ _ => places_commentEntryRound cursor
  case goesOn =>
    intro _ cursor next outcome _ later
    exact .andThen (flat_commentEntryRound cursor).faithful (places_commentEntryRound cursor) later

/-! ### Paragraphs of free text -/

theorem commentEntryParagraph_apply (cursor : Cursor) :
    commentEntryParagraph cursor =
      let context := Context.identificationDivision
      let keyword := bumpSignificant context cursor
      let period := expectPeriod context .paragraphName keyword.next
      (keyword.andThen (period.andThen (repeating (fun _ => commentEntryRound) () period.next))).under
        .commentEntryParagraph := rfl

theorem commentEntryParagraph_end (cursor : Cursor) :
    let paragraph := commentEntryParagraph cursor
    paragraph.next.rest = [] ∨ paragraph.next.atHeader = true ∨
      paragraph.next.atIdentificationParagraph = true := by
  rw [commentEntryParagraph_apply]
  exact commentEntryRounds_end _

/-- Blanks and comments are no lines of free text, so where the tokens that carry meaning are none,
no token is one. -/
theorem places_of_significant {α : Type} {outcome : Outcome α} (faithful : outcome.Faithful cursor)
    (others : ∀ token ∈ Token.significant outcome.tokens, token.kind ≠ .commentEntry) :
    outcome.Places AdmitsLine cursor := by
  refine faithful.places fun token mem place isLine => ?_
  refine absurd isLine (others token (List.mem_filter.mpr ⟨mem, ?_⟩))
  rw [Lexeme.isTrivia, isLine]
  rfl

/-- In a paragraph that begins with its name and a period, no line is taken where a header
stands. -/
theorem places_commentEntryParagraph (heading : cursor.atIdentificationParagraph = true) :
    (commentEntryParagraph cursor).Places AdmitsLine cursor := by
  obtain ⟨name, period, ahead, words⟩ := Cursor.atIdentificationParagraph_iff.mp heading
  obtain ⟨middle, after, first, second⟩ := Cursor.ahead_two_eq_iff.mp ahead
  obtain ⟨-, names⟩ := Bool.and_eq_true_iff.mp words
  have isWord : name.kind = .word := by
    rcases Bool.or_eq_true_iff.mp names with programId | freeText
    · exact Lexeme.kind_of_isWord programId
    · obtain ⟨word, -, isWord⟩ := List.any_eq_true.mp freeText
      exact Lexeme.kind_of_isWord isWord
  rw [commentEntryParagraph_apply]
  refine .andThen (flat_bumpSignificant _ cursor).faithful
    (places_of_significant (flat_bumpSignificant _ cursor).faithful ?keyword)
    (.andThen (flat_expectPeriod _ _ _).faithful
      (places_of_significant (flat_expectPeriod _ _ _).faithful ?period)
      (places_commentEntryRounds _))
  case keyword =>
    rw [tokens_significant_bumpSignificant first]
    intro token mem
    rw [List.mem_singleton.mp mem, isWord]
    decide
  case period =>
    rw [tokens_significant_expectPeriod]
    intro token mem
    rw [kind_of_expectPeriod (Option.mem_toList.mp mem)]
    decide

end Production

end CobolTree
