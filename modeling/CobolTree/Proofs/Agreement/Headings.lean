import CobolTree.Proofs.Agreement.CommentEntries
import CobolTree.Proofs.Production.Landmarks
import Mathlib.Data.List.Infix

/-!
The paragraphs of an IDENTIFICATION DIVISION as the parser reads them, and where free text ends
before them. Blanks lead to the end of the division or to one more paragraph
(`identificationRounds_inside`). A separator that holds up the parser is consumed by the rounds that
follow (`meetsSeparator_identificationRounds`). Behind free text the division ends, or a paragraph
has its name and its period with blanks between them, so the grammar's free text ends there, too
(`exists_entryWalk`).
-/

namespace CobolTree

open Production

/-! ### Tidy text -/

/-- A word that a paragraph begins with. -/
def Lexeme.namesParagraph (lexeme : Lexeme) : Bool :=
  lexeme.isWord "PROGRAM-ID".toList || commentEntryWords.any (lexeme.isWord ·)

theorem Lexeme.exists_of_namesParagraph (lexeme : Lexeme) (names : lexeme.namesParagraph = true) :
    ∃ word ∈ Grammar.paragraphWords, lexeme.isWord word.toList = true := by
  have words : "PROGRAM-ID".toList :: commentEntryWords =
      Grammar.paragraphWords.map String.toList := rfl
  have any : ("PROGRAM-ID".toList :: commentEntryWords).any (lexeme.isWord ·) = true := names
  rw [words, List.any_map] at any
  exact List.any_eq_true.mp any

/-- The first lexeme is no name of a paragraph with a period next, or only blanks stand between
them. -/
def Lexeme.headsPlainly : List Lexeme → Bool
  | [] => true
  | name :: rest =>
      !name.namesParagraph || !(rest.find? (!·.isTrivia)).any (·.kind == .dot) ||
        (rest.takeWhile (·.isTrivia)).all (·.isWhitespace)

/-- Lexemes in which the parser and the grammar of the IDENTIFICATION DIVISION see the same
paragraphs: no blank holds a form feed, no token begins with a comma or a semicolon, and only blanks
stand between the name of a paragraph and its period. -/
structure Tidy (lexemes : List Lexeme) : Prop where
  plain : ∀ lexeme ∈ lexemes, lexeme.Plain
  headings : ∀ rest ∈ lexemes.tails, Lexeme.headsPlainly rest = true

instance (lexeme : Lexeme) : Decidable lexeme.Plain :=
  decidable_of_iff ((lexeme.kind = .whitespace → '\x0c' ∉ lexeme.text) ∧
      (lexeme.isTrivia = false → lexeme.separates = false))
    ⟨fun ⟨noFeed, begins⟩ => ⟨noFeed, begins⟩, fun ⟨noFeed, begins⟩ => ⟨noFeed, begins⟩⟩

instance (lexemes : List Lexeme) : Decidable (Tidy lexemes) :=
  decidable_of_iff ((∀ lexeme ∈ lexemes, lexeme.Plain) ∧
      ∀ rest ∈ lexemes.tails, Lexeme.headsPlainly rest = true)
    ⟨fun ⟨plain, headings⟩ => ⟨plain, headings⟩, fun ⟨plain, headings⟩ => ⟨plain, headings⟩⟩

namespace Tidy

variable {before lexemes : List Lexeme}

theorem behind (tidy : Tidy (before ++ lexemes)) : Tidy lexemes where
  plain lexeme mem := tidy.plain lexeme (List.mem_append_right _ mem)
  headings rest mem := tidy.headings rest
    ((List.mem_tails _ _).mpr (((List.mem_tails _ _).mp mem).trans (List.suffix_append _ _)))

/-- Only blanks stand between the name of a paragraph and its period. -/
theorem blanks {name dot : Lexeme} {between after : List Lexeme}
    (tidy : Tidy (before ++ name :: (between ++ dot :: after)))
    (names : name.namesParagraph = true) (trivial : ∀ lexeme ∈ between, lexeme.isTrivia = true)
    (isDot : dot.kind = .dot) :
    ∀ lexeme ∈ between, lexeme.kind = .whitespace ∧ '\x0c' ∉ lexeme.text := by
  intro lexeme mem
  have here := tidy.behind
  have carries : dot.isTrivia = false := by rw [Lexeme.isTrivia, isDot]; rfl
  have next : (between ++ dot :: after).find? (!·.isTrivia) = some dot := by
    rw [List.find?_append, List.find?_eq_none.mpr fun other inside => by simp [trivial other inside]]
    simp [carries]
  have run : (between ++ dot :: after).takeWhile (·.isTrivia) = between := by
    rw [List.takeWhile_append_of_pos trivial, List.takeWhile_cons_of_neg (by simp [carries]),
      List.append_nil]
  have heads := here.headings _ ((List.mem_tails _ _).mpr List.suffix_rfl)
  rw [Lexeme.headsPlainly, names, next, run] at heads
  simp only [Option.any_some, isDot, beq_self_eq_true, Bool.not_true, Bool.false_or,
    List.all_eq_true] at heads
  have blank : lexeme.kind = .whitespace := eq_of_beq (heads lexeme mem)
  exact ⟨blank, (here.plain lexeme (by simp [mem])).noFeed blank⟩

end Tidy

/-! ### Separators -/

/-- A comma or a semicolon is among the tokens, first in its text. -/
def Outcome.MeetsSeparator {α : Type} (outcome : Outcome α) : Prop :=
  ∃ token ∈ outcome.tokens, token.isTrivia = false ∧ token.separates = true

namespace Outcome.MeetsSeparator

variable {α β : Type} {first : Outcome α} {second : Outcome β}

theorem left (h : first.MeetsSeparator) : (first.andThen second).MeetsSeparator := by
  obtain ⟨token, mem, carries, separates⟩ := h
  exact ⟨token, List.mem_append_left _ mem, carries, separates⟩

theorem right (h : second.MeetsSeparator) : (first.andThen second).MeetsSeparator := by
  obtain ⟨token, mem, carries, separates⟩ := h
  exact ⟨token, List.mem_append_right _ mem, carries, separates⟩

end Outcome.MeetsSeparator

theorem Tidy.not_meetsSeparator {α : Type} {outcome : Outcome α}
    (tidy : Tidy (Token.lexemes outcome.tokens)) : ¬outcome.MeetsSeparator := by
  rintro ⟨token, mem, carries, separates⟩
  have free := (tidy.plain token.toLexeme (List.mem_map_of_mem mem)).begins carries
  exact Bool.false_ne_true (free.symm.trans separates)

namespace Cursor

variable {cursor after : Cursor} {token : Token}

/-- A separator is next, or a blank or a comment before one. -/
theorem AtSeparator.cases (at_ : cursor.AtSeparator) : ∃ token after,
    cursor.next? .identificationDivision = some (token, after) ∧
      (token.isTrivia = true ∧ after.AtSeparator ∨
        token.isTrivia = false ∧ (token.kind = .comma ∨ token.kind = .semicolon) ∧
          token.separates = true) := by
  obtain ⟨found, last, significant, sort⟩ := at_
  cases read : cursor.next? .identificationDivision with
  | none =>
      rw [significant?_of_end read] at significant
      cases significant
  | some next =>
      obtain ⟨token, after⟩ := next
      refine ⟨token, after, rfl, ?_⟩
      cases trivial : token.isTrivia with
      | true =>
          exact .inl ⟨rfl, found, last, significant?_of_trivia read trivial ▸ significant, sort⟩
      | false =>
          rw [significant?_of_next? read trivial] at significant
          obtain ⟨rfl, -⟩ := Prod.mk.inj (Option.some.inj significant)
          exact .inr ⟨rfl, sort⟩

/-- Where a token that begins no boundary is next, there is none. -/
theorem atHeader_of_significant?
    (h : cursor.significant? .identificationDivision = some (token, after))
    (other : token.isBoundaryWord = false) : cursor.atHeader = false := by
  refine Bool.eq_false_iff.mpr fun header => ?_
  obtain ⟨first, middle, read, boundary⟩ := isBoundaryWord_of_atHeader header
  have found : cursor.significant? .programUnit = some (token.inContext .programUnit, after) :=
    significant?_of_mode h rfl
  rw [found] at read
  cases read
  exact Bool.false_ne_true (other.symm.trans boundary)

theorem isBoundaryWord_of_separator (sort : token.kind = .comma ∨ token.kind = .semicolon) :
    token.isBoundaryWord = false := by
  rcases sort with kind | kind <;> simp [Lexeme.isBoundaryWord, kind]

/-- What carries meaning behind blanks and comments is what does before them. -/
theorem significant?_behindTrivia (cursor : Cursor) :
    (trivia .identificationDivision cursor).next.significant? .identificationDivision =
      cursor.significant? .identificationDivision :=
  significant?_congr (rfl : Context.programUnit.mode = _) (significant?_trivia _ cursor)

theorem AtSeparator.trivia (at_ : cursor.AtSeparator) :
    (Production.trivia .identificationDivision cursor).next.AtSeparator := by
  obtain ⟨token, after, significant, sort⟩ := at_
  exact ⟨token, after, (significant?_behindTrivia cursor).trans significant, sort⟩

end Cursor

namespace Production

theorem sentenceRound_of_separator {cursor after : Cursor} {token : Token}
    (read : cursor.next? .identificationDivision = some (token, after))
    (carries : token.isTrivia = false) (sort : token.kind = .comma ∨ token.kind = .semicolon)
    (state : SentenceState) :
    sentenceRound .identificationDivision false state cursor =
      (bump .identificationDivision cursor).withValue (.yield .begun) := by
  have free := Cursor.atHeader_of_significant? (Cursor.significant?_of_next? read carries)
    (Cursor.isBoundaryWord_of_separator sort)
  have other : token.kind ≠ .dot := by rcases sort with kind | kind <;> simp [kind]
  rw [sentenceRound_of_token read carries (by simp [free]) other]
  simp

/-- A sentence goes over separators. -/
theorem meetsSeparator_sentenceRounds (state : SentenceState) (cursor : Cursor)
    (at_ : cursor.AtSeparator) :
    (repeating (sentenceRound .identificationDivision false) state cursor).MeetsSeparator := by
  revert at_
  refine repeating_induction_from
    (motive := fun _ cursor outcome => cursor.AtSeparator → outcome.MeetsSeparator)
    (fun _ => (flat_sentenceRound _ _ _).faithful) (advances_sentenceRound _ _) ?_ ?_ state cursor
  · intro state cursor final done at_
    obtain ⟨token, after, read, ⟨trivial, -⟩ | ⟨carries, sort, -⟩⟩ := at_.cases
    · rw [sentenceRound_of_trivia read false state trivial] at done
      cases done
    · rw [sentenceRound_of_separator read carries sort] at done
      cases done
  · intro state cursor next outcome _ ih at_
    obtain ⟨token, after, read, ⟨trivial, behind⟩ | ⟨carries, sort, separates⟩⟩ := at_.cases
    · refine (ih ?_).right
      rw [sentenceRound_of_trivia read false state trivial]
      exact next_bump read ▸ behind
    · refine Outcome.MeetsSeparator.left ⟨token, ?_, carries, separates⟩
      rw [sentenceRound_of_separator read carries sort]
      simp [tokens_bump read]

/-! ### Paragraphs -/

/-- The word PROGRAM-ID is next. -/
def atProgramId (cursor : Cursor) : Bool :=
  ((cursor.significant? .identificationDivision).map (·.1.isWord "PROGRAM-ID".toList)).getD false

/-- One paragraph, or text that is none. -/
def identificationPart (cursor : Cursor) : Outcome Unit :=
  if atProgramId cursor then (programIdParagraph cursor).withValue ()
  else if cursor.atIdentificationParagraph then commentEntryParagraph cursor
  else strayText .identificationDivision cursor

theorem faithful_identificationPart (cursor : Cursor) :
    (identificationPart cursor).Faithful cursor := by
  unfold identificationPart
  split
  · exact (gathered_programIdParagraph cursor).faithful.withValue ()
  · split
    · exact (gathered_commentEntryParagraph cursor).faithful
    · exact (gathered_strayText _ cursor).faithful

section Rounds

variable {cursor : Cursor} (declared : Declared)

/-- Where a division ends, there are blanks and comments before. -/
theorem identificationRounds_of_boundary
    (boundary : (trivia .identificationDivision cursor).next.atUnitBoundary = true) :
    repeating identificationRound declared cursor =
      (trivia .identificationDivision cursor).withValue declared := by
  rw [repeating_eq faithful_identificationRound advances_identificationRound]
  simp [identificationRound_apply, boundary]

variable (inside : ¬(trivia .identificationDivision cursor).next.atUnitBoundary = true)

include inside

theorem identificationRound_inside :
    let lead := trivia .identificationDivision cursor
    ∃ later, identificationRound declared cursor =
      (lead.andThen (identificationPart lead.next)).withValue (.yield later) := by
  intro lead
  rw [identificationRound_apply]
  simp only [if_neg inside, identificationPart]
  by_cases program : atProgramId lead.next = true
  · rw [if_pos program]
    simp only [atProgramId, lead] at program
    rw [if_pos program]
    exact ⟨_, rfl⟩
  · rw [if_neg program]
    simp only [atProgramId, lead] at program
    rw [if_neg program]
    split
    · exact ⟨_, rfl⟩
    · exact ⟨_, rfl⟩

/-- A division that does not end has one more part. -/
theorem identificationRounds_inside :
    let lead := trivia .identificationDivision cursor
    ∃ later, repeating identificationRound declared cursor =
      (lead.andThen (identificationPart lead.next)).andThen
        (repeating identificationRound later (identificationPart lead.next).next) := by
  intro lead
  obtain ⟨later, round⟩ := identificationRound_inside declared inside
  rw [repeating_eq faithful_identificationRound advances_identificationRound, round]
  exact ⟨later, rfl⟩

end Rounds

/-! ### Separators between paragraphs -/

section Stray

variable {cursor after : Cursor} {token : Token}

theorem meetsSeparator_strayText
    (h : (repeating (sentenceRound .identificationDivision false) .empty cursor).MeetsSeparator) :
    (strayText .identificationDivision cursor).MeetsSeparator := by
  have body : (sentence .identificationDivision .errorNode false cursor).MeetsSeparator :=
    Outcome.MeetsSeparator.left h
  simpa [Outcome.MeetsSeparator, strayText] using body

theorem atProgramId_of_significant?
    (h : cursor.significant? .identificationDivision = some (token, after)) :
    atProgramId cursor = token.isWord "PROGRAM-ID".toList := by
  simp [atProgramId, h]

/-- No part begins with a token that no period is behind, the word PROGRAM-ID apart. -/
theorem identificationPart_of_stray
    (h : cursor.significant? .identificationDivision = some (token, after))
    (program : token.isWord "PROGRAM-ID".toList = false)
    (stray : token.kind ≠ .word ∨ after.AtSeparator) :
    identificationPart cursor = (strayText .identificationDivision cursor) := by
  have noParagraph : ¬cursor.atIdentificationParagraph = true := by
    intro paragraph
    obtain ⟨name, period, ahead, words⟩ := Cursor.atIdentificationParagraph_iff.mp paragraph
    obtain ⟨middle, last, first, second⟩ := Cursor.ahead_two_eq_iff.mp ahead
    rw [h] at first
    obtain ⟨rfl, rfl⟩ := Prod.mk.inj (Option.some.inj first)
    obtain ⟨isDot, named⟩ := Bool.and_eq_true_iff.mp words
    rcases stray with other | ⟨_, _, significant, kind, -⟩
    · rw [program, Bool.false_or, List.any_eq_true] at named
      obtain ⟨word, -, isWord⟩ := named
      exact other (eq_of_beq (Bool.and_eq_true_iff.mp isWord).1)
    · rw [second] at significant
      obtain ⟨rfl, -⟩ := Prod.mk.inj (Option.some.inj significant)
      rw [eq_of_beq isDot] at kind
      rcases kind with kind | kind <;> cases kind
  rw [identificationPart, atProgramId_of_significant? h, program, if_neg Bool.false_ne_true,
    if_neg noParagraph]

variable (declared : Declared)

theorem not_atUnitBoundary_of_significant?
    (h : cursor.significant? .identificationDivision = some (token, after))
    (other : token.isBoundaryWord = false) :
    ¬(trivia .identificationDivision cursor).next.atUnitBoundary = true := by
  have free := Cursor.atHeader_of_significant? h other
  rw [← next?_trivia] at h
  rw [Cursor.atUnitBoundary, atHeader_trivia, free, Bool.or_false, Cursor.atEnd_iff]
  intro none
  rw [Cursor.next?_eq_none_iff.mpr none] at h
  cases h

/-- The parts of a division go over separators. -/
theorem meetsSeparator_identificationRounds (at_ : cursor.AtSeparator) :
    (repeating identificationRound declared cursor).MeetsSeparator := by
  obtain ⟨token, after, significant, sort, -⟩ := id at_
  have inside := not_atUnitBoundary_of_significant? significant
    (Cursor.isBoundaryWord_of_separator sort)
  obtain ⟨later, same⟩ := identificationRounds_inside declared inside
  have stray := identificationPart_of_stray
    ((Cursor.significant?_behindTrivia cursor).trans significant) (isWord_of_separator sort _)
    (.inl (by rcases sort with kind | kind <;> simp [kind]))
  rw [same]
  refine Outcome.MeetsSeparator.left (Outcome.MeetsSeparator.right ?_)
  rw [stray]
  exact meetsSeparator_strayText (meetsSeparator_sentenceRounds .empty _ at_.trivia)

/-- A separator between the name of a paragraph and its period is gone over, too. -/
theorem meetsSeparator_of_name
    (h : cursor.significant? .identificationDivision = some (token, after))
    (word : token.kind = .word) (other : token.isBoundaryWord = false)
    (program : token.isWord "PROGRAM-ID".toList = false) (at_ : after.AtSeparator) :
    (repeating identificationRound declared cursor).MeetsSeparator := by
  have inside := not_atUnitBoundary_of_significant? h other
  obtain ⟨later, same⟩ := identificationRounds_inside declared inside
  have stray := identificationPart_of_stray
    ((Cursor.significant?_behindTrivia cursor).trans h) program (.inr at_)
  rw [same]
  refine Outcome.MeetsSeparator.left (Outcome.MeetsSeparator.right ?_)
  rw [stray]
  refine meetsSeparator_strayText ?_
  have read := (next?_trivia _ cursor).trans h
  have round : sentenceRound .identificationDivision false .empty _ = _ :=
    sentenceRound_of_token read (Lexeme.isTrivia_of_word word) (by simp) (by simp [word])
  rw [repeating_eq (fun _ => (flat_sentenceRound _ _ _).faithful) (advances_sentenceRound _ _),
    round]
  refine Outcome.MeetsSeparator.right (meetsSeparator_sentenceRounds _ _ ?_)
  exact next_bump read ▸ at_

end Stray

/-! ### Where free text ends -/

section Ending

variable {cursor after last : Cursor} {name dot : Token}

/-- A part that begins with the name of a paragraph and a period consumes both first. -/
theorem tokens_identificationPart
    (named : cursor.significant? .identificationDivision = some (name, after))
    (closed : after.significant? .identificationDivision = some (dot, last))
    (isDot : dot.kind = .dot) (names : name.namesParagraph = true) : ∃ more,
      (identificationPart cursor).tokens = (trivia .identificationDivision cursor).tokens ++
        name :: ((trivia .identificationDivision after).tokens ++ dot :: more) := by
  have keyword := tokens_bumpSignificant named
  have period (site : PeriodSite) : (expectPeriod .identificationDivision site
      (bumpSignificant .identificationDivision cursor).next).tokens =
        (trivia .identificationDivision after).tokens ++ [dot] := by
    rw [(expectPeriod_fields _ _ _).1, next_bumpSignificant named,
      eatIf_of_test closed (by simp [isDot]), tokens_bumpSignificant closed]
  have paragraph : cursor.atIdentificationParagraph = true :=
    Cursor.atIdentificationParagraph_iff.mpr ⟨name, dot,
      Cursor.ahead_two_eq_iff.mpr ⟨after, last, named, closed⟩, by rw [isDot]; exact names⟩
  rw [identificationPart, if_pos paragraph]
  split
  · rw [Outcome.tokens_withValue, programIdParagraph_apply]
    simp only [Outcome.tokens_under, Outcome.tokens_andThen, keyword, period, List.append_assoc,
      List.cons_append, List.nil_append]
    exact ⟨_, rfl⟩
  · rw [commentEntryParagraph_apply]
    simp only [Outcome.tokens_under, Outcome.tokens_andThen, keyword, period, List.append_assoc,
      List.cons_append, List.nil_append]
    exact ⟨_, rfl⟩

/-- Where a paragraph begins, the parts of a division consume its name and its period, with the blanks
and comments before them. -/
theorem exists_heading (declared : Declared)
    (inside : ¬(trivia .identificationDivision cursor).next.atUnitBoundary = true)
    (paragraph : cursor.atIdentificationParagraph = true) : ∃ name after dot last others,
      cursor.significant? .identificationDivision = some (name, after) ∧
        after.significant? .identificationDivision = some (dot, last) ∧ dot.kind = .dot ∧
          name.namesParagraph = true ∧ (repeating identificationRound declared cursor).tokens =
            (trivia .identificationDivision cursor).tokens ++
              name :: ((trivia .identificationDivision after).tokens ++ dot :: others) := by
  obtain ⟨later, whole⟩ := identificationRounds_inside declared inside
  obtain ⟨name, dot, ahead, sort⟩ := Cursor.atIdentificationParagraph_iff.mp paragraph
  obtain ⟨after, last, named, closed⟩ := Cursor.ahead_two_eq_iff.mp ahead
  obtain ⟨isDot, names⟩ := Bool.and_eq_true_iff.mp sort
  have isDot : dot.kind = .dot := eq_of_beq isDot
  have first := (next?_trivia .identificationDivision cursor).trans named
  have carries := Cursor.isTrivia_of_significant? named
  obtain ⟨more, part⟩ := tokens_identificationPart
    ((Cursor.significant?_behindTrivia cursor).trans named) closed isDot names
  rw [trivia_of_carries first carries, Outcome.tokens_still, List.nil_append] at part
  refine ⟨name, after, dot, last, more ++ (repeating identificationRound later
    (identificationPart (trivia .identificationDivision cursor).next).next).tokens,
    named, closed, isDot, names, ?_⟩
  rw [whole, Outcome.tokens_andThen, Outcome.tokens_andThen, part]
  simp only [List.append_assoc, List.cons_append]

variable (declared : Declared)
  (tidy : Tidy (Token.lexemes (repeating identificationRound declared cursor).tokens))

include tidy

/-- Before the end of a division, free text ends behind the blanks and comments that follow. -/
theorem entryWalk_of_boundary
    (boundary : (trivia .identificationDivision cursor).next.atUnitBoundary = true) :
    EntryWalk [] [] ⟨cursor.position.index,
      Lexeme.textOf (Token.lexemes (repeating identificationRound declared cursor).tokens)⟩ := by
  have whole := identificationRounds_of_boundary declared boundary
  have plain : ∀ token ∈ (trivia .identificationDivision cursor).tokens, token.Plain :=
    fun token mem => tidy.plain _ (List.mem_map_of_mem (whole ▸ mem))
  have walk := EntryWalk.of_reads (flat_trivia .identificationDivision cursor).reads
    (isTrivia_of_mem_trivia .identificationDivision cursor) plain (List.nil_append _).symm
    (.of_end (.inl rfl) [] _)
  rwa [List.append_nil, ← Outcome.tokens_withValue, ← whole] at walk

/-- Before a paragraph, free text ends behind the blanks and comments that follow, for the grammar
sees the header of the paragraph, too. -/
theorem exists_entryWalk_of_paragraph
    (inside : ¬(trivia .identificationDivision cursor).next.atUnitBoundary = true)
    (paragraph : cursor.atIdentificationParagraph = true) :
    ∃ ends, Grammar.headed ends = true ∧ EntryWalk ends [] ⟨cursor.position.index,
      Lexeme.textOf (Token.lexemes (repeating identificationRound declared cursor).tokens)⟩ := by
  have reads := (faithful_repeating faithful_identificationRound declared cursor).reads
  have lead := (flat_trivia .identificationDivision cursor).reads
  have trivial := isTrivia_of_mem_trivia .identificationDivision cursor
  obtain ⟨name, after, dot, last, others, named, closed, isDot, names, tokens⟩ :=
    exists_heading declared inside paragraph
  have text := congrArg (fun tokens => Lexeme.textOf (Token.lexemes tokens)) tokens
  simp only [Token.lexemes_append, Token.lexemes_cons, Lexeme.textOf_append,
    Lexeme.textOf_cons] at text
  have rest := reads.rest_eq
  rw [text, lead.rest_eq, List.append_assoc] at rest
  have plain : ∀ token ∈ (trivia .identificationDivision cursor).tokens, token.Plain :=
    fun token mem => tidy.plain _ (List.mem_map_of_mem (tokens ▸ List.mem_append_left _ mem))
  -- only blanks stand between the name and the period
  have blanks : ∀ token ∈ (trivia .identificationDivision after).tokens,
      token.kind = .whitespace ∧ '\x0c' ∉ token.text := by
    rw [tokens] at tidy
    simp only [Token.lexemes_append, Token.lexemes_cons] at tidy
    intro token mem
    refine tidy.blanks names (fun lexeme among => ?_) isDot token.toLexeme
      (List.mem_map_of_mem mem)
    obtain ⟨other, inside, rfl⟩ := List.mem_map.mp among
    exact isTrivia_of_mem_trivia .identificationDivision after other inside
  obtain ⟨word, listed, isWord⟩ := name.exists_of_namesParagraph names
  have header := headed_of_reads listed isWord (flat_trivia .identificationDivision after).reads
    blanks ((next?_trivia .identificationDivision after).trans closed) isDot
    (Lexeme.textOf (Token.lexemes others))
  refine ⟨_, header, ?_⟩
  rw [text]
  exact EntryWalk.of_reads lead trivial plain (List.append_cancel_left rest)
    (.of_end (.inr header) [] _)

/-- Where the parser's free text ends, the grammar's ends behind the blanks and comments that follow:
at the end of the division, or before the next paragraph. -/
theorem exists_entryWalk
    (stopped : cursor.rest = [] ∨ cursor.atHeader = true ∨
      cursor.atIdentificationParagraph = true) :
    ∃ ends, (ends = [] ∨ Grammar.headed ends = true) ∧ EntryWalk ends [] ⟨cursor.position.index,
      Lexeme.textOf (Token.lexemes (repeating identificationRound declared cursor).tokens)⟩ := by
  by_cases boundary : (trivia .identificationDivision cursor).next.atUnitBoundary = true
  · exact ⟨[], .inl rfl, entryWalk_of_boundary declared tidy boundary⟩
  · have paragraph : cursor.atIdentificationParagraph = true := by
      have outside := boundary
      rw [Cursor.atUnitBoundary, Bool.or_eq_true, not_or, atHeader_trivia] at outside
      rcases stopped with none | header | paragraph
      · refine absurd (Cursor.atEnd_iff.mpr ?_) outside.1
        have least := trivia_length_le .identificationDivision cursor
        rw [none] at least
        exact List.length_eq_zero_iff.mp (Nat.le_zero.mp least)
      · exact absurd header outside.2
      · exact paragraph
    obtain ⟨ends, header, walk⟩ := exists_entryWalk_of_paragraph declared tidy boundary paragraph
    exact ⟨ends, .inr header, walk⟩

end Ending

end Production

end CobolTree
