import CobolTree.Proofs.Production.Progress

/-!
Boundaries: the header of a division, and END PROGRAM. A boundary is seen by the next two tokens
that carry meaning; where two words of the text make up one, it was ahead when the first of them
was read (`ahead_two_of_reads`). `ReadsWords` says where the words of some tokens may be read, and
an outcome is clear when none of its words is read at a boundary. Sentences, entries and the bodies
of most divisions are clear from wherever no boundary stands, since they look ahead before each
word that they take, or take words that no boundary begins with.
-/

namespace CobolTree

/-- A word that a boundary can begin with. -/
def Lexeme.isBoundaryWord (lexeme : Lexeme) : Bool :=
  lexeme.kind == .word &&
    ((Division.ofHeaderWord? lexeme.text).isSome || Text.sameWord lexeme.text "END".toList)

theorem Lexeme.isTrivia_of_word {lexeme : Lexeme} (word : lexeme.kind = .word) :
    lexeme.isTrivia = false := by
  rw [isTrivia, word]
  rfl

theorem Lexeme.kind_ne_word {lexeme : Lexeme} (trivial : lexeme.isTrivia = true) :
    lexeme.kind ≠ .word := by
  intro word
  rw [isTrivia_of_word word] at trivial
  cases trivial

/-- Words that are the same in any case begin the same boundaries. -/
theorem Lexeme.isBoundaryWord_of_isWord {lexeme : Lexeme} {word : Text}
    (h : lexeme.isWord word = true) :
    lexeme.isBoundaryWord =
      ((Division.ofHeaderWord? word).isSome || Text.sameWord word "END".toList) := by
  obtain ⟨kind, same⟩ := Bool.and_eq_true_iff.mp h
  have same : lexeme.text.upper = word.upper := eq_of_beq same
  unfold Lexeme.isBoundaryWord Division.ofHeaderWord? Text.sameWord
  rw [kind, same]
  rfl

theorem Text.toUpper_of_isDigit {c : Char} (h : c.isDigit = true) : c.toUpper = c := by
  have digit : c.toNat ≤ 57 := by
    simp only [Char.isDigit, Bool.and_eq_true, decide_eq_true_eq] at h
    exact UInt32.le_iff_toNat_le.mp h.2
  unfold Char.toUpper
  rw [dif_neg]
  rintro ⟨lower, -⟩
  have : 97 ≤ c.toNat := UInt32.le_iff_toNat_le.mp lower
  omega

/-- A word with a letter in it is no word of digits, in any case. -/
theorem Text.sameWord_of_digits {text word : Text} (digits : text.all Char.isDigit = true)
    (letters : word.upper.all Char.isDigit = false) : Text.sameWord text word = false := by
  have upper : text.upper.all Char.isDigit = true := by
    rw [Text.upper, List.all_map, List.all_eq_true]
    intro c mem
    have digit := List.all_eq_true.mp digits c mem
    rw [Function.comp_apply, Text.toUpper_of_isDigit digit]
    exact digit
  refine beq_eq_false_iff_ne.mpr fun same => ?_
  rw [← same, upper] at letters
  cases letters

/-- No boundary begins with a number. -/
theorem Lexeme.isBoundaryWord_of_digits {lexeme : Lexeme}
    (digits : lexeme.text.all Char.isDigit = true) : lexeme.isBoundaryWord = false := by
  have words : ∀ entry ∈ Division.headerWords, entry.1.upper.all Char.isDigit = false := by decide
  have none : Division.ofHeaderWord? lexeme.text = none := by
    rw [Division.ofHeaderWord?, Option.map_eq_none_iff, List.find?_eq_none]
    intro entry mem
    rw [Text.sameWord_of_digits digits (words entry mem)]
    exact Bool.false_ne_true
  rw [isBoundaryWord, none, Text.sameWord_of_digits digits (by decide)]
  exact Bool.and_false _

namespace Cursor

/-! ### What stands at a cursor -/

section AtHeader

variable {context : Context} {cursor other after : Cursor} {token : Token}

theorem atHeader_congr
    (same : cursor.significant? .programUnit = other.significant? .programUnit) :
    cursor.atHeader = other.atHeader := by
  rw [atHeader, divisionHeader?_congr same, atEndProgram_congr same, ← atHeader]

/-- A boundary begins with a boundary word. -/
theorem isBoundaryWord_of_atHeader (header : cursor.atHeader = true) :
    ∃ word middle, cursor.significant? .programUnit = some (word, middle) ∧
      word.isBoundaryWord = true := by
  rcases Bool.or_eq_true_iff.mp header with division | ends
  · obtain ⟨found, header⟩ := Option.isSome_iff_exists.mp division
    obtain ⟨name, word, ahead, kind, -, opens⟩ := divisionHeader?_eq_some_iff.mp header
    obtain ⟨middle, behind, first, -⟩ := ahead_two_eq_iff.mp ahead
    exact ⟨name, middle, first, by simp [Lexeme.isBoundaryWord, kind, opens]⟩
  · obtain ⟨first, second, ahead, words⟩ := atEndProgram_iff.mp ends
    obtain ⟨middle, behind, read, -⟩ := ahead_two_eq_iff.mp ahead
    have isEnd := (Bool.and_eq_true_iff.mp words).1
    refine ⟨first.inContext .programUnit, middle, significant?_of_mode read rfl, ?_⟩
    exact (Lexeme.isBoundaryWord_of_isWord isEnd).trans (by decide)

variable (h : cursor.next? context = some (token, after))

include h

/-- Where another word is next, there is no boundary. -/
theorem atHeader_of_next? (word : token.kind = .word) (other : token.isBoundaryWord = false) :
    cursor.atHeader = false := by
  refine Bool.eq_false_iff.mpr fun header => ?_
  obtain ⟨first, middle, read, boundary⟩ := isBoundaryWord_of_atHeader header
  have next := significant?_of_next? (next?_of_shared h (.inl word)) (Lexeme.isTrivia_of_word word)
  rw [next] at read
  cases read
  rw [show (token.inContext .programUnit).isBoundaryWord = _ from other] at boundary
  cases boundary

theorem significant?_of_blank (trivial : token.isTrivia = true) :
    cursor.significant? .programUnit = after.significant? .programUnit :=
  significant?_of_trivia (next?_of_shared h (.inr trivial)) trivial

end AtHeader

/-- Behind blanks and comments stands what stands before them. -/
theorem significant?_of_reads {cursor last : Cursor} {tokens : List Token}
    (reads : cursor.Reads tokens last) (trivial : ∀ token ∈ tokens, token.isTrivia = true) :
    cursor.significant? .programUnit = last.significant? .programUnit := by
  induction reads with
  | nil => rfl
  | cons h _ ih =>
      rw [List.forall_mem_cons] at trivial
      rw [significant?_of_blank h trivial.1, ih trivial.2]

/-- Two words that are read, with nothing but blanks and comments between them, were ahead where
the first of them was read. -/
theorem ahead_two_of_reads {c₁ c₂ context : Context} (mode : context.mode = .word)
    {cursor middle place last : Cursor} {first second : Token} {between : List Token}
    (h : cursor.next? c₁ = some (first, middle)) (word : first.kind = .word)
    (reads : middle.Reads between place) (trivial : ∀ token ∈ between, token.isTrivia = true)
    (k : place.next? c₂ = some (second, last)) (another : second.kind = .word) :
    cursor.ahead context 2 = [first.inContext context, second.inContext context] := by
  have one : cursor.significant? .programUnit = some (first.inContext .programUnit, middle) :=
    significant?_of_next? (next?_of_shared h (.inl word)) (Lexeme.isTrivia_of_word word)
  have two : middle.significant? .programUnit = some (second.inContext .programUnit, last) := by
    rw [significant?_of_reads reads trivial]
    exact significant?_of_next? (next?_of_shared k (.inl another))
      (Lexeme.isTrivia_of_word another)
  have one := significant?_of_mode one mode.symm
  have two := significant?_of_mode two mode.symm
  exact ahead_two_eq_iff.mpr ⟨middle, last, one, two⟩

/-! ### Where words are read -/

/-- Tokens that lie one after another between two cursors, each word of them read where it is
admitted. -/
inductive ReadsWords (admits : Cursor → Token → Prop) : Cursor → List Token → Cursor → Prop where
  | nil {cursor : Cursor} : ReadsWords admits cursor [] cursor
  | cons {context : Context} {cursor after last : Cursor} {token : Token} {tokens : List Token} :
      cursor.next? context = some (token, after) → (token.kind = .word → admits cursor token) →
        ReadsWords admits after tokens last → ReadsWords admits cursor (token :: tokens) last

namespace ReadsWords

variable {p q : Cursor → Token → Prop} {cursor middle last : Cursor} {tokens others : List Token}

theorem append (first : ReadsWords p cursor tokens middle)
    (second : ReadsWords p middle others last) :
    ReadsWords p cursor (tokens ++ others) last := by
  induction first with
  | nil => exact second
  | cons h admitted _ ih => exact .cons h admitted (ih second)

theorem mono (h : ReadsWords p cursor tokens last)
    (imp : ∀ place token, p place token → q place token) : ReadsWords q cursor tokens last := by
  induction h with
  | nil => exact .nil
  | cons h admitted _ ih => exact .cons h (fun word => imp _ _ (admitted word)) ih

/-- Blanks and comments are no words. -/
theorem of_trivia (reads : cursor.Reads tokens last)
    (trivial : ∀ token ∈ tokens, token.isTrivia = true) : ReadsWords p cursor tokens last := by
  induction reads with
  | nil => exact .nil
  | cons h _ ih =>
      rw [List.forall_mem_cons] at trivial
      refine .cons h (fun word => ?_) (ih trivial.2)
      exact absurd word (Lexeme.kind_ne_word trivial.1)

/-- Tokens are read one part after the other. -/
theorem exists_middle (h : ReadsWords p cursor (tokens ++ others) last) :
    ∃ middle, cursor.Reads tokens middle ∧ ReadsWords p middle others last := by
  induction tokens generalizing cursor with
  | nil => exact ⟨cursor, .nil, h⟩
  | cons token rest ih =>
      cases h with
      | cons read _ behind =>
          obtain ⟨middle, reads, later⟩ := ih behind
          exact ⟨middle, .cons read reads, later⟩

end ReadsWords

end Cursor

namespace Outcome

variable {α β : Type} {admits : Cursor → Token → Prop} {cursor : Cursor} {first : Outcome α}
  {second : Outcome β}

/-- The outcome reads words where they are admitted alone. -/
def Guarded (admits : Cursor → Token → Prop) (cursor : Cursor) (outcome : Outcome α) : Prop :=
  cursor.ReadsWords admits outcome.tokens outcome.next

/-- The outcome reads no word at a boundary. -/
def Clear (cursor : Cursor) (outcome : Outcome α) : Prop :=
  outcome.Guarded (fun place _ => place.atHeader = false) cursor

theorem Guarded.andThen (h : first.Guarded admits cursor) (k : second.Guarded admits first.next) :
    (first.andThen second).Guarded admits cursor := h.append k

end Outcome

namespace Production

variable {α σ : Type} {admits : Cursor → Token → Prop} {context : Context} {cursor : Cursor}

/-! ### Tokens -/

theorem guarded_report (diagnostic : Diagnostic) (cursor : Cursor) :
    (report diagnostic cursor).Guarded admits cursor := .nil

theorem guarded_reportHere (problem : Problem) (cursor : Cursor) :
    (reportHere problem cursor).Guarded admits cursor := by
  unfold reportHere
  split <;> exact guarded_report _ cursor

theorem guarded_reportAt (token : Option Token) (problem : Problem) (cursor : Cursor) :
    (reportAt token problem cursor).Guarded admits cursor := by
  unfold reportAt
  split
  · exact guarded_report _ cursor
  · exact guarded_reportHere _ cursor

theorem guarded_bump
    (h : ∀ token after, cursor.next? context = some (token, after) → token.kind = .word →
      admits cursor token) : (bump context cursor).Guarded admits cursor := by
  unfold bump
  split
  · exact .nil
  · rename_i token after read
    exact .cons read (h token after read) .nil

theorem guarded_trivia (context : Context) (cursor : Cursor) :
    (trivia context cursor).Guarded admits cursor :=
  .of_trivia (flat_trivia context cursor).reads (isTrivia_of_mem_trivia context cursor)

theorem guarded_bumpSignificant
    (h : ∀ token after, cursor.significant? context = some (token, after) → token.kind = .word →
      admits (trivia context cursor).next token) :
    (bumpSignificant context cursor).Guarded admits cursor := by
  refine (guarded_trivia context cursor).andThen (guarded_bump fun token after read => ?_)
  exact h token after ((next?_trivia context cursor).symm.trans read)

theorem guarded_eatIf {test : Token → Bool}
    (h : ∀ token after, cursor.significant? context = some (token, after) → test token = true →
      token.kind = .word → admits (trivia context cursor).next token) :
    (eatIf context test cursor).Guarded admits cursor := by
  rcases eatIf_cases context test cursor with still | ⟨token, after, found, passes, eaten⟩
  · rw [still]
    exact .nil
  · rw [eaten]
    refine guarded_bumpSignificant fun other behind read => ?_
    cases found.symm.trans read
    exact h token after found passes

theorem guarded_expectPeriod (context : Context) (site : PeriodSite) (cursor : Cursor) :
    (expectPeriod context site cursor).Guarded admits cursor := by
  have eaten : (eatIf context (·.kind == .dot) cursor).Guarded admits cursor := by
    refine guarded_eatIf fun token _ _ period word => ?_
    rw [word] at period
    cases period
  refine eaten.andThen ?_
  cases (eatIf context (·.kind == .dot) cursor).value with
  | none => exact (guarded_reportHere _ _).andThen .nil
  | some token => exact .nil

theorem guarded_ite {c : Prop} [Decidable c] {yes no : Production α}
    (h : (yes cursor).Guarded admits cursor) (k : (no cursor).Guarded admits cursor) :
    ((if c then yes else no) cursor).Guarded admits cursor := by
  split
  · exact h
  · exact k

/-- A loop is guarded if its rounds are. -/
theorem guarded_repeating {round : σ → Production (ForInStep σ)}
    (each : ∀ state cursor, (round state cursor).Guarded admits cursor) (state : σ)
    (cursor : Cursor) : (repeating round state cursor).Guarded admits cursor := by
  fun_induction repeating round state cursor with
  | case1 state cursor first final h => exact each state cursor
  | case2 state cursor first next h shorter ih => exact (each state cursor).andThen ih
  | case3 state cursor first next h same => exact each state cursor

/-! ### Clear outcomes -/

theorem atHeader_trivia (context : Context) (cursor : Cursor) :
    (trivia context cursor).next.atHeader = cursor.atHeader :=
  Cursor.atHeader_congr (significant?_trivia context cursor)

theorem clear_bumpSignificant (free : cursor.atHeader = false) (context : Context) :
    (bumpSignificant context cursor).Clear cursor :=
  guarded_bumpSignificant fun _ _ _ _ => (atHeader_trivia context cursor).trans free

/-- Words that no boundary begins with can be taken anywhere. -/
theorem clear_eatIf (context : Context) {test : Token → Bool}
    (others : ∀ token, test token = true → token.isBoundaryWord = false) (cursor : Cursor) :
    (eatIf context test cursor).Clear cursor := by
  refine guarded_eatIf fun token after read passes word => ?_
  exact Cursor.atHeader_of_next? ((next?_trivia context cursor).trans read) word
    (others token passes)

theorem clear_eatWord (context : Context) {word : Text}
    (other : ((Division.ofHeaderWord? word).isSome || Text.sameWord word "END".toList) = false)
    (cursor : Cursor) : (eatWord context word cursor).Clear cursor :=
  clear_eatIf context (fun _ same => (Lexeme.isBoundaryWord_of_isWord same).trans other) cursor

/-! ### Sentences -/

theorem clear_pictureOperand (context : Context) (cursor : Cursor) :
    (pictureOperand context cursor).Clear cursor := by
  refine (clear_eatWord context (by decide) cursor).andThen ?_
  refine (guarded_trivia .pictureString _).andThen ?_
  simp only [bind_apply, here_apply, Outcome.still_andThen, Outcome.value_still,
    Outcome.next_still]
  cases peeked : Cursor.peek? .pictureString _ with
  | none => exact .nil
  | some token =>
      by_cases picture : token.kind = .pictureString
      · simp only [if_pos picture]
        refine Outcome.Guarded.andThen (guarded_bump fun other after read word => ?_) .nil
        simp only [Cursor.peek?, read, Option.map_some, Option.some.injEq] at peeked
        rw [peeked, picture] at word
        cases word
      · simp only [if_neg picture]
        exact .nil

/-- A sentence looks ahead before each of its words but the first. -/
theorem clear_sentenceRound (context : Context) (pictures : Bool) {state : SentenceState}
    (begins : state = .empty → cursor.atHeader = false) :
    let round := sentenceRound context pictures state cursor
    round.Clear cursor ∧
      ∀ next, round.value = .yield next → next = .empty → round.next.atHeader = false := by
  intro round
  rcases sentenceRound_cases context pictures state cursor with
    same | ⟨token, after, read, ⟨trivial, same⟩ | ⟨carries, free, ⟨-, same⟩ | ⟨-, same⟩⟩⟩
  · rw [show round = _ from same]
    constructor
    · exact .nil
    · intro next value
      cases value
  · rw [show round = _ from same]
    constructor
    · refine guarded_bump fun other _ again word => ?_
      cases read.symm.trans again
      exact absurd word (Lexeme.kind_ne_word trivial)
    · intro next value empty
      cases value
      rw [Outcome.next_withValue, next_bump read,
        ← Cursor.atHeader_congr (Cursor.significant?_of_blank read trivial)]
      exact begins empty
  · rw [show round = _ from same]
    constructor
    · exact guarded_bump fun _ _ _ _ => free.elim begins id
    · intro next value
      cases value
  · rw [show round = _ from same]
    constructor
    · have bumped : (bump context cursor).Clear cursor :=
        guarded_bump fun _ _ _ _ => free.elim begins id
      refine Outcome.Guarded.andThen bumped ?_
      split
      · exact clear_pictureOperand context _
      · exact .nil
    · intro next value empty
      rw [empty] at value
      cases value

/-- A sentence is clear if no boundary stands where it begins. -/
theorem clear_sentence (context : Context) (kind : Kind) (pictures : Bool)
    (free : cursor.atHeader = false) : (sentence context kind pictures cursor).Clear cursor := by
  have body : (repeating (sentenceRound context pictures) .empty cursor).Clear cursor := by
    refine repeating_induction_from
      (motive := fun state cursor outcome =>
        (state = .empty → cursor.atHeader = false) → outcome.Clear cursor)
      (fun state => (flat_sentenceRound context pictures state).faithful)
      (advances_sentenceRound context pictures) ?last ?goesOn .empty cursor fun _ => free
    case last =>
      intro state cursor final _ begins
      exact (clear_sentenceRound context pictures begins).1
    case goesOn =>
      intro state cursor next outcome yields ih begins
      obtain ⟨here, later⟩ := clear_sentenceRound context pictures begins
      exact here.andThen (ih (later next yields))
  exact body.andThen (guarded_ite (guarded_reportHere _ _) .nil)

theorem clear_strayText (context : Context) (free : cursor.atHeader = false) :
    (strayText context cursor).Clear cursor := by
  have body := clear_sentence context .errorNode false free
  simpa [Outcome.Clear, Outcome.Guarded, strayText] using body

/-! ### Divisions -/

theorem atHeader_of_not_atUnitBoundary (h : ¬cursor.atUnitBoundary = true) :
    cursor.atHeader = false :=
  Bool.eq_false_iff.mpr fun header => h (by simp [Cursor.atUnitBoundary, header])

theorem clear_entries {context : Context} (word : context.mode = .word) (pictures : Bool)
    (cursor : Cursor) : (entries context pictures cursor).Clear cursor := by
  rw [entries, rounds_eq_repeating context (fun _ => faithful_entryRound context pictures)
    (advances_entryRound word pictures)]
  refine guarded_repeating (fun _ cursor => ?_) () cursor
  rw [entryRound_apply]
  refine (guarded_trivia context cursor).andThen ?_
  split
  · exact .nil
  · rename_i inside
    exact clear_sentence _ _ _ (atHeader_of_not_atUnitBoundary inside)

theorem clear_commentEntryParagraph (free : cursor.atHeader = false) :
    (commentEntryParagraph cursor).Clear cursor := by
  refine Outcome.Guarded.andThen (clear_bumpSignificant free _) ?_
  refine Outcome.Guarded.andThen (guarded_expectPeriod _ _ _) ?_
  refine guarded_repeating (fun _ cursor => ?_) () _
  cases read : cursor.next? .commentEntry with
  | none =>
      rw [commentEntryRound_of_end read]
      exact .nil
  | some found =>
      obtain ⟨token, after⟩ := found
      rw [commentEntryRound_of_next? read]
      split
      · exact .nil
      · refine guarded_bump fun line _ again word => ?_
        rcases Cursor.kind_of_commentEntry again with kind | kind
        · cases kind.symm.trans word
        · cases kind.symm.trans word

/-- No boundary begins with an attribute of a program. -/
theorem clear_programAttributes (context : Context) (cursor : Cursor) :
    (programAttributes context cursor).Clear cursor := by
  refine guarded_repeating (fun _ cursor => ?_) () cursor
  have words : ∀ word ∈ programAttributeWords,
      ((Division.ofHeaderWord? word).isSome || Text.sameWord word "END".toList) = false := by
    decide
  refine Outcome.Guarded.andThen (clear_eatIf context (fun token passes => ?_) cursor) ?_
  · obtain ⟨word, mem, same⟩ := List.any_eq_true.mp passes
    exact (Lexeme.isBoundaryWord_of_isWord same).trans (words word mem)
  · cases (eatIf context _ cursor).value <;> exact .nil

section Procedure

variable (settings : Settings)

theorem clear_procedureSentences (cursor : Cursor) :
    (procedureSentences settings cursor).Clear cursor := by
  rw [procedureSentences, rounds_eq_repeating .procedureDivision
    (fun _ => faithful_procedureSentenceRound settings) (advances_procedureSentenceRound settings)]
  refine guarded_repeating (fun _ cursor => ?_) () cursor
  rw [procedureSentenceRound_apply]
  refine (guarded_trivia .procedureDivision cursor).andThen ?_
  split
  · exact .nil
  · rename_i goesOn
    have inside : ¬(trivia .procedureDivision cursor).next.atUnitBoundary = true :=
      fun boundary => goesOn (by simp [boundary])
    exact clear_sentence _ _ _ (atHeader_of_not_atUnitBoundary inside)

theorem clear_procedureSection (free : cursor.atHeader = false) :
    (procedureSection settings cursor).Clear cursor := by
  have header : (sectionHeader cursor).Clear cursor := by
    refine Outcome.Guarded.andThen (clear_bumpSignificant free _) ?_
    refine Outcome.Guarded.andThen (clear_eatWord _ (by decide) _) ?_
    refine Outcome.Guarded.andThen (clear_eatIf _ (fun token priority => ?_) _) ?_
    · exact Lexeme.isBoundaryWord_of_digits (Bool.and_eq_true_iff.mp priority).2
    · exact (guarded_expectPeriod _ _ _).andThen .nil
  exact header.andThen (clear_procedureSentences settings _)

theorem clear_procedureParagraph (free : cursor.atHeader = false) :
    (procedureParagraph settings cursor).Clear cursor := by
  have header : (paragraphHeader cursor).Clear cursor := by
    refine Outcome.Guarded.andThen (clear_bumpSignificant free _) ?_
    exact (guarded_expectPeriod _ _ _).andThen .nil
  exact header.andThen (clear_procedureSentences settings _)

theorem clear_procedureBody (cursor : Cursor) : (procedureBody settings cursor).Clear cursor := by
  rw [procedureBody, rounds_eq_repeating .procedureDivision
    (fun _ => faithful_procedureRound settings) (advances_procedureRound settings)]
  refine guarded_repeating (fun _ cursor => ?_) () cursor
  rw [procedureRound_apply]
  refine (guarded_trivia .procedureDivision cursor).andThen ?_
  split
  · exact .nil
  · rename_i inside
    have free := atHeader_of_not_atUnitBoundary inside
    split
    · exact clear_procedureSection settings free
    · split
      · exact clear_procedureParagraph settings free
      · exact clear_sentence _ _ _ free

end Procedure

/-- A header phrase looks ahead before each of its words. -/
theorem clear_headerPhrase (context : Context) (cursor : Cursor) :
    (headerPhrase context cursor).Clear cursor := by
  have loop : (repeating (fun _ : Unit => headerPhraseRound context) () cursor).Clear cursor := by
    refine guarded_repeating (fun _ cursor => ?_) () cursor
    rw [headerPhraseRound_apply]
    split
    · exact .nil
    · rename_i goesOn
      refine clear_bumpSignificant (atHeader_of_not_atUnitBoundary fun boundary => ?_) context
      exact goesOn (by simp [boundary])
  unfold headerPhrase
  simp only [bind_apply, nextSignificant, Outcome.still_andThen, Outcome.value_still,
    Outcome.next_still]
  cases (cursor.significant? context).map (·.1) with
  | none => exact .nil
  | some token => exact guarded_ite loop .nil

/-! ### What reads no tokens -/

theorem guarded_checkTrailerName (current : Option ProgramIdentity) (name : Option Token)
    (cursor : Cursor) : (checkTrailerName current name cursor).Guarded admits cursor := by
  unfold checkTrailerName
  split
  · exact guarded_ite .nil (guarded_report _ cursor)
  · exact .nil
  · exact guarded_reportHere _ cursor

theorem guarded_checkOrder (settings : Settings) (seen : List Division) (division : Division)
    (cursor : Cursor) : (checkOrder settings seen division cursor).Guarded admits cursor := by
  unfold checkOrder
  simp only [bind_apply, nextSignificant, Outcome.still_andThen, Outcome.value_still,
    Outcome.next_still]
  cases (cursor.significant? .programUnit).map (·.1) with
  | none => exact .nil
  | some token =>
      simp only
      cases orderProblem? seen division with
      | none => exact .nil
      | some problem => exact guarded_report _ cursor

end Production

end CobolTree
