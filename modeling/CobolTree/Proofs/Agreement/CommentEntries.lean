import CobolTree.Proofs.Agreement.EntryLines
import CobolTree.Proofs.Agreement.Identification
import CobolTree.Proofs.Production.FreeText

/-!
Free text for the parser. Behind the header of a paragraph the parser reads blanks and whole lines
until the header of a paragraph, the header of a division or the end of the program is next. Each
line that it reads is a line of free text for the grammar too, and what the grammar skips before its
own free text are blanks and lines that begin as comments (`EntryWalk`); so both end at the same
place, and the grammar's free text begins where a line of the parser's does.
-/

namespace CobolTree

open Grammar Scan

/-! ### Tokens of a heading -/

theorem scanWord_of_dot {text : Text} {size : Nat} (found : scanWord text = (.dot, size)) :
    size = 1 ∧ ∃ rest, text = '.' :: rest := by
  rw [scanWord] at found
  split at found
  · cases found
  · rename_i some
    rcases longest_mem (candidates text) with none | mem
    · rw [none] at found
      cases found
    · rw [found] at mem some
      simp only [candidates, symbols, List.map_cons, List.map_nil, List.cons_append,
        List.nil_append, List.mem_cons, Prod.mk.injEq, reduceCtorEq, false_and, true_and, false_or,
        List.not_mem_nil, or_false] at mem
      rw [symbolLength] at mem
      split at mem
      · rename_i starts
        obtain ⟨rest, split⟩ := List.isPrefixOf_iff_prefix.mp starts
        exact ⟨mem, rest, split.symm⟩
      · exact absurd mem some

namespace Cursor

variable {context : Context} {cursor after : Cursor} {token : Token}

theorem text_of_dot (h : cursor.next? .identificationDivision = some (token, after))
    (dot : token.kind = .dot) : token.text = ['.'] := by
  have found : scan .word cursor.rest = (token.kind, token.text.length) := scan_of_next? h
  rw [scan, dot] at found
  split at found
  · cases found
  · obtain ⟨single, rest, front⟩ := scanWord_of_dot found
    have split := rest_eq_of_next? h
    obtain ⟨c, text⟩ := List.length_eq_one_iff.mp single
    rw [front, text] at split
    rw [text, (List.cons.inj split).1]

theorem text_of_next? (h : cursor.next? context = some (token, after)) :
    token.text = cursor.rest.take token.text.length := by
  rw [rest_eq_of_next? h, List.take_left]

/-- A token without meaning is a run of blanks or a comment. -/
theorem trivia_cases (h : cursor.next? context = some (token, after))
    (trivial : token.isTrivia = true) :
    token.kind = .whitespace ∧ token.text = cursor.rest.take (blankLength cursor.rest) ∨
      token.kind = .comment ∧ commentLength cursor.rest ≠ 0 ∧
        token.text = cursor.rest.take (commentLength cursor.rest) := by
  have found : scan .word cursor.rest = (token.kind, token.text.length) :=
    scan_of_next? (next?_of_shared h (.inr trivial))
  have text := text_of_next? h
  rw [scan] at found
  split at found
  · obtain ⟨kind, size⟩ := Prod.mk.inj found
    rw [← size] at text
    exact .inl ⟨kind.symm, text⟩
  · have word : scanWord cursor.rest = (token.kind, token.text.length) := found
    have comment := scanWord_of_isTrivia (by rw [word]; exact trivial)
    have pos := scanWord_pos cursor.rest
    obtain ⟨kind, size⟩ := Prod.mk.inj (comment.symm.trans word)
    rw [comment] at pos
    rw [← size] at text
    exact .inr ⟨kind.symm, Nat.ne_of_gt pos, text⟩

theorem isMargin_of_mem_blanks {text : Text} {c : Char} (mem : c ∈ text.take (blankLength text))
    (other : c ≠ '\x0c') : isMargin c = true := by
  rcases blank_of_mem_blanks mem with space | breaks
  · simpa [isSpace, other, isMargin, isInlineBlank, or_assoc] using Or.inl space
  · rw [isMargin, breaks, Bool.or_true]

/-- Blanks without a form feed are blanks for the grammar's free text. -/
theorem isMargin_of_blank (h : cursor.next? context = some (token, after))
    (blank : token.kind = .whitespace) (noFeed : '\x0c' ∉ token.text) :
    ∀ c ∈ token.text, isMargin c = true := by
  intro c mem
  rcases trivia_cases h (by rw [Lexeme.isTrivia, blank]; rfl) with ⟨-, split⟩ | ⟨comment, -⟩
  · rw [split] at mem
    exact isMargin_of_mem_blanks mem fun same => noFeed (by rw [split, ← same]; exact mem)
  · cases blank.symm.trans comment

theorem Reads.isMargin_of_blanks {last : Cursor} {tokens : List Token}
    (reads : cursor.Reads tokens last)
    (blanks : ∀ token ∈ tokens, token.kind = .whitespace ∧ '\x0c' ∉ token.text) :
    ∀ c ∈ Lexeme.textOf (Token.lexemes tokens), isMargin c = true := by
  induction reads with
  | nil => exact nofun
  | cons h reads ih =>
      obtain ⟨⟨blank, noFeed⟩, others⟩ := List.forall_mem_cons.mp blanks
      intro c mem
      rw [Token.lexemes_cons, Lexeme.textOf_cons, List.mem_append] at mem
      rcases mem with mem | mem
      · exact isMargin_of_blank h blank noFeed c mem
      · exact ih others c mem

end Cursor

/-! ### Lines of free text -/

theorem isKeyword_of_mem_paragraphWords :
    ∀ word ∈ paragraphWords, IsKeyword word.toList := by decide

theorem exists_letter_of_headed {text : Text} (header : headed text = true) :
    ∃ c rest, text = c :: rest ∧ isWordLetter c = true := by
  obtain ⟨named, words, size, rest, within, read, -⟩ := exists_of_headed header
  exact exists_letter_of_keyword
    (fun word mem => isKeyword_of_mem_paragraphWords word (within word mem)) read

theorem isMargin_of_isWordLetter {c : Char} (letter : isWordLetter c = true) :
    isMargin c = false := by
  by_contra margin
  simp only [isMargin, isInlineBlank, isLineBreak, Bool.not_eq_false, Bool.or_eq_true, beq_iff_eq,
    or_assoc] at margin
  rcases margin with rfl | rfl | rfl | rfl <;> cases letter

/-- A line that ends before a tail ends there without the tail, too. -/
theorem lineLength_of_line {front text tail : Text}
    (line : lineLength (front ++ text ++ tail) = front.length) :
    lineLength (front ++ text) = front.length := by
  have cut : (front ++ text ++ tail).take (front ++ text).length = front ++ text := List.take_left
  rw [lineLength, ← cut, ← List.take_takeWhile, List.length_take]
  rw [lineLength] at line
  rw [line, List.length_append]
  omega

/-- A blank without a form feed, a comment, or a token that begins with no comma and no semicolon. -/
structure Lexeme.Plain (lexeme : Lexeme) : Prop where
  noFeed : lexeme.kind = .whitespace → '\x0c' ∉ lexeme.text
  begins : lexeme.isTrivia = false → lexeme.separates = false

/-- Free text ends at a place, for the grammar and for the parser, if it has the tokens behind an
input: line by line, and behind what the grammar skips; and where the grammar goes on a line of the
parser begins. -/
structure EntryWalk (ends : Text) (tokens : List Token) (input : Input) : Prop where
  lines : entryRest (behindMargin input.rest) = ends
  skipped : entryRest (input.skip false).rest = ends
  begins : (input.skip false).rest = ends ∨ ∃ token ∈ tokens,
    token.isTrivia = false ∧ token.position.index = (input.skip false).offset

namespace EntryWalk

variable {ends text tail : Text} {tokens : List Token} {cursor after : Cursor} {token : Token}
  {context : Context}

theorem mono {more : List Token} {input : Input} (walk : EntryWalk ends tokens input)
    (within : ∀ token ∈ tokens, token ∈ more) : EntryWalk ends more input where
  lines := walk.lines
  skipped := walk.skipped
  begins := walk.begins.imp_right fun ⟨token, mem, begins⟩ => ⟨token, within token mem, begins⟩

/-- At the end, or before the header of a paragraph. -/
theorem of_end (h : ends = [] ∨ headed ends = true) (tokens : List Token) (offset : Nat) :
    EntryWalk ends tokens ⟨offset, ends⟩ := by
  have lines : entryRest ends = ends := entryRest_of_end h
  obtain ⟨margin, skips⟩ : behindMargin ends = ends ∧
      Input.skip false ⟨offset, ends⟩ = ⟨offset, ends⟩ := by
    rcases h with rfl | header
    · exact ⟨rfl, rfl⟩
    · obtain ⟨c, rest, rfl, letter⟩ := exists_letter_of_headed header
      have other : isMargin c = false := isMargin_of_isWordLetter letter
      exact ⟨List.dropWhile_cons_of_neg (by rw [other]; exact Bool.false_ne_true),
        Input.skipFrom_other (isFiller_of_isWordLetter letter)
          (commentLength_of_letter (.inl letter) rest) offset⟩
  exact ⟨by rw [margin, lines], by rw [skips, lines], .inl (by rw [skips])⟩

/-- Before blanks. -/
theorem of_blanks (h : cursor.next? context = some (token, after))
    (blank : token.kind = .whitespace) (noFeed : '\x0c' ∉ token.text)
    (rest : after.rest = text ++ tail)
    (walk : EntryWalk ends tokens ⟨after.position.index, text⟩) :
    EntryWalk ends tokens ⟨cursor.position.index, token.text ++ text⟩ := by
  have trivial : token.isTrivia = true := by rw [Lexeme.isTrivia, blank]; rfl
  have skips := Cursor.skip_of_trivia h trivial rest
  refine ⟨?_, ?_, ?_⟩
  · rw [behindMargin, List.dropWhile_append_of_pos (Cursor.isMargin_of_blank h blank noFeed)]
    exact walk.lines
  · rw [skips]
    exact walk.skipped
  · rw [skips]
    exact walk.begins

/-- Before a comment, which is a line of free text to the parser. -/
theorem of_comment (h : cursor.next? context = some (token, after)) (comment : token.kind = .comment)
    (rest : after.rest = text ++ tail)
    (walk : EntryWalk ends tokens ⟨after.position.index, text⟩) :
    EntryWalk ends tokens ⟨cursor.position.index, token.text ++ text⟩ := by
  have trivial : token.isTrivia = true := by rw [Lexeme.isTrivia, comment]; rfl
  have skips := Cursor.skip_of_trivia h trivial rest
  refine ⟨?_, by rw [skips]; exact walk.skipped, by rw [skips]; exact walk.begins⟩
  rcases Cursor.trivia_cases h trivial with ⟨blank, -⟩ | ⟨-, some, split⟩
  · cases comment.symm.trans blank
  · obtain ⟨behind, front⟩ := exists_of_commentLength some
    have line : commentLength cursor.rest = lineLength cursor.rest := by
      rw [front]
      rfl
    have size : lineLength cursor.rest = token.text.length := by
      have within : lineLength cursor.rest ≤ cursor.rest.length :=
        (List.takeWhile_prefix _).length_le
      rw [split, line, List.length_take, Nat.min_eq_left within]
    obtain ⟨others, starts⟩ : ∃ others, token.text = '*' :: others := by
      rw [split, line, front]
      exact ⟨_, rfl⟩
    have free : ¬(token.text ++ text = [] ∨ headed (token.text ++ text) = true) := by
      rw [starts]
      rintro (none | header)
      · cases none
      · obtain ⟨c, rest, front, letter⟩ := exists_letter_of_headed header
        rw [← (List.cons.inj front).1] at letter
        cases letter
    have here : behindMargin (token.text ++ text) = token.text ++ text := by
      rw [starts]
      rfl
    have rests : cursor.rest = token.text ++ text ++ tail := by
      rw [Cursor.rest_eq_of_next? h, rest, List.append_assoc]
    rw [here, entryRest_of_line free, lineLength_of_line (by rw [← rests, size]), List.drop_left]
    exact walk.lines

/-- A line of free text begins with a character that is no blank, and goes on to its break. -/
theorem exists_solid_of_line (h : cursor.next? .commentEntry = some (token, after))
    (entry : token.kind = .commentEntry) : ∃ c others, token.text = c :: others ∧
      isLineBreak c = false ∧ isSpace c = false ∧
        lineLength cursor.rest = token.text.length := by
  obtain ⟨c, others, starts⟩ := List.exists_cons_of_ne_nil (Cursor.text_ne_nil_of_next? h)
  have found : scan .commentEntry cursor.rest = (token.kind, token.text.length) :=
    Cursor.scan_of_next? h
  rw [scan, entry] at found
  split at found
  · cases found
  · rename_i none
    have blanks := not_ne_iff.mp none
    rw [Cursor.rest_eq_of_next? h, starts, List.cons_append] at blanks
    have inline : isLineBreak c = false := by
      by_contra breaks
      rw [blankLength_cons_of_break (Bool.not_eq_false _ ▸ breaks)] at blanks
      split at blanks <;> cases blanks
    refine ⟨c, others, starts, inline, ?_, (Prod.mk.inj found).2⟩
    by_contra space
    rw [blankLength_cons_of_not_break inline, List.takeWhile_cons,
      if_pos (Bool.not_eq_false _ ▸ space)] at blanks
    cases blanks

/-- The grammar skips a line that begins as a comment, else it stays before it. -/
theorem skip_of_line {c : Char} {others rest : Text} (offset : Nat)
    (starts : token.text = c :: others) (inline : isLineBreak c = false)
    (space : isSpace c = false) (plain : token.separates = false)
    (whole : lineLength (token.text ++ rest) = token.text.length) :
    Input.skip false ⟨offset, token.text ++ rest⟩ =
        Input.skip false ⟨offset + token.text.byteLength, rest⟩ ∨
      Input.skip false ⟨offset, token.text ++ rest⟩ = ⟨offset, token.text ++ rest⟩ := by
  have front : token.text ++ rest = c :: (others ++ rest) := by rw [starts]; rfl
  rcases front_cases c (others ++ rest) with blank | separator | comment | ⟨solid, comment⟩
  · rw [blankLength_cons_of_not_break inline, List.takeWhile_cons, space] at blank
    exact absurd rfl blank
  · rw [Lexeme.separates, starts] at plain
    rcases separator with rfl | rfl <;> cases plain
  · left
    have skipped := (skipped_comment _ comment).skips offset
    have line : commentLength (c :: (others ++ rest)) = token.text.length := by
      obtain ⟨behind, mark⟩ := exists_of_commentLength comment
      rw [← whole, front, mark]
      rfl
    rwa [line, ← front, List.take_left, List.drop_left] at skipped
  · right
    rw [front]
    exact Input.skipFrom_other solid comment _

/-- Before a line that begins with no header, no comma and no semicolon. -/
theorem of_line (h : cursor.next? .commentEntry = some (token, after))
    (entry : token.kind = .commentEntry) (rest : after.rest = text ++ tail)
    (free : headed (token.text ++ text) = false) (plain : token.separates = false)
    (walk : EntryWalk ends tokens ⟨after.position.index, text⟩) :
    EntryWalk ends (token :: tokens) ⟨cursor.position.index, token.text ++ text⟩ := by
  obtain ⟨c, others, starts, inline, space, size⟩ := exists_solid_of_line h entry
  have rests : cursor.rest = token.text ++ text ++ tail := by
    rw [Cursor.rest_eq_of_next? h, rest, List.append_assoc]
  have whole : lineLength (token.text ++ text) = token.text.length :=
    lineLength_of_line (by rw [← rests, size])
  have goesOn : ¬(token.text ++ text = [] ∨ headed (token.text ++ text) = true) := by
    rw [free]
    simp [starts]
  have here : behindMargin (token.text ++ text) = token.text ++ text := by
    have other : isMargin c = false := by
      rw [isMargin, inline, Bool.or_false]
      simp only [isSpace, Bool.or_eq_false_iff] at space
      rw [isInlineBlank, space.1.1, space.1.2]
      rfl
    rw [starts]
    exact List.dropWhile_cons_of_neg (by rw [other]; exact Bool.false_ne_true)
  have lines : entryRest (token.text ++ text) = ends := by
    rw [entryRest_of_line goesOn, whole, List.drop_left]
    exact walk.lines
  rcases skip_of_line cursor.position.index starts inline space plain whole with skips | skips
  · have index : after.position.index = cursor.position.index + token.text.byteLength := by
      rw [(Cursor.place_of_next? h).2, Position.index_advance]
    rw [← index] at skips
    refine ⟨here.symm ▸ lines, by rw [skips]; exact walk.skipped, ?_⟩
    rw [skips]
    exact (walk.mono fun _ mem => List.mem_cons_of_mem token mem).begins
  · refine ⟨here.symm ▸ lines, by rw [skips]; exact lines, .inr ⟨token, List.mem_cons_self, ?_, ?_⟩⟩
    · rw [Lexeme.isTrivia, entry]
      rfl
    · rw [skips, (Cursor.place_of_next? h).1]

end EntryWalk

/-! ### Headers of paragraphs -/

section Headers

variable {cursor after : Cursor} {text rest tail : Text}

theorem isFiller_of_isMargin {c : Char} (margin : isMargin c = true) :
    Input.isFiller c = true := by
  simp only [isMargin, isInlineBlank, isLineBreak, Bool.or_eq_true, beq_iff_eq, or_assoc] at margin
  rcases margin with rfl | rfl | rfl | rfl <;> rfl

/-- The grammars skip the blanks before a line. -/
theorem skip_margin {c : Char} (front : behindMargin text = c :: rest)
    (solid : Input.isFiller c = false) (other : c ≠ '*') (offset : Nat) :
    (Input.skip false ⟨offset, text⟩).rest = c :: rest := by
  have all : ∀ d ∈ text.takeWhile isMargin, Input.isFiller d = true :=
    fun d mem => isFiller_of_isMargin (List.mem_takeWhile_imp mem)
  have skips := Input.skipFrom_append all offset (c :: rest)
  rw [← front, behindMargin, List.takeWhile_append_dropWhile] at skips
  rw [Input.skip, if_neg Bool.false_ne_true, skips, ← behindMargin, front,
    Input.skipFrom_other solid (commentLength_of_ne other rest)]

/-- A period behind blanks is the next token that carries meaning. -/
theorem exists_point (here : cursor.rest = text ++ tail)
    (point : behindMargin text = '.' :: rest) : ∃ dot last,
      cursor.significant? .identificationDivision = some (dot, last) ∧ dot.kind = .dot := by
  have skip := skip_margin point rfl (by decide) cursor.position.index
  cases lead here (fun y => by rw [skip]; exact nofun) with
  | @separator before behind c _ split sort least =>
      -- no separator stands among the blanks
      rw [skip, ← point] at least
      have whole : text.takeWhile isMargin ++ behindMargin text = before ++ c :: behind :=
        List.takeWhile_append_dropWhile.trans split
      rcases List.append_eq_append_iff.mp whole with ⟨others, -, same⟩ | ⟨others, same, same'⟩
      · have := congrArg List.length same
        simp only [List.length_append, List.length_cons] at this
        omega
      · cases others with
        | nil =>
            have := congrArg List.length same'
            simp only [List.nil_append, List.length_cons] at this
            omega
        | cons d others =>
            obtain rfl : c = d := (List.cons.inj same').1
            have margin : isMargin c = true :=
              List.mem_takeWhile_imp (same ▸ List.mem_append_right _ List.mem_cons_self)
            rcases sort with rfl | rfl <;> cases margin
  | ended none =>
      rw [skip] at none
      cases none
  | @settled next same behind _ =>
      have left : (Production.trivia .identificationDivision cursor).next.rest ≠ [] := by
        rw [behind, ← same, skip]
        exact nofun
      obtain ⟨dot, last, read, kind, -⟩ := exists_next?_of_scan left
      rw [behind, ← same, skip, (fronts_dot rest tail).found] at kind
      exact ⟨dot, last, (Production.next?_trivia _ cursor).symm.trans read, kind⟩

/-- The header of a paragraph for the grammar is one for the parser. -/
theorem atIdentificationParagraph_of_headed (here : cursor.rest = text ++ tail)
    (header : headed text = true) : cursor.atIdentificationParagraph = true := by
  obtain ⟨named, words, size, rest, within, read, point⟩ := exists_of_headed header
  have keywords : ∀ word ∈ words, IsKeyword word.toList :=
    fun word mem => isKeyword_of_mem_paragraphWords word (within word mem)
  obtain ⟨c, others, split, hyphen⟩ : ∃ c others, text.drop size = c :: others ∧ c ≠ '-' := by
    cases split : text.drop size with
    | nil =>
        rw [split] at point
        cases point
    | cons c others =>
        refine ⟨c, others, rfl, ?_⟩
        rintro rfl
        rw [split, behindMargin, List.dropWhile_cons_of_neg (by decide)] at point
        cases point
  have fronts : Fronts tail text .word size := fronts_keyword keywords read split hyphen
  have left : cursor.rest ≠ [] := by
    obtain ⟨d, more, front, -⟩ := fronts.begins
    simp [here, front]
  obtain ⟨name, after, next, kind, spelling, behind, -⟩ := exists_next?_of_scan left
  rw [here, fronts.found] at kind spelling behind
  rw [List.take_append_of_le_length fronts.within] at spelling
  rw [List.drop_append_of_le_length fronts.within] at behind
  obtain ⟨dot, last, significant, isDot⟩ := exists_point behind point
  have carries : name.isTrivia = false := by rw [Lexeme.isTrivia, kind]; rfl
  refine Cursor.atIdentificationParagraph_iff.mpr ⟨name, dot, Cursor.ahead_two_eq_iff.mpr
    ⟨after, last, Cursor.significant?_of_next? next carries, significant⟩, ?_⟩
  obtain ⟨⟨word, mem, same⟩, -⟩ := exists_word_of_keyword read
  have isWord : name.isWord word.toList = true :=
    isWord_of_sameWord (congrArg₂ Lexeme.mk kind spelling) same
  have listed : word.toList = "PROGRAM-ID".toList ∨ word.toList ∈ commentEntryWords := by
    have all : ∀ word ∈ paragraphWords,
        word.toList = "PROGRAM-ID".toList ∨ word.toList ∈ commentEntryWords := by decide
    exact all word (within word mem)
  rw [isDot]
  rcases listed with program | entry
  · simp [← program, isWord]
  · have any : commentEntryWords.any (name.isWord ·) = true :=
      List.any_eq_true.mpr ⟨_, entry, isWord⟩
    simp [any]

theorem length_of_sameWord {s t : Text} (same : Text.sameWord s t = true) : s.length = t.length := by
  have lengths := congrArg List.length (eq_of_beq same : s.upper = t.upper)
  simpa [Text.upper] using lengths

/-- A word and a period with blanks between them are a header for the grammar. -/
theorem headed_of_reads {name dot : Token} {word : String} (mem : word ∈ paragraphWords)
    (isWord : name.isWord word.toList = true) {between : List Token} {place last : Cursor}
    (reads : after.Reads between place)
    (blanks : ∀ token ∈ between, token.kind = .whitespace ∧ '\x0c' ∉ token.text)
    (next : place.next? .identificationDivision = some (dot, last)) (isDot : dot.kind = .dot)
    (rest : Text) :
    headed (name.text ++ (Lexeme.textOf (Token.lexemes between) ++ (dot.text ++ rest))) = true := by
  have same := Lexeme.sameWord_of_isWord isWord
  have size := length_of_sameWord same
  have margin := reads.isMargin_of_blanks blanks
  have point : behindMargin (Lexeme.textOf (Token.lexemes between) ++ (dot.text ++ rest)) =
      '.' :: rest := by
    rw [behindMargin, List.dropWhile_append_of_pos margin, Cursor.text_of_dot next isDot]
    rfl
  -- no word goes on behind the name
  have ends : wordEnd.length? (Lexeme.textOf (Token.lexemes between) ++ (dot.text ++ rest)) =
      some 0 := by
    rw [Cursor.text_of_dot next isDot]
    cases split : Lexeme.textOf (Token.lexemes between) with
    | nil => exact length?_wordEnd (by decide) rest
    | cons c others =>
        have blank := margin c (split ▸ List.mem_cons_self)
        have other : isWordLetter c = false := by
          by_contra letter
          rw [isMargin_of_isWordLetter (Bool.not_eq_false _ ▸ letter)] at blank
          cases blank
        rw [List.cons_append, length?_wordEnd (by rintro rfl; cases blank), other]
        rfl
  refine @headed_of_word _ rest _ mem ?_ ?_ ?_
  · rw [← size, List.take_left]
    exact same
  · rw [← size, List.drop_left]
    exact ends
  · rw [← size, List.drop_left]
    exact point

end Headers

/-! ### Rows of tokens -/

section Rows

open Production

variable {cursor last : Cursor} {tokens more : List Token} {ends text tail : Text}

/-- Before blanks and comments that are read. -/
theorem EntryWalk.of_reads (reads : cursor.Reads tokens last)
    (trivial : ∀ token ∈ tokens, token.isTrivia = true)
    (plain : ∀ token ∈ tokens, token.Plain) (rest : last.rest = text ++ tail)
    (walk : EntryWalk ends more ⟨last.position.index, text⟩) :
    EntryWalk ends more
      ⟨cursor.position.index, Lexeme.textOf (Token.lexemes tokens) ++ text⟩ := by
  induction reads with
  | nil => exact walk
  | cons h reads ih =>
      obtain ⟨first, others⟩ := List.forall_mem_cons.mp trivial
      obtain ⟨here, plains⟩ := List.forall_mem_cons.mp plain
      have behind := reads.rest_eq
      rw [rest, ← List.append_assoc] at behind
      have inner := ih others plains rest walk
      rw [Token.lexemes_cons, Lexeme.textOf_cons, List.append_assoc]
      rcases Cursor.trivia_cases h first with ⟨blank, -⟩ | ⟨comment, -⟩
      · exact inner.of_blanks h blank (here.noFeed blank) behind
      · exact inner.of_comment h comment behind

/-- The free text of the grammar ends behind the tokens of an outcome as it does before them. -/
def Outcome.WalksOver {α : Type} (ends text tail : Text) (cursor : Cursor)
    (outcome : Outcome α) : Prop :=
  cursor.rest = Lexeme.textOf (Token.lexemes outcome.tokens) ++ text ++ tail →
    (∀ token ∈ outcome.tokens, token.Plain) →
      EntryWalk ends [] ⟨outcome.next.position.index, text⟩ →
        EntryWalk ends outcome.tokens
          ⟨cursor.position.index, Lexeme.textOf (Token.lexemes outcome.tokens) ++ text⟩

/-- Before the lines that the parser reads as free text. -/
theorem walksOver_lines (ends text tail : Text) (cursor : Cursor) :
    (repeating (fun _ => commentEntryRound) () cursor).WalksOver ends text tail cursor := by
  refine repeating_induction (motive := Outcome.WalksOver ends text tail)
    (fun _ => flat_commentEntryRound.faithful) advances_commentEntryRound ?_ ?_ () cursor
  · intro _ cursor final done rest plain walk
    rcases commentEntryRound_cases cursor with ⟨still, -⟩ | ⟨token, after, -, -, bumps⟩
    · simp only [still] at walk ⊢
      exact walk
    · rw [bumps] at done
      cases done
  · intro _ cursor next outcome yields ih rest plain walk
    rcases commentEntryRound_cases cursor with ⟨still, -⟩ | ⟨token, after, read, sort, bumps⟩
    · rw [still] at yields
      cases yields
    · simp only [bumps, Outcome.tokens_andThen, Outcome.next_andThen, Outcome.tokens_withValue,
        Outcome.next_withValue, tokens_bump read, next_bump read, List.cons_append,
        List.nil_append, Token.lexemes_cons, Lexeme.textOf_cons, List.append_assoc]
        at rest plain walk ih ⊢
      obtain ⟨first, others⟩ := List.forall_mem_cons.mp plain
      have whole := rest
      rw [Cursor.rest_eq_of_next? read] at rest
      have behind := List.append_cancel_left rest
      have inner := ih (by rw [behind, List.append_assoc]) others walk
      rw [← List.append_assoc] at behind
      cases blank : token.isWhitespace with
      | true =>
          have kind : token.kind = .whitespace := eq_of_beq blank
          exact (inner.of_blanks read kind (first.noFeed kind) behind).mono
            fun _ mem => List.mem_cons_of_mem token mem
      | false =>
          have entry : token.kind = .commentEntry := by
            rcases Cursor.kind_of_commentEntry read with white | line
            · rw [Lexeme.isWhitespace, white] at blank
              cases blank
            · exact line
          have carries : token.isTrivia = false := by rw [Lexeme.isTrivia, entry]; rfl
          have free : headed (token.text ++
              (Lexeme.textOf (Token.lexemes outcome.tokens) ++ text)) = false := by
            by_contra header
            have at_ := atIdentificationParagraph_of_headed
              (by rw [whole, List.append_assoc, List.append_assoc]) (Bool.not_eq_false _ ▸ header)
            rcases sort with isBlank | ⟨-, other⟩
            · cases blank.symm.trans isBlank
            · cases at_.symm.trans other
          exact inner.of_line read entry behind free (first.begins carries)

end Rows

/-! ### Free text behind a heading -/

/-- The offset behind all that an input holds. -/
def Input.stop (input : Input) : Nat := input.offset + Text.byteLength input.rest

theorem Input.Moves.stop_eq {input next : Input} {text : Text} (moves : input.Moves text next) :
    next.stop = input.stop := by
  rw [Input.stop, Input.stop, moves.rest, moves.offset, Text.byteLength_append, Nat.add_assoc]

theorem Input.stop_skip (input : Input) : (input.skip false).stop = input.stop := by
  obtain ⟨skipped, moves, -⟩ := input.exists_moves_skip false
  exact moves.stop_eq

theorem Input.stop_drop (input : Input) (count : Nat) : (input.drop count).stop = input.stop :=
  (input.moves_drop count).stop_eq

theorem Input.eq_of_stop {input other : Input} (rest : input.rest = other.rest)
    (stop : input.stop = other.stop) : input = other := by
  obtain ⟨offset, text⟩ := input
  obtain ⟨offset', text'⟩ := other
  obtain rfl : text = text' := rest
  obtain rfl : offset = offset' := Nat.add_right_cancel stop
  rfl

section Entry

open Production

variable {ends text tail : Text} {input : Input} {cursor : Cursor}

/-- The grammars skip up to the end of free text. -/
theorem skip_behindMargin (closes : ends = [] ∨ headed ends = true)
    (behind : behindMargin text = ends) (offset : Nat) :
    (Input.skip false ⟨offset, text⟩).rest = ends := by
  rcases closes with rfl | header
  · have all : IsFiller (fun _ => True) 0 text := by
      refine isFiller_of_forall fun c mem => isFiller_of_isMargin ?_
      exact List.dropWhile_eq_nil_iff.mp behind c mem
    exact Input.rest_skipFrom_of_isFiller all false offset
  · obtain ⟨c, rest, rfl, letter⟩ := exists_letter_of_headed header
    exact skip_margin behind (isFiller_of_isWordLetter letter) (by rintro rfl; cases letter) offset

/-- What is left behind filler begins with no line break. -/
theorem isLineBreak_head?_skip {c : Char} (head : (input.skip false).rest.head? = some c) :
    isLineBreak c = false := by
  obtain ⟨others, front⟩ := List.head?_eq_some_iff.mp head
  obtain ⟨d, _, split, solid, -⟩ :=
    exists_solid (Input.skip_skip input) (by rw [front]; exact List.cons_ne_nil c others)
  obtain rfl : c = d := (List.cons.inj (front.symm.trans split)).1
  by_contra breaks
  exact Bool.false_ne_true
    (solid.symm.trans (isFiller_of_isLineBreak (Bool.not_eq_false _ ▸ breaks)))

/-- Behind tokens that are read, a cursor stands at every input that has the same text left, up to
the same end. -/
theorem stands_behind_tokens {tokens : List Token} {last : Cursor} {next : Input}
    (reads : cursor.Reads tokens last) (rest : last.rest = text ++ tail)
    (skip : Input.skip false ⟨cursor.position.index, Lexeme.textOf (Token.lexemes tokens) ++ text⟩ =
      input.skip false) (stop : next.stop = input.stop)
    (left : (Input.skip false ⟨last.position.index, text⟩).rest = (next.skip false).rest) :
    Stands tail next last := by
  refine ⟨text, rest, Input.eq_of_stop left ?_⟩
  have same := congrArg Input.stop skip
  rw [Input.stop_skip, Input.stop_skip] at same
  rw [Input.stop_skip, Input.stop_skip, stop, ← same, Input.stop, Input.stop, reads.position_eq,
    Position.index_advance, Text.byteLength_append, Nat.add_assoc]

/-- The parser's free text goes along with the grammar's, up to a place where no more free text
follows. -/
theorem stands_behind_entry {inner : Reading} (closes : ends = [] ∨ headed ends = true)
    (read : (Expr.opt commentEntry).read? false (input.skip false) = some inner)
    (stands : Stands tail input cursor)
    (rest : (repeating (fun _ => commentEntryRound) () cursor).next.rest = text ++ tail)
    (plain : ∀ token ∈ (repeating (fun _ => commentEntryRound) () cursor).tokens, token.Plain)
    (walk : EntryWalk ends []
      ⟨(repeating (fun _ => commentEntryRound) () cursor).next.position.index, text⟩) :
    Stands tail inner.next (repeating (fun _ => commentEntryRound) () cursor).next ∧
      (repeating (fun _ => commentEntryRound) () cursor).Bears (Tree.leavesOf inner.trees) := by
  have reads := (flat_repeating (fun _ => flat_commentEntryRound) () cursor).reads
  have walks := walksOver_lines ends text tail cursor
  generalize repeating (fun _ => commentEntryRound) () cursor = lines at *
  obtain ⟨front, here, skip⟩ := stands
  have whole := reads.rest_eq
  rw [rest, ← List.append_assoc] at whole
  obtain rfl : front = Lexeme.textOf (Token.lexemes lines.tokens) ++ text :=
    List.append_cancel_right (here.symm.trans whole)
  obtain ⟨-, skipped, begins⟩ := walks whole plain walk
  rw [skip] at skipped begins
  have ended : (Input.skip false ⟨lines.next.position.index, text⟩).rest = ends := by
    rcases walk.begins with ended | ⟨_, mem, -⟩
    · exact ended
    · cases mem
  have agrees := length?_commentEntry fun c (head : (input.skip false).rest.head? = some c) =>
    isLineBreak_head?_skip head
  rcases Expr.read?_opt read with found | ⟨unread, rfl⟩
  · obtain ⟨size, length, rfl⟩ := Expr.exists_leaf found
    have length : commentEntry.length? (input.skip false).rest = some size := length
    rw [length] at agrees
    have left : behindMargin ((input.skip false).rest.drop size) = ends := agrees.trans skipped
    have stop : ((input.skip false).drop size).stop = input.stop :=
      (Input.stop_drop _ _).trans (Input.stop_skip input)
    have same := ended.trans (skip_behindMargin closes left ((input.skip false).drop size).offset).symm
    refine ⟨stands_behind_tokens reads rest skip stop same, fun piece mem => ?_⟩
    obtain rfl : piece = input.piece .commentEntry size := by
      simpa [Tree.leavesOf, Tree.leaves] using mem
    rcases begins with same | begins
    · rw [length?_commentEntry_of_end (same ▸ closes)] at length
      cases length
    · exact begins
  · have none : commentEntry.length? (input.skip false).rest = Option.none :=
      Expr.length?_of_unread unread
    rw [none] at agrees
    have left : ((input.skip false).skip false).rest = ends := by
      rw [Input.skip_skip]
      exact agrees.symm.trans skipped
    have same := ended.trans left.symm
    refine ⟨stands_behind_tokens reads rest skip (Input.stop_skip input) same, fun piece mem => ?_⟩
    cases mem

end Entry

end CobolTree
