import CobolTree.Proofs.Agreement.Tails
import CobolTree.Proofs.Production.Progress

/-!
A grammar and the parser at one place. The grammar has the text of one division before it, the
parser goes on into what follows: the cursor `Stands` at the input, with a tail behind it, if both
skip to the same text. What a grammar skips the parser consumes, up to a comma or a semicolon, which
the grammar takes for a blank (`Lead`); so where the grammar reads a leaf, the parser finds a token
of the same text at the same place, or it is held up by a separator (`Stands.step`).
-/

namespace CobolTree

open Grammar Production Scan

/-- A comma or a semicolon comes first. -/
def Lexeme.separates (lexeme : Lexeme) : Bool :=
  lexeme.text.head? == some ',' || lexeme.text.head? == some ';'

/-- A comma or a semicolon is next at the cursor. -/
def Cursor.AtSeparator (cursor : Cursor) : Prop :=
  ∃ token after, cursor.significant? .identificationDivision = some (token, after) ∧
    (token.kind = .comma ∨ token.kind = .semicolon) ∧ token.separates = true

theorem commentLength_of_ne {c : Char} (other : c ≠ '*') (rest : Text) :
    commentLength (c :: rest) = 0 := by
  by_contra comment
  obtain ⟨behind, split⟩ := exists_of_commentLength comment
  exact other (List.cons.inj split).1

/-! ### The token at the cursor -/

theorem exists_next?_of_scan {cursor : Cursor} (left : cursor.rest ≠ []) :
    ∃ token after, cursor.next? .identificationDivision = some (token, after) ∧
      token.kind = (scan .word cursor.rest).1 ∧
        token.text = cursor.rest.take (scan .word cursor.rest).2 ∧
          after.rest = cursor.rest.drop (scan .word cursor.rest).2 ∧
            after.position.index = cursor.position.index + token.text.byteLength := by
  have some : ¬cursor.rest.isEmpty = true := by simp [left]
  rw [Cursor.next?, if_neg some]
  exact ⟨_, _, rfl, rfl, rfl, rfl, Position.index_advance _ _⟩

/-! ### Up to the next leaf -/

/-- What blanks and comments lead to, at a cursor with a text and a tail behind it: to a separator
that the grammars skip, to where the grammars skip to, or through all of the text. -/
inductive Lead (tail text : Text) (cursor : Cursor) : Prop
  | separator {before behind : Text} {c : Char} : cursor.AtSeparator → text = before ++ c :: behind →
      c = ',' ∨ c = ';' →
        (Input.skip false ⟨cursor.position.index, text⟩).rest.length ≤ behind.length →
          Lead tail text cursor
  | settled {next : Input} : Input.skip false ⟨cursor.position.index, text⟩ = next →
      (trivia .identificationDivision cursor).next.rest = next.rest ++ tail →
        (trivia .identificationDivision cursor).next.position.index = next.offset →
          Lead tail text cursor
  | ended : (Input.skip false ⟨cursor.position.index, text⟩).rest = [] →
      (trivia .identificationDivision cursor).next.rest.length ≤ tail.length →
        Lead tail text cursor

/-- A blank or a comment first. -/
theorem Lead.of_trivia {tail front text : Text} {cursor after : Cursor} {token : Token}
    (lead : Lead tail text after)
    (next : cursor.next? .identificationDivision = some (token, after))
    (trivial : token.isTrivia = true)
    (skips : Input.skip false ⟨cursor.position.index, front ++ text⟩ =
      Input.skip false ⟨after.position.index, text⟩) : Lead tail (front ++ text) cursor := by
  have same : (trivia .identificationDivision cursor).next =
      (trivia .identificationDivision after).next := by
    rw [trivia_of_trivia next trivial]
    rfl
  cases lead with
  | @separator before behind c at_ split sort least =>
      refine .separator ?_ (by rw [split, ← List.append_assoc]) sort (by rwa [skips])
      obtain ⟨found, behind, significant, kind⟩ := at_
      exact ⟨found, behind, Cursor.significant?_of_trivia next trivial ▸ significant, kind⟩
  | settled skip rest offset =>
      exact .settled (skips.trans skip) (by rw [same, rest]) (by rw [same, offset])
  | ended skip least => exact .ended (by rw [skips, skip]) (by rw [same]; exact least)

section Leads

variable {tail others : Text} {cursor : Cursor} {c : Char}

/-- Over a blank or a comment, if shorter texts are led through. -/
theorem lead_of_trivia (rest : cursor.rest = c :: others ++ tail)
    (unmarked : ∀ y, (Input.skip false ⟨cursor.position.index, c :: others⟩).rest ≠ '*' :: y)
    (trivial : blankLength (c :: others) ≠ 0 ∨ commentLength (c :: others) ≠ 0)
    (ih : ∀ (text : Text) (after : Cursor), text.length < (c :: others).length →
      after.rest = text ++ tail →
        (∀ y, (Input.skip false ⟨after.position.index, text⟩).rest ≠ '*' :: y) →
          Lead tail text after) :
    Lead tail (c :: others) cursor := by
  have left : cursor.rest ≠ [] := by simp [rest]
  obtain ⟨token, after, next, kind, text, behind, offset⟩ := exists_next?_of_scan left
  rw [rest] at kind text behind
  obtain ⟨isTrivia, split⟩ := trivia_append trivial tail
  have passed : token.isTrivia = true := by rw [Lexeme.isTrivia, kind, isTrivia]
  rcases split with same | ⟨beyond, filler⟩
  · have skipped : Skipped (c :: others) (scan .word (c :: others)) := by
      rcases skipped_or_settled (.inl rfl) c others with skipped | ⟨solid, comment⟩
      · exact skipped
      · rcases trivial with blanks | comments
        · exact absurd (blankLength_of_solid solid others) blanks
        · exact absurd comment comments
    have within := scan_le .word (List.cons_ne_nil c others)
    have pos := scan_pos .word (List.cons_ne_nil c others)
    rw [same, List.take_append_of_le_length within] at text
    rw [same, List.drop_append_of_le_length within] at behind
    have skips := skipped.skips cursor.position.index
    rw [← text, ← offset] at skips
    have inner := ih _ after (by simp only [List.length_drop, List.length_cons]; omega) behind
      fun y ends => unmarked y ((congrArg Input.rest skips).trans ends)
    have all := List.take_append_drop (scan .word (c :: others)).2 (c :: others)
    rw [← all]
    exact inner.of_trivia next passed (by rw [all]; exact skips)
  · refine .ended (Input.rest_skipFrom_of_isFiller filler false _) ?_
    have least := trivia_length_le .identificationDivision after
    rw [trivia_of_trivia next passed]
    refine Nat.le_trans least ?_
    rw [behind, List.length_drop, List.length_append]
    omega

theorem lead_of_separator (rest : cursor.rest = c :: others ++ tail)
    (separator : c = ',' ∨ c = ';') : Lead tail (c :: others) cursor := by
  have left : cursor.rest ≠ [] := by simp [rest]
  obtain ⟨token, after, next, kind, text, -⟩ := exists_next?_of_scan left
  have word : Mode.word = .word ∨ Mode.word = .sentence := .inl rfl
  obtain ⟨found, sort, scanned⟩ := scan_of_separator word separator (others ++ tail)
  rw [rest, List.cons_append, scanned] at kind text
  refine .separator ⟨token, after, Cursor.significant?_of_next? next ?_, kind ▸ sort, ?_⟩
    (List.nil_append (c :: others)).symm separator ?_
  · rw [Lexeme.isTrivia, kind]
    rcases sort with rfl | rfl <;> rfl
  · rw [Lexeme.separates, text]
    rcases separator with rfl | rfl <;> rfl
  · -- the grammars skip at least the separator
    have filler : Input.isFiller c = true := by rcases separator with rfl | rfl <;> rfl
    have across : Input.skip false ⟨cursor.position.index, c :: others⟩ =
        Input.skipFrom false (cursor.position.index + c.utf8Size) others :=
      Input.skipFrom_blank_cons filler _ _
    obtain ⟨skipped, moves, -⟩ :=
      Input.exists_moves_skipFrom false (cursor.position.index + c.utf8Size) others
    have split : others = skipped ++ (Input.skipFrom false _ others).rest := moves.rest
    have least := congrArg List.length split
    rw [List.length_append] at least
    rw [across]
    omega

theorem lead_of_solid (rest : cursor.rest = c :: others ++ tail)
    (solid : Input.isFiller c = false) (comment : commentLength (c :: others) = 0)
    (other : c ≠ '*') : Lead tail (c :: others) cursor := by
  have left : cursor.rest ≠ [] := by simp [rest]
  obtain ⟨token, after, next, kind, -⟩ := exists_next?_of_scan left
  have carries : token.isTrivia = false := by
    rw [Lexeme.isTrivia, kind, rest]
    exact isTrivia_scan_of_solid solid (commentLength_of_ne other _)
  refine .settled (Input.skipFrom_other solid comment _) ?_ ?_
  · rw [trivia_of_carries next carries]
    exact rest
  · rw [trivia_of_carries next carries]
    rfl

end Leads

theorem lead {tail text : Text} {cursor : Cursor} (rest : cursor.rest = text ++ tail)
    (unmarked : ∀ y, (Input.skip false ⟨cursor.position.index, text⟩).rest ≠ '*' :: y) :
    Lead tail text cursor := by
  match text with
  | [] =>
      refine .ended rfl ?_
      have least := trivia_length_le .identificationDivision cursor
      rwa [rest] at least
  | c :: others =>
      have across (trivial : blankLength (c :: others) ≠ 0 ∨ commentLength (c :: others) ≠ 0) :=
        lead_of_trivia rest unmarked trivial fun text after shorter => lead
      rcases front_cases c others with blanks | separator | comment | ⟨solid, comment⟩
      · exact across (.inl blanks)
      · exact lead_of_separator rest separator
      · exact across (.inr comment)
      · refine lead_of_solid rest solid comment ?_
        rintro rfl
        exact unmarked others (congrArg Input.rest (Input.skipFrom_other solid comment _))
termination_by text.length
decreasing_by exact shorter

/-! ### The cursor at the input -/

/-- The text in front of the tail skips to where the input does. -/
def Stands (tail : Text) (input : Input) (cursor : Cursor) : Prop :=
  ∃ text, cursor.rest = text ++ tail ∧
    Input.skip false ⟨cursor.position.index, text⟩ = input.skip false

/-- The scanner finds a token that lies in front of the tail and carries meaning. -/
structure Fronts (tail text : Text) (kind : Kind) (size : Nat) : Prop where
  found : scan .word (text ++ tail) = (kind, size)
  within : size ≤ text.length
  carries : kind.isTrivia = false
  begins : ∃ c rest, text = c :: rest ∧ c ≠ '*'

section Fronts

variable {tail text rest : Text} {c : Char} {size : Nat}

theorem Fronts.of_scanWord {kind : Kind} (front : text = c :: rest)
    (solid : Input.isFiller c = false) (other : c ≠ '*')
    (found : scanWord (text ++ tail) = (kind, size)) (within : size ≤ text.length)
    (carries : kind.isTrivia = false) : Fronts tail text kind size := by
  refine ⟨?_, within, carries, c, rest, front, other⟩
  subst front
  rw [List.cons_append, scan_of_blankLength (blankLength_of_solid solid _) (.inl rfl), if_pos rfl,
    ← List.cons_append, found]

theorem Fronts.of_word (left : text ≠ []) (found : scanWord (text ++ tail) = (.word, size))
    (within : size ≤ text.length) : Fronts tail text .word size := by
  obtain ⟨c, rest, front⟩ := List.exists_cons_of_ne_nil left
  obtain ⟨d, others, same, letter⟩ := exists_cons_of_scanWord (.inl (congrArg Prod.fst found))
  obtain rfl : c = d := (List.cons.inj (front ▸ same)).1
  have other : c ≠ '*' := by
    rintro rfl
    cases letter
  exact .of_scanWord front (isFiller_of_isWordLetter letter) other found within rfl

theorem fronts_keyword {named : Rule} {words : List String}
    (keywords : ∀ word ∈ words, IsKeyword word.toList)
    (read : (keyword named words).length? text = some size)
    (behind : text.drop size = c :: rest) (hyphen : c ≠ '-') : Fronts tail text .word size := by
  have left : text ≠ [] := by
    rintro rfl
    cases List.drop_nil.symm.trans behind
  exact .of_word left (scanWord_keyword_append keywords read behind hyphen)
    (Expr.fits_length? _ _ _ read)

theorem fronts_cobolWord (read : cobolWord.length? text = some size)
    (behind : text.drop size = c :: rest) (hyphen : c ≠ '-') (quote : isQuote c = false) :
    Fronts tail text .word size := by
  have left : text ≠ [] := by
    rintro rfl
    cases List.drop_nil.symm.trans behind
  exact .of_word left (scanWord_cobolWord_append read behind hyphen quote)
    (Expr.fits_length? _ _ _ read)

theorem fronts_literal (read : alphanumericLiteral.length? text = some size)
    (behind : text.drop size = c :: rest) : Fronts tail text .stringLiteral size := by
  have found := @scanWord_literal_append text tail _ _ _ read behind
  have within := Expr.fits_length? _ _ _ read
  rw [length?_alphanumericLiteral] at read
  split at read
  · rename_i length q body opened
    rcases opening?_cases opened with ⟨quote, -, front⟩ | ⟨first, literal, -, -, front⟩
    · have other : q ≠ '*' := by
        rintro rfl
        cases quote
      exact .of_scanWord front (isFiller_of_isQuote quote) other found within rfl
    · have letter := isWordLetter_of_isLiteralLetter literal
      have other : first ≠ '*' := by
        rintro rfl
        cases letter
      exact .of_scanWord front (isFiller_of_isWordLetter letter) other found within rfl
  · cases read

theorem fronts_dot (rest tail : Text) : Fronts tail ('.' :: rest) .dot 1 := by
  have symbol : scanSymbol ('.' :: (rest ++ tail)) = (.dot, 1) := by
    simp [scanSymbol, symbolMatches, symbols, symbolLength, longest, longer]
  exact ⟨scan_of_scanSentence (.inl rfl) rfl (scanSentence_of_symbol symbol (by decide) rfl)
    (by decide), by simp, rfl, '.', rest, rfl, by decide⟩

end Fronts

namespace Stands

variable {tail : Text} {input : Input} {cursor : Cursor}

theorem of_skip {other : Input} (stands : Stands tail input cursor)
    (same : input.skip false = other.skip false) : Stands tail other cursor := by
  obtain ⟨text, rest, skip⟩ := stands
  exact ⟨text, rest, skip.trans same⟩

/-- Before blanks and comments that are read. -/
theorem of_reads {middle : Cursor} {tokens : List CobolTree.Token}
    (reads : cursor.Reads tokens middle) (trivial : ∀ token ∈ tokens, token.isTrivia = true)
    (stands : Stands tail input middle) : Stands tail input cursor := by
  obtain ⟨text, rest, skip⟩ := stands
  refine ⟨Lexeme.textOf (Token.lexemes tokens) ++ text, ?_, (reads.skip trivial rest).trans skip⟩
  rw [reads.rest_eq, rest, List.append_assoc]

/-- A token of the parser where the input goes on. -/
structure Token (tail : Text) (input : Input) (cursor : Cursor) (kind : Kind) (size : Nat)
    (token : CobolTree.Token) (after : Cursor) : Prop where
  significant : cursor.significant? .identificationDivision = some (token, after)
  toLexeme : token.toLexeme = ⟨kind, (input.skip false).rest.take size⟩
  index : token.position.index = (input.skip false).offset
  stands : Stands tail ((input.skip false).drop size) after

/-- Where the grammar reads a leaf, the parser finds a token of the same text, if it is not held up
by a separator. -/
theorem step {kind : Kind} {size : Nat} (stands : Stands tail input cursor)
    (fronts : Fronts tail (input.skip false).rest kind size) :
    cursor.AtSeparator ∨ ∃ token after, Token tail input cursor kind size token after := by
  obtain ⟨text, rest, skip⟩ := stands
  obtain ⟨c, others, front, other⟩ := fronts.begins
  have unmarked (y : Text) : (Input.skip false ⟨cursor.position.index, text⟩).rest ≠ '*' :: y := by
    rw [skip, front]
    exact fun same => other (List.cons.inj same).1
  cases lead rest unmarked with
  | separator at_ => exact .inl at_
  | ended none =>
      rw [skip, front] at none
      cases none
  | @settled next same behind offset =>
      obtain rfl : next = input.skip false := same.symm.trans skip
      have left : (trivia .identificationDivision cursor).next.rest ≠ [] := by simp [behind, front]
      obtain ⟨token, after, read, kinds, text, goesOn, index⟩ :=
        exists_next?_of_scan left
      rw [behind, fronts.found] at kinds text goesOn
      rw [List.take_append_of_le_length fronts.within] at text
      rw [List.drop_append_of_le_length fronts.within] at goesOn
      have place := (Cursor.place_of_next? read).1
      refine .inr ⟨token, after, ⟨(next?_trivia _ cursor).symm.trans read, ?_, ?_, ?_⟩⟩
      · exact congrArg₂ Lexeme.mk kinds text
      · rw [place, offset]
      · refine ⟨(input.skip false).rest.drop size, goesOn, ?_⟩
        rw [Input.drop, index, offset, text]

end Stands

/-! ### Productions along a grammar -/

/-- Every piece begins where a token does that carries meaning. -/
def Outcome.Bears {α : Type} (outcome : Outcome α) (pieces : List Piece) : Prop :=
  ∀ piece ∈ pieces, ∃ token ∈ outcome.tokens,
    token.isTrivia = false ∧ token.position.index = piece.start

/-- The outcome goes along with a grammar that has read pieces: it stands at the next input, or it
is held up by a separator. -/
def Outcome.Keeps {α : Type} (tail : Text) (pieces : List Piece) (next : Input)
    (outcome : Outcome α) : Prop :=
  outcome.next.AtSeparator ∨ Stands tail next outcome.next ∧ outcome.Bears pieces

namespace Outcome

variable {α β : Type} {tail : Text} {pieces more : List Piece} {middle next : Input}
  {first : Outcome α} {second : Outcome β}

theorem Bears.andThen (h : first.Bears pieces) (k : second.Bears more) :
    (first.andThen second).Bears (pieces ++ more) := by
  intro piece mem
  rcases List.mem_append.mp mem with mem | mem
  · obtain ⟨token, within, carries, start⟩ := h piece mem
    exact ⟨token, List.mem_append_left _ within, carries, start⟩
  · obtain ⟨token, within, carries, start⟩ := k piece mem
    exact ⟨token, List.mem_append_right _ within, carries, start⟩

/-- One along a grammar, then another. What is held up by a separator stays there. -/
theorem Keeps.andThen (h : first.Keeps tail pieces middle)
    (halts : first.next.AtSeparator → second.next = first.next)
    (k : Stands tail middle first.next → second.Keeps tail more next) :
    (first.andThen second).Keeps tail (pieces ++ more) next := by
  rcases h with at_ | ⟨stands, bears⟩
  · left
    rw [next_andThen, halts at_]
    exact at_
  · rcases k stands with at_ | ⟨behind, others⟩
    · exact .inl at_
    · exact .inr ⟨behind, bears.andThen others⟩

theorem Keeps.withValue (h : first.Keeps tail pieces next) (value : β) :
    (first.withValue value).Keeps tail pieces next := h

end Outcome

/-- The piece that a rule without parts reads where the input goes on. -/
def Input.piece (input : Input) (named : Rule) (size : Nat) : Piece :=
  ⟨named, (input.skip false).rest.take size, (input.skip false).offset⟩

namespace Production

variable {tail : Text} {input : Input} {cursor after : Cursor} {kind : Kind} {size : Nat}
  {token : Token} {test : Token → Bool}

theorem bears_bumpSignificant (here : Stands.Token tail input cursor kind size token after)
    (named : Rule) :
    (bumpSignificant .identificationDivision cursor).Bears [input.piece named size] := by
  intro piece mem
  obtain rfl := List.mem_singleton.mp mem
  refine ⟨token, ?_, Cursor.isTrivia_of_significant? here.significant, here.index⟩
  rw [tokens_bumpSignificant here.significant]
  exact List.mem_append_right _ List.mem_cons_self

theorem keeps_bumpSignificant (here : Stands.Token tail input cursor kind size token after)
    (named : Rule) : (bumpSignificant .identificationDivision cursor).Keeps tail
      [input.piece named size] ((input.skip false).drop size) :=
  .inr ⟨next_bumpSignificant here.significant ▸ here.stands, bears_bumpSignificant here named⟩

/-! ### Held up by a separator -/

theorem eatIf_of_atSeparator
    (fails : ∀ token : Token, token.kind = .comma ∨ token.kind = .semicolon → test token = false)
    (at_ : cursor.AtSeparator) :
    eatIf .identificationDivision test cursor = .still none cursor := by
  obtain ⟨token, after, significant, kind, -⟩ := at_
  exact eatIf_of_not_test significant (fails token kind)

theorem expectPeriod_fields (context : Context) (site : PeriodSite) (cursor : Cursor) :
    (expectPeriod context site cursor).tokens =
        (eatIf context (·.kind == .dot) cursor).tokens ∧
      (expectPeriod context site cursor).next = (eatIf context (·.kind == .dot) cursor).next := by
  simp only [expectPeriod, bind_apply]
  cases (eatIf context (·.kind == .dot) cursor).value with
  | none => simp
  | some period => simp

theorem isDot_of_separator (token : Token) (sort : token.kind = .comma ∨ token.kind = .semicolon) :
    (token.kind == .dot) = false := by
  rcases sort with kind | kind <;> rw [kind] <;> rfl

theorem next_expectPeriod_of_atSeparator (site : PeriodSite) (at_ : cursor.AtSeparator) :
    (expectPeriod .identificationDivision site cursor).next = cursor := by
  rw [(expectPeriod_fields _ _ _).2, eatIf_of_atSeparator isDot_of_separator at_]
  rfl

/-! ### Along a leaf -/

theorem keeps_eatIf (named : Rule) (stands : Stands tail input cursor)
    (fronts : Fronts tail (input.skip false).rest kind size)
    (passes : ∀ token : Token,
      token.toLexeme = ⟨kind, (input.skip false).rest.take size⟩ → test token = true)
    (fails : ∀ token : Token, token.kind = .comma ∨ token.kind = .semicolon → test token = false) :
    (eatIf .identificationDivision test cursor).Keeps tail [input.piece named size]
      ((input.skip false).drop size) := by
  rcases stands.step fronts with at_ | ⟨token, after, here⟩
  · left
    rw [eatIf_of_atSeparator fails at_]
    exact at_
  · rw [eatIf_of_test here.significant (passes token here.toLexeme)]
    exact keeps_bumpSignificant here named

theorem keeps_expectPeriod (named : Rule) (site : PeriodSite) (stands : Stands tail input cursor)
    {rest : Text} (point : (input.skip false).rest = '.' :: rest) :
    (expectPeriod .identificationDivision site cursor).Keeps tail [input.piece named 1]
      ((input.skip false).drop 1) := by
  have fronts : Fronts tail (input.skip false).rest .dot 1 := point ▸ fronts_dot rest tail
  have eaten : (eatIf .identificationDivision (·.kind == .dot) cursor).Keeps tail
      [input.piece named 1] ((input.skip false).drop 1) :=
    keeps_eatIf named stands fronts
      (fun token same => by rw [congrArg Lexeme.kind same]; rfl) isDot_of_separator
  obtain ⟨tokens, next⟩ := expectPeriod_fields .identificationDivision site cursor
  rw [Outcome.Keeps, Outcome.Bears, tokens, next]
  exact eaten

end Production

end CobolTree
