import CobolTree.Proofs.Agreement.Stands
import CobolTree.Proofs.Grammar.Row

/-!
The header of the IDENTIFICATION DIVISION and its PROGRAM-ID paragraph, for the grammar and for the
parser. Where the grammar reads one of them, the parser reads it along with the grammar, leaf for
leaf (`keeps_identificationHeader`, `keeps_programIdParagraph`), unless a separator holds it up.
-/

namespace CobolTree

open CobolTree.Expr Grammar Production

/-! ### Leaves -/

/-- What a rule without parts reads where the input goes on. -/
theorem Expr.exists_leaf {named : Rule} {body : Expr} {input : Input} {reading : Reading}
    (read : (rule named true body).read? false (input.skip false) = some reading) : ∃ size,
      body.length? (input.skip false).rest = some size ∧
        reading = ⟨[.leaf (input.piece named size)], (input.skip false).drop size⟩ := by
  rw [read?_atomicRule] at read
  obtain ⟨size, length, rfl⟩ := Option.map_eq_some_iff.mp read
  exact ⟨size, length, rfl⟩

theorem Expr.length?_of_unread {named : Rule} {body : Expr} {input : Input}
    (unread : (rule named true body).read? false input = none) :
    (rule named true body).length? input.rest = none := by
  rw [read?_atomicRule] at unread
  exact Option.map_eq_none_iff.mp unread

section Follows

variable {input : Input} {named : Rule} {words : List String} {size : Nat}

theorem follows_of_keyword (keywords : ∀ word ∈ words, IsKeyword word.toList)
    (read : (keyword named words).length? (input.skip false).rest = some size) : input.Follows := by
  obtain ⟨c, rest, front, letter⟩ := exists_letter_of_keyword keywords read
  exact ⟨c, rest, front, .inl letter⟩

theorem exists_of_dot (read : dot.length? (input.skip false).rest = some size) :
    size = 1 ∧ ∃ rest, (input.skip false).rest = '.' :: rest := exists_of_point read

theorem follows_of_point {rest : Text} (point : (input.skip false).rest = '.' :: rest) :
    input.Follows := ⟨'.', rest, point, .inr rfl⟩

/-- A keyword with a leaf behind it is a token of the parser. -/
theorem fronts_of_follows (keywords : ∀ word ∈ words, IsKeyword word.toList)
    (read : (keyword named words).length? (input.skip false).rest = some size)
    (behind : ((input.skip false).drop size).Follows) (tail : Text) :
    Fronts tail (input.skip false).rest .word size := by
  obtain ⟨c, rest, split, hyphen, -⟩ := behind.exists_cons
  exact fronts_keyword keywords read split hyphen

end Follows

theorem isWord_of_sameWord {token : Token} {text word : Text} (same : token.toLexeme = ⟨.word, text⟩)
    (reads : Text.sameWord text word = true) : token.isWord word = true := by
  rw [Lexeme.isWord, same, reads]
  rfl

theorem isWord_of_separator {token : Token} (sort : token.kind = .comma ∨ token.kind = .semicolon)
    (word : Text) : token.isWord word = false := by
  rw [Lexeme.isWord]
  rcases sort with kind | kind <;> rw [kind] <;> rfl

/-! ### Attributes of a program -/

/-- One of the words that may stand behind the name of a program. -/
def IsAttribute (e : Expr) : Prop :=
  ∃ named word, e = keyword named [word] ∧ IsKeyword word.toList ∧
    word.toList ∈ programAttributeWords

theorem isAttribute_of_mem : ∀ e ∈ Grammar.programAttributes.leafRules, IsAttribute e := by
  have all : Grammar.programAttributes.leafRules =
      [kwIs, kwCommon, kwInitial, kwRecursive, kwProgram, kwIs, kwCommon, kwInitial, kwRecursive,
        kwProgram] := rfl
  rw [all]
  intro e mem
  simp only [List.mem_cons, List.not_mem_nil, or_false] at mem
  rcases mem with rfl | rfl | rfl | rfl | rfl | rfl | rfl | rfl | rfl | rfl <;>
    exact ⟨_, _, rfl, by decide, by decide⟩

/-- A word that may stand behind the name of a program. -/
def Token.isAttribute (token : Token) : Bool :=
  programAttributeWords.any (token.isWord ·)

theorem programAttributes_eq (context : Context) (cursor : Cursor) :
    Production.programAttributes context cursor =
      match (eatIf context Token.isAttribute cursor).value with
      | some _ => (eatIf context Token.isAttribute cursor).andThen
          (Production.programAttributes context (eatIf context Token.isAttribute cursor).next)
      | none => (eatIf context Token.isAttribute cursor).withValue () := by
  have round : programAttributeRound context cursor =
      (eatIf context Token.isAttribute cursor).withValue
        (if (eatIf context Token.isAttribute cursor).value.isSome then .yield () else .done ()) := by
    have unfolded : programAttributeRound context cursor =
        (eatIf context Token.isAttribute >>= fun found => match found with
          | some _ => pure (.yield ())
          | none => pure (.done ())) cursor := rfl
    rw [unfolded, bind_apply]
    cases (eatIf context Token.isAttribute cursor).value with
    | none => simp
    | some token => simp
  rw [Production.programAttributes, repeating_eq
    (fun _ => (flat_programAttributeRound context).faithful) (advances_programAttributeRound context)]
  rw [round]
  simp only [Outcome.value_withValue, Outcome.next_withValue]
  cases (eatIf context Token.isAttribute cursor).value with
  | none => rfl
  | some token => rfl

theorem isAttribute_eq_false_of_ne {token : Token} (other : token.kind ≠ .word) :
    token.isAttribute = false := by
  simp [Token.isAttribute, Lexeme.isWord, other]

theorem isAttribute_of_separator (token : Token)
    (sort : token.kind = .comma ∨ token.kind = .semicolon) : token.isAttribute = false := by
  refine isAttribute_eq_false_of_ne ?_
  rcases sort with kind | kind <;> rw [kind] <;> decide

theorem programAttributes_of_none {context : Context} {cursor : Cursor}
    (none : eatIf context Token.isAttribute cursor = .still none cursor) :
    Production.programAttributes context cursor = .still () cursor := by
  rw [programAttributes_eq, none]
  rfl

/-- Held up by a separator, the parser reads no attribute. -/
theorem programAttributes_of_atSeparator {cursor : Cursor} (at_ : cursor.AtSeparator) :
    Production.programAttributes .identificationDivision cursor = .still () cursor :=
  programAttributes_of_none (eatIf_of_atSeparator isAttribute_of_separator at_)

section Attributes

variable {rules : List Expr} {input last : Input} {pieces : List Piece} {rest tail : Text}

/-- The leaf of an attribute rule is the word of the attribute. -/
theorem exists_keyword {named : Rule} {body : Expr} (sort : IsAttribute (.rule named true body))
    {text : Text} {size : Nat} (read : body.length? text = some size) :
    ∃ named word, (keyword named [word]).length? text = some size ∧ IsKeyword word.toList ∧
      word.toList ∈ programAttributeWords := by
  obtain ⟨named, word, same, isKeyword, mem⟩ := sort
  exact ⟨named, word, same ▸ read, isKeyword, mem⟩

theorem Row.follows (row : Row rules input pieces last) (sort : ∀ e ∈ rules, IsAttribute e)
    (behind : last.Follows) : input.Follows := by
  cases row with
  | still same =>
      obtain ⟨d, rest, next, letter⟩ := behind
      exact ⟨d, rest, same ▸ next, letter⟩
  | piece mem read row =>
      obtain ⟨named, word, read, isKeyword, -⟩ := exists_keyword (sort _ mem) read
      exact follows_of_keyword (by simpa using isKeyword) read

/-- The parser reads the attributes along with the grammar, up to the period. -/
theorem keeps_programAttributes (row : Row rules input pieces last)
    (sort : ∀ e ∈ rules, IsAttribute e) (point : (last.skip false).rest = '.' :: rest)
    {cursor : Cursor} (stands : Stands tail input cursor) :
    (Production.programAttributes .identificationDivision cursor).Keeps tail pieces last := by
  induction row generalizing cursor with
  | @still input last same =>
      have fronts : Fronts tail (input.skip false).rest .dot 1 := by
        rw [same, point]
        exact fronts_dot rest tail
      rcases stands.step fronts with at_ | ⟨token, after, here⟩
      · left
        rw [programAttributes_of_atSeparator at_]
        exact at_
      · have isDot : token.kind = .dot := congrArg Lexeme.kind here.toLexeme
        have other : token.isAttribute = false :=
          isAttribute_eq_false_of_ne (by rw [isDot]; decide)
        rw [programAttributes_of_none (eatIf_of_not_test here.significant other)]
        exact .inr ⟨stands.of_skip same, nofun⟩
  | @piece input last named body size pieces mem read row ih =>
      obtain ⟨_, word, read, isKeyword, listed⟩ := exists_keyword (sort _ mem) read
      have keywords : ∀ other ∈ [word], IsKeyword other.toList := by simpa using isKeyword
      have fronts := fronts_of_follows keywords read (row.follows sort (follows_of_point point)) tail
      rcases stands.step fronts with at_ | ⟨token, after, here⟩
      · left
        rw [programAttributes_of_atSeparator at_]
        exact at_
      · obtain ⟨⟨_, single, same⟩, -⟩ := exists_word_of_keyword read
        obtain rfl := List.mem_singleton.mp single
        have isAttribute : token.isAttribute = true :=
          List.any_eq_true.mpr ⟨_, listed, isWord_of_sameWord here.toLexeme same⟩
        rw [programAttributes_eq, eatIf_of_test here.significant isAttribute,
          value_bumpSignificant here.significant]
        refine (keeps_bumpSignificant here named).andThen ?_ fun stands => ih point stands
        exact fun at_ => congrArg Outcome.next (programAttributes_of_atSeparator at_)

end Attributes

/-! ### Headings -/

section Heading

variable {input : Input} {reading inner : Reading} {named : Rule} {words : List String} {more : Expr}
  {size : Nat}

/-- A paragraph that the grammar has read begins with a keyword and a period. -/
structure HeadingRead (named : Rule) (words : List String) (more : Expr) (input : Input)
    (reading : Reading) (size : Nat) (inner : Reading) : Prop where
  keyword : (keyword named words).length? (input.skip false).rest = some size
  point : ∃ rest, (((input.skip false).drop size).skip false).rest = '.' :: rest
  more : more.read? false ((((input.skip false).drop size).skip false |>.drop 1).skip false) =
    some inner
  pieces : Tree.leavesOf reading.trees = input.piece named size ::
    ((input.skip false).drop size).piece .dot 1 :: Tree.leavesOf inner.trees
  next : reading.next = inner.next

theorem exists_headingRead
    (read : (keyword named words >> dot >> more).read? false (input.skip false) = some reading) :
    ∃ size inner, HeadingRead named words more input reading size inner := by
  obtain ⟨first, behind, readFirst, readBehind, rfl⟩ := read?_seq read
  obtain ⟨size, length, rfl⟩ := exists_leaf readFirst
  obtain ⟨point, inner, readPoint, readMore, rfl⟩ := read?_seq readBehind
  obtain ⟨one, single, rfl⟩ := exists_leaf readPoint
  obtain ⟨rfl, rest, front⟩ := exists_of_dot single
  exact ⟨size, inner, length, ⟨rest, front⟩, readMore, rfl, rfl⟩

end Heading

/-! ### The PROGRAM-ID paragraph -/

/-- The parts of the name of a program, its attributes and the period behind them. -/
def Grammar.nameAndAttributes : Expr :=
  Grammar.programName >> opt Grammar.programAttributes >> dot

/-- The name of a program and what is read behind it. -/
def Production.nameAndAttributes (cursor : Cursor) : Outcome (Option ProgramIdentity) :=
  let name := eatIf .identificationDivision (nameTest cursor) cursor
  name.andThen (behindName name.value name.next)

theorem nameTest_of_separator (cursor : Cursor) (token : Token)
    (sort : token.kind = .comma ∨ token.kind = .semicolon) : nameTest cursor token = false := by
  by_contra passes
  have names := (nameTest_iff.mp (Bool.not_eq_false _ ▸ passes)).2
  rw [namesProgram] at names
  rcases sort with kind | kind <;> rw [kind] at names <;> cases names

theorem behindName_some (token : Token) (cursor : Cursor) :
    behindName (some token) cursor =
      ((Production.programAttributes .identificationDivision cursor).andThen
        (expectPeriod .identificationDivision .programName
          (Production.programAttributes .identificationDivision cursor).next)).withValue
            (some ⟨CobolTree.programName token.text, token.range⟩) := by
  simp [behindName]

/-- Held up by a separator, the parser reads no name. -/
theorem next_nameAndAttributes_of_atSeparator {cursor : Cursor} (at_ : cursor.AtSeparator) :
    (Production.nameAndAttributes cursor).next = cursor := by
  rw [Production.nameAndAttributes, eatIf_of_atSeparator (nameTest_of_separator cursor) at_]
  simp [behindName]

section Name

variable {input : Input} {tail : Text} {cursor : Cursor}

/-- What the grammar reads of a name: a literal or a word, and the attributes in a row, up to a
period. -/
structure NameRead (input : Input) (reading : Reading) (named : Rule) (size : Nat)
    (attributes : List Piece) (middle : Input) : Prop where
  name : alphanumericLiteral.length? (input.skip false).rest = some size ∨
    cobolWord.length? (input.skip false).rest = some size
  row : Row Grammar.programAttributes.leafRules ((input.skip false).drop size) attributes middle
  point : ∃ rest, (middle.skip false).rest = '.' :: rest
  pieces : Tree.leavesOf reading.trees =
    input.piece named size :: (attributes ++ [middle.piece .dot 1])
  next : reading.next = (middle.skip false).drop 1

theorem exists_nameRead {reading : Reading}
    (read : Grammar.nameAndAttributes.read? false (input.skip false) = some reading) :
    ∃ named size attributes middle, NameRead input reading named size attributes middle := by
  obtain ⟨name, behind, readName, readBehind, rfl⟩ := read?_seq read
  obtain ⟨attributes, point, readAttributes, readPoint, rfl⟩ := read?_seq readBehind
  obtain ⟨one, length, rfl⟩ := exists_leaf readPoint
  obtain ⟨rfl, rest, front⟩ := exists_of_dot length
  -- the attributes, if there are any, are a row
  have row : Row Grammar.programAttributes.leafRules name.next (Tree.leavesOf attributes.trees)
      attributes.next :=
    (exists_row (by decide) (Input.skip_skip name.next) readAttributes).of_skip
      (Input.skip_skip name.next).symm
  obtain ⟨inner, readInner, rfl⟩ := read?_rule readName
  have leaf : ∃ named size, (alphanumericLiteral.length? (input.skip false).rest = some size ∨
      cobolWord.length? (input.skip false).rest = some size) ∧
        inner = ⟨[.leaf (input.piece named size)], (input.skip false).drop size⟩ := by
    rcases read?_alt readInner with literal | word
    · obtain ⟨size, length, rfl⟩ := exists_leaf literal
      exact ⟨_, size, .inl length, rfl⟩
    · obtain ⟨size, length, rfl⟩ := exists_leaf word
      exact ⟨_, size, .inr length, rfl⟩
  obtain ⟨named, size, sort, rfl⟩ := leaf
  refine ⟨named, size, _, _, sort, row, ⟨rest, front⟩, ?_, rfl⟩
  simp [applied, Tree.leavesOf, Tree.leaves]

theorem isWord_eq_false_of_isWord {token : Token} {word other : Text}
    (reads : token.isWord word = true) (differ : Text.sameWord word other = false) :
    token.isWord other = false := by
  rw [Lexeme.isWord, Bool.and_eq_false_iff]
  right
  rw [← differ]
  have same : token.text.upper = word.upper := eq_of_beq (Lexeme.sameWord_of_isWord reads)
  simp only [Text.sameWord, same]

/-- No attribute and no period is the word DIVISION. -/
theorem not_division_of_row {rules : List Expr} {last : Input} {pieces : List Piece} {rest : Text}
    (row : Row rules input pieces last) (sort : ∀ e ∈ rules, IsAttribute e)
    (point : (last.skip false).rest = '.' :: rest) (stands : Stands tail input cursor)
    {token : Token} {after : Cursor}
    (significant : cursor.significant? .identificationDivision = some (token, after)) :
    token.isWord "DIVISION".toList = false := by
  -- what the parser finds is held up by a separator, or a token of the row
  have found {kind : Kind} {size : Nat} (fronts : Fronts tail (input.skip false).rest kind size)
      (other : ∀ token : Token, token.toLexeme = ⟨kind, (input.skip false).rest.take size⟩ →
        token.isWord "DIVISION".toList = false) : token.isWord "DIVISION".toList = false := by
    rcases stands.step fronts with ⟨next, _, read, separator, -⟩ | ⟨next, _, here⟩
    · cases significant.symm.trans read
      exact isWord_of_separator separator _
    · cases significant.symm.trans here.significant
      exact other _ here.toLexeme
  cases row with
  | still same =>
      refine found (same ▸ point ▸ fronts_dot rest tail) fun token lexeme => ?_
      rw [Lexeme.isWord, lexeme]
      rfl
  | piece mem read row =>
      obtain ⟨_, word, read, isKeyword, listed⟩ := exists_keyword (sort _ mem) read
      have keywords : ∀ other ∈ [word], IsKeyword other.toList := by simpa using isKeyword
      have behind := row.follows sort (follows_of_point point)
      refine found (fronts_of_follows keywords read behind tail) fun token lexeme => ?_
      obtain ⟨⟨_, single, same⟩, -⟩ := exists_word_of_keyword read
      obtain rfl := List.mem_singleton.mp single
      have differ : ∀ word ∈ programAttributeWords,
          Text.sameWord word "DIVISION".toList = false := by decide
      exact isWord_eq_false_of_isWord (isWord_of_sameWord lexeme same) (differ _ listed)

/-- The parser reads the name and the attributes along with the grammar. -/
theorem keeps_nameAndAttributes {reading : Reading}
    (read : Grammar.nameAndAttributes.read? false (input.skip false) = some reading)
    (stands : Stands tail input cursor) :
    (Production.nameAndAttributes cursor).Keeps tail (Tree.leavesOf reading.trees)
      reading.next := by
  obtain ⟨named, size, attributes, middle, read⟩ := exists_nameRead read
  obtain ⟨rest, point⟩ := read.point
  obtain ⟨c, others, split, hyphen, quote⟩ :=
    (read.row.follows isAttribute_of_mem (follows_of_point point)).exists_cons
  obtain ⟨kind, sort, fronts⟩ : ∃ kind, (kind = .stringLiteral ∨ kind = .word) ∧
      Fronts tail (input.skip false).rest kind size := by
    rcases read.name with literal | word
    · exact ⟨_, .inl rfl, fronts_literal literal split⟩
    · exact ⟨_, .inr rfl, fronts_cobolWord word split hyphen quote⟩
  rcases stands.step fronts with at_ | ⟨token, after, here⟩
  · left
    rw [next_nameAndAttributes_of_atSeparator at_]
    exact at_
  · have header : cursor.divisionHeader? = none := by
      by_contra found
      obtain ⟨division, found⟩ := Option.ne_none_iff_exists'.mp found
      obtain ⟨name, word, ahead, -, isDivision, -⟩ := Cursor.divisionHeader?_eq_some_iff.mp found
      obtain ⟨next, _, first, second⟩ := Cursor.ahead_two_eq_iff.mp ahead
      have same : cursor.significant? .programUnit = some (token.inContext .programUnit, after) :=
        Cursor.significant?_of_mode here.significant rfl
      cases first.symm.trans same
      have behind : after.significant? .identificationDivision = some
          (word.inContext .identificationDivision, _) := Cursor.significant?_of_mode second rfl
      have other := not_division_of_row read.row isAttribute_of_mem point here.stands behind
      exact Bool.false_ne_true (other.symm.trans isDivision)
    have names : namesProgram token = true := by
      have isKind : token.kind = kind := congrArg Lexeme.kind here.toLexeme
      rw [namesProgram, isKind]
      rcases sort with rfl | rfl <;> rfl
    have passes : nameTest cursor token = true := nameTest_iff.mpr ⟨header, names⟩
    rw [Production.nameAndAttributes, eatIf_of_test here.significant passes,
      value_bumpSignificant here.significant, behindName_some, read.pieces, read.next]
    refine (keeps_bumpSignificant here named).andThen (fun at_ => ?_) fun stands => .withValue ?_ _
    · simp [programAttributes_of_atSeparator at_, next_expectPeriod_of_atSeparator _ at_]
    · refine (keeps_programAttributes read.row isAttribute_of_mem point stands).andThen
        (fun at_ => next_expectPeriod_of_atSeparator _ at_) fun stands => ?_
      exact keeps_expectPeriod .dot _ stands point

/-- The parser reads the PROGRAM-ID paragraph along with the grammar. -/
theorem keeps_programIdParagraph {reading inner : Reading} {size : Nat} {token : Token}
    {after : Cursor}
    (read : HeadingRead .kwProgramId ["PROGRAM-ID"] Grammar.nameAndAttributes input reading size inner)
    (here : Stands.Token tail input cursor .word size token after) :
    (Production.programIdParagraph cursor).Keeps tail (Tree.leavesOf reading.trees)
      reading.next := by
  obtain ⟨rest, point⟩ := read.point
  have along : ((bumpSignificant .identificationDivision cursor).andThen
      ((expectPeriod .identificationDivision .programId
        (bumpSignificant .identificationDivision cursor).next).andThen
          (Production.nameAndAttributes (expectPeriod .identificationDivision .programId
            (bumpSignificant .identificationDivision cursor).next).next))).Keeps tail
              (Tree.leavesOf reading.trees) reading.next := by
    rw [read.pieces, read.next]
    refine (keeps_bumpSignificant here .kwProgramId).andThen (fun at_ => ?_) fun stands => ?_
    · have still := next_expectPeriod_of_atSeparator .programId at_
      rw [Outcome.next_andThen, still, next_nameAndAttributes_of_atSeparator at_]
    · refine (keeps_expectPeriod .dot _ stands point).andThen
        next_nameAndAttributes_of_atSeparator fun stands => ?_
      exact keeps_nameAndAttributes read.more stands
  exact along

end Name

/-! ### The header of the division -/

section Header

variable {input : Input} {tail : Text} {cursor : Cursor}

theorem divisionHeader_identification (cursor : Cursor) :
    let context := Context.identificationDivision
    let name := bumpSignificant context cursor
    let word := eatWord context "DIVISION".toList name.next
    let period := expectPeriod context (.divisionHeader .identification) word.next
    divisionHeader .identification cursor =
      (name.andThen (word.andThen period)).withValue
        (period.value.or (word.value.or name.value)) := by
  simp [divisionHeader, Division.context]

/-- What the grammar reads of a header: the name of the division, the word DIVISION, a period. -/
structure HeaderRead (input : Input) (reading : Reading) (named : Rule) (words : List String)
    (first second : Nat) : Prop where
  keywords : ∀ word ∈ words, IsKeyword word.toList
  name : (keyword named words).length? (input.skip false).rest = some first
  word : kwDivision.length? (((input.skip false).drop first).skip false).rest = some second
  point : ∃ rest,
    (((((input.skip false).drop first).skip false).drop second).skip false).rest = '.' :: rest
  pieces : Tree.leavesOf reading.trees = [input.piece named first,
    ((input.skip false).drop first).piece .kwDivision second,
    ((((input.skip false).drop first).skip false).drop second).piece .dot 1]
  next : reading.next =
    (((((input.skip false).drop first).skip false).drop second).skip false).drop 1

theorem exists_headerRead {reading : Reading}
    (read : identificationHeader.read? false (input.skip false) = some reading) :
    ∃ named words first second, HeaderRead input reading named words first second := by
  obtain ⟨inner, readInner, rfl⟩ := read?_rule read
  obtain ⟨name, behind, readName, readBehind, rfl⟩ := read?_seq readInner
  obtain ⟨named, words, keywords, first, length, rfl⟩ : ∃ named words,
      (∀ word ∈ words, IsKeyword word.toList) ∧ ∃ size,
        (keyword named words).length? (input.skip false).rest = some size ∧
          name = ⟨[.leaf (input.piece named size)], (input.skip false).drop size⟩ := by
    rcases read?_alt readName with long | short
    · obtain ⟨size, length, rfl⟩ := exists_leaf long
      exact ⟨_, ["IDENTIFICATION"], by decide, size, length, rfl⟩
    · obtain ⟨size, length, rfl⟩ := exists_leaf short
      exact ⟨_, ["ID"], by decide, size, length, rfl⟩
  obtain ⟨word, point, readWord, readPoint, rfl⟩ := read?_seq readBehind
  obtain ⟨second, wordLength, rfl⟩ := exists_leaf readWord
  obtain ⟨one, single, rfl⟩ := exists_leaf readPoint
  obtain ⟨rfl, rest, front⟩ := exists_of_dot single
  exact ⟨named, words, first, second, keywords, length, wordLength, ⟨rest, front⟩, rfl, rfl⟩

/-- The parser reads the header of the division along with the grammar. -/
theorem keeps_identificationHeader {reading : Reading}
    (read : identificationHeader.read? false (input.skip false) = some reading)
    (stands : Stands tail input cursor) (free : ¬cursor.AtSeparator) :
    (divisionHeader .identification cursor).Keeps tail (Tree.leavesOf reading.trees)
      reading.next := by
  obtain ⟨named, words, first, second, read⟩ := exists_headerRead read
  obtain ⟨rest, point⟩ := read.point
  have isDivision : ∀ word ∈ ["DIVISION"], IsKeyword word.toList := by decide
  have fronts := fronts_of_follows read.keywords read.name
    (follows_of_keyword isDivision read.word) tail
  have frontsWord := fronts_of_follows isDivision read.word (follows_of_point point) tail
  have fails (token : Token) (sort : token.kind = .comma ∨ token.kind = .semicolon) :
      token.isWord "DIVISION".toList = false := isWord_of_separator sort _
  obtain ⟨⟨word, single, same⟩, -⟩ := exists_word_of_keyword read.word
  obtain rfl := List.mem_singleton.mp single
  rcases stands.step fronts with at_ | ⟨token, after, here⟩
  · exact absurd at_ free
  · rw [divisionHeader_identification, read.pieces, read.next]
    refine .withValue ((keeps_bumpSignificant here named).andThen (fun at_ => ?_)
      fun stands => ?_) _
    · have still : eatWord .identificationDivision "DIVISION".toList
          (bumpSignificant .identificationDivision cursor).next = .still none _ :=
        eatIf_of_atSeparator fails at_
      rw [Outcome.next_andThen, still]
      exact next_expectPeriod_of_atSeparator _ at_
    · have along : (eatWord .identificationDivision "DIVISION".toList
          (bumpSignificant .identificationDivision cursor).next).Keeps tail _ _ :=
        keeps_eatIf .kwDivision stands frontsWord
          (fun token lexeme => isWord_of_sameWord lexeme same) fails
      exact along.andThen (fun at_ => next_expectPeriod_of_atSeparator _ at_)
        fun stands => keeps_expectPeriod .dot _ stands point

end Header

end CobolTree
