import CobolTree.Grammar.Identification
import CobolTree.Proofs.Agreement.Tails

/-!
Where free text ends, for the grammar. Line by line, free text goes on until a line begins with the
header of a paragraph (`Grammar.headed`) or nothing is left; what is left there is its `entryRest`.
The grammar reads free text up to the blanks before it (`length?_commentEntry`).
-/

namespace CobolTree.Grammar

open CobolTree.Expr Scan

/-- Blanks that the grammar skips in a line of free text. -/
def isInlineBlank (c : Char) : Bool := c == ' ' || c == '\t'

/-- Blanks that may stand before a line of free text. -/
def isMargin (c : Char) : Bool := isInlineBlank c || isLineBreak c

/-- The text behind the blanks that it begins with. -/
def behindMargin (text : Text) : Text := text.dropWhile isMargin

/-- The header of a paragraph comes first. -/
def headed (text : Text) : Bool := (paragraphStart.length? text).isSome

theorem behindMargin_shorter {text : Text} (left : text ≠ []) :
    (behindMargin (text.drop (lineLength text))).length < text.length := by
  obtain ⟨c, rest, rfl⟩ := List.exists_cons_of_ne_nil left
  have least (others : Text) : (behindMargin others).length ≤ others.length :=
    (List.dropWhile_suffix _).length_le
  cases breaks : isLineBreak c with
  | true =>
      have none : lineLength (c :: rest) = 0 := by simp [lineLength, breaks]
      have margin : isMargin c = true := by simp [isMargin, breaks]
      have behind : behindMargin (c :: rest) = behindMargin rest := List.dropWhile_cons_of_pos margin
      rw [none, List.drop_zero, behind, List.length_cons]
      exact Nat.lt_succ_of_le (least rest)
  | false =>
      have some : 0 < lineLength (c :: rest) := by simp [lineLength, breaks]
      have shorter := least ((c :: rest).drop (lineLength (c :: rest)))
      rw [List.length_drop] at shorter
      have : 0 < (c :: rest).length := Nat.succ_pos _
      omega

/-- What is left behind the lines of free text. -/
def entryRest (text : Text) : Text :=
  if text = [] ∨ headed text then text
  else entryRest (behindMargin (text.drop (lineLength text)))
termination_by text.length
decreasing_by
  rename_i goesOn
  exact behindMargin_shorter fun none => goesOn (.inl none)

theorem entryRest_of_end {text : Text} (ends : text = [] ∨ headed text = true) :
    entryRest text = text := by
  rw [entryRest, if_pos ends]

theorem entryRest_of_line {text : Text} (goesOn : ¬(text = [] ∨ headed text = true)) :
    entryRest text = entryRest (behindMargin (text.drop (lineLength text))) := by
  rw [entryRest, if_neg goesOn]

/-! ### Rounds that cover a run of characters -/

theorem takeWhile_drop {p : Char → Bool} (text : Text) {count : Nat}
    (within : count ≤ (text.takeWhile p).length) :
    (text.drop count).takeWhile p = (text.takeWhile p).drop count := by
  induction text generalizing count with
  | nil => simp
  | cons c rest ih =>
      cases count with
      | zero => rfl
      | succ more =>
          cases here : p c with
          | false => simp [here] at within
          | true =>
              rw [List.takeWhile_cons, if_pos here] at within ⊢
              exact ih (Nat.le_of_succ_le_succ within)

/-- Rounds of a pattern take a run of characters if every round takes some of them, and none is left
where the pattern cannot be read. -/
theorem roundsLength_of_cover {pattern : Text → Option Nat} (fits : Fits pattern) {p : Char → Bool}
    {sort : Text → Prop}
    (last : ∀ text, sort text → pattern text = none → text.takeWhile p = [])
    (goesOn : ∀ text size, sort text → pattern text = some size →
      0 < size ∧ size ≤ (text.takeWhile p).length ∧ sort (text.drop size))
    (text : Text) (h : sort text) : roundsLength pattern text text = (text.takeWhile p).length := by
  cases read : pattern text with
  | none => rw [roundsLength_of_none read, last text h read, List.length_nil]
  | some size =>
      obtain ⟨pos, within, behind⟩ := goesOn text size h read
      have shorter : (text.drop size).length < text.length := by
        have := (List.takeWhile_prefix p (l := text)).length_le
        rw [List.length_drop]
        omega
      rw [roundsLength_of_some fits read, roundsLength_of_cover fits last goesOn _ behind,
        takeWhile_drop text within, List.length_drop]
      omega
termination_by text.length

theorem le_length_takeWhile {p : Char → Bool} {text : Text} {count : Nat}
    (within : count ≤ text.length) (all : ∀ c ∈ text.take count, p c = true) :
    count ≤ (text.takeWhile p).length := by
  have split : text = text.take count ++ text.drop count := (List.take_append_drop _ _).symm
  rw [split, List.takeWhile_append_of_pos all, List.length_append, List.length_take,
    Nat.min_eq_left within]
  exact Nat.le_add_right _ _

/-! ### Margins -/

theorem lineBreak_cases {text : Text} {size : Nat} (read : lineBreak.length? text = some size) :
    0 < size ∧ ∀ c ∈ text.take size, isLineBreak c = true := by
  have found : lineBreakLength? text = some size := read
  unfold lineBreakLength? at found
  split at found <;> cases found <;> simp [isLineBreak]

/-- Blanks in a line. -/
def inlineBlank : Expr := Expr.text " " <|> Expr.text "\t"

theorem isClass_inlineBlank : inlineBlank.IsClass isInlineBlank :=
  (isClass_char ' ').alt (isClass_char '\t')

/-- A round takes a blank or a line break. -/
theorem round_margin {text : Text} {size : Nat}
    (read : (inlineBlank.length? text).or (lineBreak.length? text) = some size) :
    0 < size ∧ ∀ c ∈ text.take size, isMargin c = true := by
  rcases Option.or_eq_some_iff.mp read with blank | ⟨-, breaks⟩
  · cases text with
    | nil => cases isClass_inlineBlank.1.symm.trans blank
    | cons c rest =>
        rw [isClass_inlineBlank.2] at blank
        split at blank
        · rename_i isBlank
          cases blank
          refine ⟨Nat.one_pos, fun d mem => ?_⟩
          obtain rfl : d = c := by simpa using mem
          rw [isMargin, isBlank]
          rfl
        · cases blank
  · obtain ⟨pos, all⟩ := lineBreak_cases breaks
    exact ⟨pos, fun c mem => by simp [isMargin, all c mem]⟩

theorem length?_margin (text : Text) :
    (star (Expr.text " " <|> Expr.text "\t" <|> lineBreak)).length? text =
      some (text.takeWhile isMargin).length := by
  have each (text : Text) : (Expr.text " " <|> Expr.text "\t" <|> lineBreak).length? text =
      (inlineBlank.length? text).or (lineBreak.length? text) := by
    rw [inlineBlank, length?_alt, length?_alt, length?_alt, Option.or_assoc]
  have last (text : Text) (none : (inlineBlank.length? text).or (lineBreak.length? text) = none) :
      text.takeWhile isMargin = [] := by
    cases text with
    | nil => rfl
    | cons c rest =>
        obtain ⟨blank, breaks⟩ := Option.or_eq_none_iff.mp none
        have notBlank := isClass_inlineBlank.isSome c rest
        have notBreak := isSome_lineBreak c rest
        rw [blank, Option.isSome_none] at notBlank
        rw [breaks, Option.isSome_none] at notBreak
        have other : isMargin c = false := by rw [isMargin, ← notBlank, ← notBreak]; rfl
        rw [List.takeWhile_cons, other]
        rfl
  refine congrArg some (@roundsLength_of_cover _ (fits_length? _) isMargin (fun _ => True)
    (fun text _ none => last text (each text ▸ none)) (fun text size _ read => ?_) text trivial)
  obtain ⟨pos, all⟩ := round_margin (each text ▸ read)
  exact ⟨pos, le_length_takeWhile (fits_length? _ _ _ read) all, trivial⟩

/-! ### Breaks between lines -/

/-- A line break and the blanks of the next line. -/
def lineMargin : Expr := lineBreak >> star inlineBlank

theorem length?_lineMargin {text : Text} {size : Nat} (read : lineMargin.length? text = some size) :
    0 < size ∧ (∀ c ∈ text.take size, isMargin c = true) ∧
      (text.drop size).takeWhile isInlineBlank = [] := by
  rw [lineMargin, length?_seq] at read
  obtain ⟨first, breaks, read⟩ := Option.bind_eq_some_iff.mp read
  rw [isClass_inlineBlank.length?_star] at read
  obtain rfl := Option.some.inj read
  obtain ⟨pos, all⟩ := lineBreak_cases breaks
  refine ⟨Nat.add_pos_left pos _, fun c mem => ?_, ?_⟩
  · rw [List.take_add, List.mem_append, take_length_takeWhile] at mem
    rcases mem with mem | mem
    · simp [isMargin, all c mem]
    · have blank := List.mem_takeWhile_imp mem
      rw [isMargin, blank]
      rfl
  · rw [← List.drop_drop, takeWhile_drop _ (Nat.le_refl _), List.drop_length]

/-- Line breaks and the blanks behind them are read as a whole. -/
theorem length?_breaks (c : Char) (rest : Text) :
    (plus lineMargin).length? (c :: rest) =
      if isLineBreak c then some ((c :: rest).takeWhile isMargin).length else none := by
  have none_iff (text : Text) : lineMargin.length? text = none ↔ lineBreak.length? text = none := by
    rw [lineMargin, length?_seq]
    cases lineBreak.length? text with
    | none => simp
    | some size => simp [isClass_inlineBlank.length?_star]
  have last (text : Text) (sort : text.takeWhile isInlineBlank = [])
      (none : lineMargin.length? text = none) : text.takeWhile isMargin = [] := by
    cases text with
    | nil => rfl
    | cons c rest =>
        have notBreak := isSome_lineBreak c rest
        rw [(none_iff _).mp none, Option.isSome_none] at notBreak
        have notBlank : isInlineBlank c = false := by
          by_contra blank
          rw [List.takeWhile_cons, if_pos (Bool.not_eq_false _ ▸ blank)] at sort
          cases sort
        have other : isMargin c = false := by rw [isMargin, ← notBreak, notBlank]; rfl
        rw [List.takeWhile_cons, other]
        rfl
  have goesOn (text : Text) (size : Nat) (_ : text.takeWhile isInlineBlank = [])
      (read : lineMargin.length? text = some size) :
      0 < size ∧ size ≤ (text.takeWhile isMargin).length ∧
        (text.drop size).takeWhile isInlineBlank = [] := by
    obtain ⟨pos, all, behind⟩ := length?_lineMargin read
    exact ⟨pos, le_length_takeWhile (fits_length? _ _ _ read) all, behind⟩
  cases read : lineMargin.length? (c :: rest) with
  | none =>
      have notBreak := isSome_lineBreak c rest
      rw [(none_iff _).mp read, Option.isSome_none] at notBreak
      rw [plus, length?_seq, read, ← notBreak]
      rfl
  | some size =>
      have breaks : isLineBreak c = true := by
        rw [← isSome_lineBreak c rest, Option.isSome_iff_ne_none]
        intro none
        rw [(none_iff _).mpr none] at read
        cases read
      have notBlank : isInlineBlank c = false := by
        simp only [isLineBreak, Bool.or_eq_true, beq_iff_eq] at breaks
        rcases breaks with rfl | rfl <;> rfl
      have whole := roundsLength_of_cover (fits_length? lineMargin) last goesOn (c :: rest)
        (by rw [List.takeWhile_cons, notBlank]; rfl)
      rw [plus, length?_seq, read, if_pos breaks, ← whole, roundsLength_of_some (fits_length? _) read]
      rfl

theorem drop_margin (text : Text) :
    text.drop (text.takeWhile isMargin).length = behindMargin text :=
  calc
    text.drop (text.takeWhile isMargin).length
    _ = (text.takeWhile isMargin ++ behindMargin text).drop (text.takeWhile isMargin).length := by
        rw [behindMargin, List.takeWhile_append_dropWhile]
    _ = behindMargin text := List.drop_left

/-! ### Free text -/

/-- A further line of free text, with the line breaks before it. -/
def furtherLine : Expr := commentEntryBreak >> commentEntryLine

theorem length?_commentEntryLine (text : Text) :
    commentEntryLine.length? text = if lineLength text = 0 then none else some (lineLength text) := by
  rw [commentEntryLine, isClass_inLine.length?_plus, lineLength]
  simp only [List.length_eq_zero_iff]

theorem length?_commentEntryBreak (c : Char) (rest : Text) :
    commentEntryBreak.length? (c :: rest) =
      if isLineBreak c = true ∧ headed (behindMargin (c :: rest)) = false then
        some ((c :: rest).takeWhile isMargin).length
      else none := by
  have unfolded : commentEntryBreak = (plus lineMargin >> absent paragraphStart) := rfl
  rw [unfolded, length?_seq, length?_breaks]
  cases isLineBreak c with
  | false => simp
  | true =>
      rw [if_pos rfl, Option.bind_some, drop_margin, length?]
      cases here : headed (behindMargin (c :: rest)) with
      | true =>
          rw [headed] at here
          simp [here]
      | false =>
          rw [headed] at here
          simp [here]

theorem exists_behindMargin {text : Text} (left : behindMargin text ≠ []) :
    ∃ c rest, behindMargin text = c :: rest ∧ isMargin c = false := by
  obtain ⟨c, rest, split⟩ := List.exists_cons_of_ne_nil left
  have head := List.head?_dropWhile_not isMargin text
  rw [behindMargin] at split
  rw [split] at head
  exact ⟨c, rest, split, head⟩

theorem lineLength_ne_zero {c : Char} (inline : isLineBreak c = false) (rest : Text) :
    lineLength (c :: rest) ≠ 0 := by
  simp [lineLength, inline]

theorem isLineBreak_of_isMargin {c : Char} (other : isMargin c = false) : isLineBreak c = false :=
  (Bool.or_eq_false_iff.mp other).2

theorem length?_furtherLine (c : Char) (rest : Text) :
    furtherLine.length? (c :: rest) =
      if isLineBreak c = true ∧
          ¬(behindMargin (c :: rest) = [] ∨ headed (behindMargin (c :: rest)) = true) then
        some (((c :: rest).takeWhile isMargin).length + lineLength (behindMargin (c :: rest)))
      else none := by
  rw [furtherLine, length?_seq, length?_commentEntryBreak]
  by_cases breaks : isLineBreak c = true ∧ headed (behindMargin (c :: rest)) = false
  · rw [if_pos breaks, Option.bind_some, drop_margin, length?_commentEntryLine]
    by_cases none : behindMargin (c :: rest) = []
    · simp [none, lineLength]
    · obtain ⟨d, others, split, other⟩ := exists_behindMargin none
      have some : lineLength (behindMargin (c :: rest)) ≠ 0 :=
        split ▸ lineLength_ne_zero (isLineBreak_of_isMargin other) others
      rw [if_neg some, if_pos ⟨breaks.1, by simp [none, breaks.2]⟩]
      rfl
  · rw [if_neg breaks, if_neg (by simp only [not_or, Bool.not_eq_true]; tauto)]
    rfl

/-- From the end of a line, the grammar reads the lines that are left. -/
theorem roundsLength_furtherLine {text : Text}
    (ends : ∀ c, text.head? = some c → isLineBreak c = true) :
    behindMargin (text.drop (roundsLength furtherLine.length? text text)) =
      entryRest (behindMargin text) := by
  match text, ends with
  | [], _ => exact (entryRest_of_end (.inl rfl)).symm
  | c :: rest, ends =>
      have breaks := ends c rfl
      by_cases goesOn : behindMargin (c :: rest) = [] ∨ headed (behindMargin (c :: rest)) = true
      · have none : furtherLine.length? (c :: rest) = none := by
          rw [length?_furtherLine, if_neg fun both => both.2 goesOn]
        rw [roundsLength_of_none none, List.drop_zero, entryRest_of_end goesOn]
      · have some := length?_furtherLine c rest
        rw [if_pos ⟨breaks, goesOn⟩] at some
        rw [roundsLength_of_some (fits_length? _) some, ← List.drop_drop, entryRest_of_line goesOn,
          ← List.drop_drop, drop_margin]
        have shorter : ((behindMargin (c :: rest)).drop (lineLength (behindMargin (c :: rest)))).length
            < (c :: rest).length := by
          obtain ⟨d, others, split, other⟩ := exists_behindMargin (not_or.mp goesOn).1
          have least : (behindMargin (c :: rest)).length ≤ (c :: rest).length :=
            (List.dropWhile_suffix _).length_le
          have pos := lineLength_ne_zero (isLineBreak_of_isMargin other) others
          rw [← split] at pos
          have left : (behindMargin (c :: rest)).length ≠ 0 := by rw [split]; exact nofun
          rw [List.length_drop]
          omega
        refine roundsLength_furtherLine fun d head => ?_
        simpa using head?_drop_takeWhile _ d head
termination_by text.length
decreasing_by exact shorter

theorem length?_commentEntry_eq (text : Text) :
    commentEntry.length? text =
      if headed text then none
      else (commentEntryLine.length? text).map fun size =>
        size + roundsLength furtherLine.length? (text.drop size) (text.drop size) := by
  have unfolded : commentEntry.length? text =
      (absent paragraphStart >> commentEntryLine >> star furtherLine).length? text := rfl
  rw [unfolded, length?_seq, length?, headed]
  cases (paragraphStart.length? text).isSome with
  | true => rfl
  | false =>
      rw [if_neg Bool.false_ne_true, if_neg Bool.false_ne_true, Option.bind_some, List.drop_zero,
        length?_seq]
      cases commentEntryLine.length? text with
      | none => rfl
      | some size => simp [length?]

/-- No free text is read at its end. -/
theorem length?_commentEntry_of_end {text : Text} (ends : text = [] ∨ headed text = true) :
    commentEntry.length? text = none := by
  rw [length?_commentEntry_eq]
  rcases ends with rfl | header
  · rw [length?_commentEntryLine]
    split <;> rfl
  · rw [if_pos header]

/-- Where free text is not read, there is none; else blanks are left before its rest. -/
theorem length?_commentEntry {text : Text}
    (inline : ∀ c, text.head? = some c → isLineBreak c = false) :
    match commentEntry.length? text with
    | none => entryRest text = text
    | some size => behindMargin (text.drop size) = entryRest text := by
  by_cases ends : text = [] ∨ headed text = true
  · rw [length?_commentEntry_of_end ends]
    exact entryRest_of_end ends
  · obtain ⟨left, free⟩ := not_or.mp ends
    obtain ⟨c, rest, rfl⟩ := List.exists_cons_of_ne_nil left
    rw [length?_commentEntry_eq, if_neg free, length?_commentEntryLine,
      if_neg (lineLength_ne_zero (inline c rfl) rest), Option.map_some]
    have breaks (d : Char)
        (head : ((c :: rest).drop (lineLength (c :: rest))).head? = some d) :
        isLineBreak d = true := by
      simpa using head?_drop_takeWhile _ d head
    have further := roundsLength_furtherLine breaks
    rw [List.drop_drop, ← entryRest_of_line ends] at further
    exact further

/-! ### Headers of paragraphs -/

/-- No text begins with both words. -/
def diverge (word other : Text) : Bool :=
  !Text.sameWord (word.take other.length) (other.take word.length)

theorem sameWord_of_diverge {text word other : Text} (differ : diverge word other = true)
    (same : Text.sameWord (text.take other.length) other = true) :
    Text.sameWord (text.take word.length) word = false := by
  by_contra here
  have upperOther : text.upper.take other.length = other.upper := by
    rw [Text.upper, ← List.map_take]
    exact eq_of_beq same
  have upperWord : text.upper.take word.length = word.upper := by
    rw [Text.upper, ← List.map_take]
    exact eq_of_beq (Bool.not_eq_false _ ▸ here)
  have common : Text.upper (word.take other.length) = Text.upper (other.take word.length) := by
    rw [Text.upper, Text.upper, List.map_take, List.map_take]
    change word.upper.take other.length = other.upper.take word.length
    rw [← upperOther, ← upperWord, List.take_take, List.take_take, Nat.min_comm]
  simp [diverge, Text.sameWord, common] at differ

theorem length?_word (word : String) (text : Text) :
    (Expr.word word).length? text =
      if Text.sameWord (text.take word.toList.length) word.toList then some word.toList.length
      else none := rfl

/-- A rule of words reads the word that a text begins with, if the others diverge from it. -/
theorem length?_oneOf {words : List String} {word : String} {text : Text} (mem : word ∈ words)
    (others : ∀ other ∈ words, other = word ∨ diverge other.toList word.toList = true)
    (same : Text.sameWord (text.take word.toList.length) word.toList = true) :
    (oneOf words).length? text = some word.toList.length := by
  induction words with
  | nil => cases mem
  | cons first rest ih =>
      have here : (Expr.word word).length? text = some word.toList.length := by
        rw [length?_word, if_pos same]
      cases rest with
      | nil =>
          obtain rfl := List.mem_singleton.mp mem
          exact here
      | cons second behind =>
          rcases others first List.mem_cons_self with rfl | differ
          · exact Option.or_eq_some_iff.mpr (.inl here)
          · have none : (Expr.word first).length? text = none := by
              rw [length?_word, sameWord_of_diverge differ same]
              rfl
            refine Option.or_eq_some_iff.mpr (.inr ⟨none, ih ?_ fun other mem =>
              others other (List.mem_cons_of_mem _ mem)⟩)
            rcases List.mem_cons.mp mem with rfl | mem
            · rw [here] at none
              cases none
            · exact mem

/-- A rule of words reads nothing in a text that begins with a word from which they diverge. -/
theorem length?_oneOf_eq_none {words : List String} {word text : Text} (some : words ≠ [])
    (others : ∀ other ∈ words, diverge other.toList word = true)
    (same : Text.sameWord (text.take word.length) word = true) :
    (oneOf words).length? text = none := by
  induction words with
  | nil => exact absurd rfl some
  | cons first rest ih =>
      have none : (Expr.word first).length? text = none := by
        rw [length?_word, sameWord_of_diverge (others first List.mem_cons_self) same]
        rfl
      cases rest with
      | nil => exact none
      | cons second behind =>
          exact Option.or_eq_none_iff.mpr ⟨none, ih (List.cons_ne_nil _ _) fun other mem =>
            others other (List.mem_cons_of_mem _ mem)⟩

/-- The words that begin a paragraph of free text. -/
def entryWords : List String :=
  ["AUTHOR", "INSTALLATION", "DATE-WRITTEN", "DATE-COMPILED", "SECURITY", "REMARKS"]

/-- The words that begin a paragraph. -/
def paragraphWords : List String := "PROGRAM-ID" :: entryWords

theorem length?_paragraphStart (text : Text) :
    paragraphStart.length? text =
      (((keyword .commentParagraphKeyword entryWords).length? text).or
        ((keyword .kwProgramId ["PROGRAM-ID"]).length? text)).bind fun size =>
          if (behindMargin (text.drop size)).head? = some '.' then
            some (size + (((text.drop size).takeWhile isMargin).length + 1))
          else none := by
  have unfolded : paragraphStart = ((keyword .commentParagraphKeyword entryWords <|>
      keyword .kwProgramId ["PROGRAM-ID"]) >>
        (star (Expr.text " " <|> Expr.text "\t" <|> lineBreak) >> Expr.text ".")) := rfl
  rw [unfolded, length?_seq, length?_alt]
  congr 1
  funext size
  rw [length?_seq, length?_margin, Option.bind_some, drop_margin]
  have point : (Expr.text ".").length? (behindMargin (text.drop size)) =
      if (behindMargin (text.drop size)).head? == some '.' then some 1 else none :=
    length?_single '.' _
  rw [point]
  by_cases here : (behindMargin (text.drop size)).head? = some '.'
  · simp [here]
  · simp [here]

/-- A header is a word, blanks, and a period. -/
theorem exists_of_headed {text : Text} (h : headed text = true) : ∃ named words size rest,
    (∀ word ∈ words, word ∈ paragraphWords) ∧ (keyword named words).length? text = some size ∧
      behindMargin (text.drop size) = '.' :: rest := by
  rw [headed, length?_paragraphStart] at h
  obtain ⟨total, found⟩ := Option.isSome_iff_exists.mp h
  obtain ⟨size, read, found⟩ := Option.bind_eq_some_iff.mp found
  split at found
  · rename_i point
    obtain ⟨rest, split⟩ := List.head?_eq_some_iff.mp point
    rcases Option.or_eq_some_iff.mp read with entry | ⟨-, program⟩
    · exact ⟨_, _, size, rest, fun word mem => List.mem_cons_of_mem _ mem, entry, split⟩
    · refine ⟨_, _, size, rest, fun word mem => ?_, program, split⟩
      obtain rfl := List.mem_singleton.mp mem
      exact List.mem_cons_self
  · cases found

/-- A word, blanks, and a period are a header. -/
theorem headed_of_word {text rest : Text} {word : String} (mem : word ∈ paragraphWords)
    (same : Text.sameWord (text.take word.toList.length) word.toList = true)
    (ends : wordEnd.length? (text.drop word.toList.length) = some 0)
    (point : behindMargin (text.drop word.toList.length) = '.' :: rest) : headed text = true := by
  have read {named : Rule} {words : List String}
      (found : (oneOf words).length? text = some word.toList.length) :
      (keyword named words).length? text = some word.toList.length := by
    have unfolded : (keyword named words).length? text =
        (oneOf words >> wordEnd).length? text := rfl
    rw [unfolded, length?_seq, found, Option.bind_some, ends]
    rfl
  have found : ((keyword .commentParagraphKeyword entryWords).length? text).or
      ((keyword .kwProgramId ["PROGRAM-ID"]).length? text) = some word.toList.length := by
    rcases List.mem_cons.mp mem with rfl | entry
    · have other : (keyword .commentParagraphKeyword entryWords).length? text = none := by
        have unfolded : (keyword .commentParagraphKeyword entryWords).length? text =
            (oneOf entryWords >> wordEnd).length? text := rfl
        rw [unfolded, length?_seq, length?_oneOf_eq_none (by decide) (by decide) same]
        rfl
      exact Option.or_eq_some_iff.mpr (.inr ⟨other,
        read (length?_oneOf List.mem_cons_self (by simp) same)⟩)
    · have apart : ∀ word ∈ entryWords, ∀ other ∈ entryWords,
          other = word ∨ diverge other.toList word.toList = true := by decide
      exact Option.or_eq_some_iff.mpr (.inl (read (length?_oneOf entry (apart word entry) same)))
  rw [headed, length?_paragraphStart, found, Option.bind_some, point]
  rfl

end CobolTree.Grammar
