import CobolTree.Source.Layout
import CobolTree.Text.Blank
import CobolTree.Token.Scan

/-!
Texts in other cases. A `Recasing` says for each letter in which case to write it, and leaves every
other character alone. A function of characters that is the same for a letter in either case
(`Caseless`) does not see a recasing; all classes of characters that the scanner tells apart are
such functions, and so are the sizes of characters, so a recased text has its bytes, its lines and
its words where they were.
-/

namespace CobolTree

/-! ### Functions that do not see case -/

/-- The function is the same for a letter in upper and in lower case. -/
def Caseless {α : Type} (f : Char → α) : Prop := ∀ c, f c.toUpper = f c

theorem exists_eq_of_isLower {c : Char} (lower : c.isLower = true) :
    ∃ n : Fin 26, c = Char.ofNat (97 + n) := by
  obtain ⟨least, most⟩ := Bool.and_eq_true_iff.mp lower
  have first : 97 ≤ c.toNat := of_decide_eq_true least
  have last : c.toNat ≤ 122 := of_decide_eq_true most
  refine ⟨⟨c.toNat - 97, by omega⟩, ?_⟩
  rw [show 97 + (c.toNat - 97) = c.toNat by omega]
  exact (Char.ofNat_toNat c).symm

theorem toUpper_of_not_isLower {c : Char} (other : c.isLower = false) : c.toUpper = c := by
  refine dif_neg fun bounds => ?_
  have lower : c.isLower = true :=
    Bool.and_eq_true_iff.mpr ⟨decide_eq_true bounds.1, decide_eq_true bounds.2⟩
  rw [lower] at other
  cases other

/-- Only letters have to be looked at. -/
theorem Caseless.of_letters {α : Type} {f : Char → α}
    (letters : ∀ n : Fin 26, f (Char.ofNat (97 + n)).toUpper = f (Char.ofNat (97 + n))) :
    Caseless f := by
  intro c
  cases lower : c.isLower with
  | true =>
      obtain ⟨n, rfl⟩ := exists_eq_of_isLower lower
      exact letters n
  | false => rw [toUpper_of_not_isLower lower]

theorem Caseless.comp {α β : Type} {f : Char → α} (h : Caseless f) (g : α → β) :
    Caseless fun c => g (f c) := fun c => congrArg g (h c)

theorem caseless_isLineBreak : Caseless Scan.isLineBreak := .of_letters (by decide)

theorem caseless_isSpace : Caseless Scan.isSpace := .of_letters (by decide)

theorem caseless_isWordChar : Caseless Scan.isWordChar := .of_letters (by decide)

theorem caseless_isQuote : Caseless Scan.isQuote := .of_letters (by decide)

theorem caseless_isLiteralLetter : Caseless Scan.isLiteralLetter := .of_letters (by decide)

theorem caseless_isDigit : Caseless Char.isDigit := .of_letters (by decide)

theorem caseless_isAlphanum : Caseless Char.isAlphanum := .of_letters (by decide)

theorem caseless_isBlank : Caseless Text.isBlank := .of_letters (by decide)

theorem caseless_isAlpha : Caseless Char.isAlpha := .of_letters (by decide)

theorem caseless_toUpper : Caseless Char.toUpper := .of_letters (by decide)

theorem caseless_utf8Size : Caseless Char.utf8Size := .of_letters (by decide)

/-- A character that is no letter is told from all others in either case. -/
theorem caseless_eq {d : Char} (mark : d.isAlpha = false) : Caseless (· = d) := by
  have stays {c : Char} (other : c.isAlpha = false) : c.toUpper = c :=
    toUpper_of_not_isLower (Bool.or_eq_false_iff.mp other).2
  intro c
  refine propext ⟨fun same => ?_, fun same => ?_⟩
  · have other : c.isAlpha = false := by
      rw [← caseless_isAlpha c, same, mark]
    rw [← same, stays other]
  · rw [same, stays mark]

/-! ### Recasings -/

/-- A case for each letter: no character becomes another one but for its case. -/
structure Recasing where
  letter : Char → Char
  toUpper_letter : ∀ c, (letter c).toUpper = c.toUpper

namespace Recasing

/-- Every letter as it is. -/
def same : Recasing := ⟨id, fun _ => rfl⟩

/-- Every letter in upper case. -/
def capitals : Recasing := ⟨Char.toUpper, caseless_toUpper⟩

variable (recasing : Recasing)

/-- The text with its letters in their cases. -/
def text (text : Text) : Text := text.map recasing.letter

@[simp] theorem text_nil : recasing.text [] = [] := rfl

@[simp] theorem text_cons (c : Char) (rest : Text) :
    recasing.text (c :: rest) = recasing.letter c :: recasing.text rest := rfl

@[simp] theorem text_append (s t : Text) :
    recasing.text (s ++ t) = recasing.text s ++ recasing.text t := List.map_append

@[simp] theorem length_text (text : Text) : (recasing.text text).length = text.length :=
  List.length_map _

@[simp] theorem isEmpty_text (text : Text) : (recasing.text text).isEmpty = text.isEmpty :=
  List.isEmpty_map

theorem text_take (count : Nat) (text : Text) :
    recasing.text (text.take count) = (recasing.text text).take count := List.map_take

theorem text_drop (count : Nat) (text : Text) :
    recasing.text (text.drop count) = (recasing.text text).drop count := List.map_drop

@[simp] theorem text_same (text : Text) : same.text text = text := List.map_id _

@[simp] theorem text_capitals (text : Text) : capitals.text text = text.upper := rfl

section Characters

variable {α : Type} {f : Char → α}

/-- What does not see case does not see a recasing. -/
theorem apply_letter (caseless : Caseless f) (c : Char) : f (recasing.letter c) = f c := by
  rw [← caseless (recasing.letter c), recasing.toUpper_letter, caseless]

/-- A character that is no letter stays and is taken by no other. -/
theorem letter_eq_iff {d : Char} (caseless : Caseless (· = d)) {c : Char} :
    recasing.letter c = d ↔ c = d := by
  have := recasing.apply_letter caseless c
  simpa using this

theorem beq_letter {d : Char} (caseless : Caseless (· = d)) (c : Char) :
    (recasing.letter c == d) = (c == d) := by
  rw [Bool.eq_iff_iff, beq_iff_eq, beq_iff_eq, recasing.letter_eq_iff caseless]

theorem letter_eq {d : Char} (caseless : Caseless (· = d)) : recasing.letter d = d :=
  (recasing.letter_eq_iff caseless).mpr rfl

end Characters

section Rows

variable {p : Char → Bool} (caseless : Caseless p) (text : Text)

include caseless

theorem takeWhile_text :
    (recasing.text text).takeWhile p = recasing.text (text.takeWhile p) := by
  induction text with
  | nil => rfl
  | cons c rest ih =>
      rw [text_cons, List.takeWhile_cons, List.takeWhile_cons, recasing.apply_letter caseless, ih]
      split
      · rfl
      · rfl

theorem dropWhile_text :
    (recasing.text text).dropWhile p = recasing.text (text.dropWhile p) := by
  induction text with
  | nil => rfl
  | cons c rest ih =>
      rw [text_cons, List.dropWhile_cons, List.dropWhile_cons, recasing.apply_letter caseless, ih]
      split
      · rfl
      · rfl

theorem all_text : (recasing.text text).all p = text.all p := by
  induction text with
  | nil => rfl
  | cons c rest ih =>
      rw [text_cons, List.all_cons, List.all_cons, recasing.apply_letter caseless, ih]

end Rows

@[simp] theorem byteLength_text (text : Text) :
    (recasing.text text).byteLength = text.byteLength := by
  induction text with
  | nil => rfl
  | cons c rest ih =>
      rw [text_cons, Text.byteLength, Text.byteLength, ih,
        recasing.apply_letter caseless_utf8Size]

/-! ### Marks -/

theorem caseless_hyphen : Caseless (· = '-') := caseless_eq rfl

theorem caseless_star : Caseless (· = '*') := caseless_eq rfl

theorem caseless_greater : Caseless (· = '>') := caseless_eq rfl

theorem caseless_point : Caseless (· = '.') := caseless_eq rfl

theorem caseless_comma : Caseless (· = ',') := caseless_eq rfl

theorem caseless_semicolon : Caseless (· = ';') := caseless_eq rfl

theorem caseless_feed : Caseless (· = '\n') := caseless_eq rfl

theorem caseless_return : Caseless (· = '\r') := caseless_eq rfl

/-! ### Words -/

@[simp] theorem upper_text (text : Text) : (recasing.text text).upper = text.upper := by
  rw [Recasing.text, Text.upper, Text.upper, List.map_map]
  exact List.map_congr_left fun c _ => recasing.toUpper_letter c

/-- A word stays the word that it is. -/
@[simp] theorem sameWord_text_left (a b : Text) :
    Text.sameWord (recasing.text a) b = Text.sameWord a b := by
  rw [Text.sameWord, upper_text, Text.sameWord]

@[simp] theorem sameWord_text_right (a b : Text) :
    Text.sameWord a (recasing.text b) = Text.sameWord a b := by
  rw [Text.sameWord, upper_text, Text.sameWord]

end Recasing

end CobolTree
