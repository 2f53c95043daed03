import CobolTree.Grammar.Data
import CobolTree.Proofs.Agreement.Alignment

/-!
Picture strings for the scanner and for the grammar of the DATA DIVISION. Both take characters up
to a blank, or up to a separator with a blank or the end of the text behind it; they differ in what
a blank is. The grammar does not count the form feed among the blanks, nor, behind a separator, any
blank of Unicode other than spaces, tabs and line breaks. So the grammar never stops before the
scanner does, and it stops at the same place unless the scanner stops at a blank that it knows alone
(`Scan.picturesAgree`).
-/

namespace CobolTree

/-! ### Up to a stop -/

namespace Text

/-- How many characters stand before the first place where the rest of a text passes a test. -/
def lengthUntil (stops : Text → Bool) : Text → Nat
  | [] => 0
  | c :: rest => if stops (c :: rest) then 0 else lengthUntil stops rest + 1

theorem lengthUntil_le (stops : Text → Bool) (text : Text) :
    lengthUntil stops text ≤ text.length := by
  induction text with
  | nil => exact Nat.le_refl _
  | cons c rest ih =>
      rw [lengthUntil]
      split
      · exact Nat.zero_le _
      · exact Nat.succ_le_succ ih

section Imp

variable {p q : Text → Bool} (imp : ∀ text, q text = true → p text = true)

include imp

/-- What stops more often stops no later. -/
theorem lengthUntil_le_of_imp (text : Text) : lengthUntil p text ≤ lengthUntil q text := by
  induction text with
  | nil => exact Nat.le_refl _
  | cons c rest ih =>
      rw [lengthUntil, lengthUntil]
      by_cases first : p (c :: rest) = true
      · rw [if_pos first]
        exact Nat.zero_le _
      · rw [if_neg first, if_neg fun second => first (imp _ second)]
        exact Nat.succ_le_succ ih

/-- Both stop at one place if the one that stops less often stops where the other does. -/
theorem lengthUntil_eq_iff (ends : q [] = true) (text : Text) :
    lengthUntil q text = lengthUntil p text ↔ q (text.drop (lengthUntil p text)) = true := by
  induction text with
  | nil => simp [lengthUntil, ends]
  | cons c rest ih =>
      rw [lengthUntil, lengthUntil]
      by_cases first : p (c :: rest) = true
      · rw [if_pos first, List.drop_zero]
        by_cases second : q (c :: rest) = true
        · simp [second]
        · simp [second]
      · rw [if_neg first, if_neg fun second => first (imp _ second), List.drop_succ_cons, ← ih]
        exact Nat.succ_inj

end Imp

end Text

/-! ### Where a picture string stops -/

/-- A period, a comma or a semicolon. -/
def Scan.isSeparator (c : Char) : Bool := c == '.' || c == ',' || c == ';'

/-- A text goes on with no picture string: it is at its end, at a blank, or at a separator that has
nothing or a blank behind it. Which characters are blanks is told apart for the two places. -/
def Scan.stopsPicture (blank behind : Char → Bool) : Text → Bool
  | [] => true
  | c :: rest => blank c || isSeparator c && (rest.head?.map behind).getD true

/-- The blanks in the picture rule of the grammar. -/
def Grammar.isPictureBlank (c : Char) : Bool := c == ' ' || c == '\t' || c == '\r' || c == '\n'

namespace Scan

/-- Where the scanner stops. -/
def stopsScan : Text → Bool := stopsPicture (fun c => isSpace c || isLineBreak c) Text.isBlank

/-- Where the grammar stops. -/
def stopsRule : Text → Bool := stopsPicture Grammar.isPictureBlank Grammar.isPictureBlank

theorem isBlank_of_isPictureBlank {c : Char} (blank : Grammar.isPictureBlank c = true) :
    Text.isBlank c = true ∧ (isSpace c || isLineBreak c) = true := by
  simp only [Grammar.isPictureBlank, Bool.or_eq_true, beq_iff_eq] at blank
  rcases blank with ((rfl | rfl) | rfl) | rfl <;> decide

theorem pictureLength_eq (text : Text) : pictureLength text = text.lengthUntil stopsScan := by
  induction text with
  | nil => rfl
  | cons c rest ih =>
      have ends : endsHere rest = (rest.head?.map Text.isBlank).getD true := by cases rest <;> rfl
      rw [pictureLength, Text.lengthUntil, ih, ends, stopsScan, stopsPicture, isSeparator]
      cases isSpace c || isLineBreak c <;> simp

/-- Word mode finds no picture string. -/
theorem kind_scanWord (text : Text) : (scanWord text).1 ≠ .pictureString := by
  intro picture
  have mem := kind_scanWord_mem text
  rw [picture] at mem
  exact absurd mem (by decide)

end Scan

/-! ### The rule of the grammar -/

namespace Grammar

open CobolTree.Expr Scan

theorem isClass_pictureSeparator :
    (Expr.text "." <|> Expr.text "," <|> Expr.text ";").IsClass isSeparator := by
  have separators := (isClass_char '.').alt ((isClass_char ',').alt (isClass_char ';'))
  refine ⟨separators.1, fun c rest => (separators.2 c rest).trans ?_⟩
  rw [isSeparator, Bool.or_assoc]

/-- A blank of the rule, or something else. -/
def blankOr (other : Expr) : Expr :=
  Expr.text " " <|> Expr.text "\t" <|> Expr.text "\x0d" <|> Expr.text "\n" <|> other

theorem isSome_blankOr (other : Expr) (c : Char) (rest : Text) :
    ((blankOr other).length? (c :: rest)).isSome =
      (isPictureBlank c || (other.length? (c :: rest)).isSome) := by
  have blanks : (blankOr other).length? (c :: rest) = ((exact [' ']).length? (c :: rest)).or
      (((exact ['\t']).length? (c :: rest)).or (((exact ['\r']).length? (c :: rest)).or
        (((exact ['\n']).length? (c :: rest)).or (other.length? (c :: rest))))) := rfl
  simp only [blanks, Option.isSome_or, (isClass_char _).isSome, isPictureBlank, Bool.or_assoc]

/-- Behind a separator stands a blank, or nothing. -/
theorem isSome_blankOr_eoi (text : Text) :
    ((blankOr eoi).length? text).isSome = (text.head?.map isPictureBlank).getD true := by
  cases text with
  | nil => rfl
  | cons c rest =>
      have more : (eoi.length? (c :: rest)).isSome = false := rfl
      rw [isSome_blankOr, more, Bool.or_false]
      rfl

theorem isSome_pictureStop (c : Char) (rest : Text) :
    ((blankOr pictureSeparator).length? (c :: rest)).isSome = stopsRule (c :: rest) := by
  have separator : (pictureSeparator.length? (c :: rest)).isSome =
      (isSeparator c && (rest.head?.map isPictureBlank).getD true) := by
    have read : pictureSeparator.length? (c :: rest) =
        ((Expr.text "." <|> Expr.text "," <|> Expr.text ";") >> blankOr eoi).length?
          (c :: rest) := rfl
    rw [read, length?_seq, isClass_pictureSeparator.2]
    cases isSeparator c with
    | false => rfl
    | true =>
        rw [if_pos rfl, Option.bind_some, Option.isSome_map, Bool.true_and]
        exact isSome_blankOr_eoi rest
  rw [isSome_blankOr, separator]
  rfl

/-- One character of a picture string. -/
def pictureRound : Expr := absent (blankOr pictureSeparator) >> anyChar

theorem length?_pictureRound (c : Char) (rest : Text) :
    pictureRound.length? (c :: rest) = if stopsRule (c :: rest) then none else some 1 := by
  rw [pictureRound, length?_seq, length?, isSome_pictureStop]
  cases stopsRule (c :: rest) <;> rfl

theorem length?_pictureRounds (text : Text) :
    (star pictureRound).length? text = some (text.lengthUntil stopsRule) := by
  induction text with
  | nil => rfl
  | cons c rest ih =>
      rw [Expr.length?_star, length?_pictureRound, Text.lengthUntil]
      cases stopsRule (c :: rest) with
      | true => rfl
      | false => simp [ih, Nat.add_comm]

/-- The rule reads up to where it stops, if that is not at once. -/
theorem length?_pictureString (text : Text) :
    pictureString.length? text =
      if text.lengthUntil stopsRule = 0 then none else some (text.lengthUntil stopsRule) := by
  have read : pictureString.length? text = (pictureRound >> star pictureRound).length? text := rfl
  rw [read, length?_seq]
  cases text with
  | nil => rfl
  | cons c rest =>
      rw [length?_pictureRound, Text.lengthUntil]
      cases stopsRule (c :: rest) with
      | true => rfl
      | false => simp [length?_pictureRounds, Nat.add_comm]

end Grammar

/-! ### Agreement -/

/-- The token that picture mode finds where no blank stands: its kind, and how many bytes it
takes. -/
def Scan.pictureBytes (text : Text) : Kind × Nat :=
  ((scanPicture text).1, Text.byteLength (text.take (scanPicture text).2))

/-- A blank stands here that ends a picture string for the scanner alone: a form feed, or behind a
separator any blank but a space, a tab or a line break. -/
def Scan.atForeignBlank : Text → Bool
  | [] => false
  | c :: rest =>
      c == '\x0c' || isSeparator c &&
        (rest.head?.map fun d => Text.isBlank d && !Grammar.isPictureBlank d).getD false

/-- The scanner and the grammar on the picture string that a text begins with. They agree exactly
when the scanner does not stop at a blank that it knows alone, so wherever there is no such blank;
and the grammar never reads less. -/
structure PicturesAgree (text : Text) : Prop where
  agree_iff : (∀ size, Scan.pictureBytes text = (.pictureString, size) ↔
      Grammar.pictureString.bytes? false text = some size) ↔
    Scan.atForeignBlank (text.drop (Scan.pictureLength text)) = false
  plain : (∀ c ∈ text, Text.isBlank c = true → Grammar.isPictureBlank c = true) →
    ∀ size, Scan.pictureBytes text = (.pictureString, size) ↔
      Grammar.pictureString.bytes? false text = some size
  reaches : ∀ size, Scan.pictureBytes text = (.pictureString, size) →
    ∃ more, Grammar.pictureString.bytes? false text = some (size + more)

namespace Scan

theorem stops_drop_lengthUntil {stops : Text → Bool} (ends : stops [] = true) (text : Text) :
    stops (text.drop (text.lengthUntil stops)) = true := by
  induction text with
  | nil => exact ends
  | cons c rest ih =>
      rw [Text.lengthUntil]
      by_cases first : stops (c :: rest) = true
      · rwa [if_pos first]
      · rwa [if_neg first, List.drop_succ_cons]

/-- The scanner knows one blank more than the grammar, and that is no separator. -/
theorem isBlank_of_scan (c : Char) :
    (isSpace c || isLineBreak c) = (Grammar.isPictureBlank c || c == '\x0c') := by
  simp only [isSpace, isLineBreak, Grammar.isPictureBlank]
  grind

theorem isSeparator_of_blank {c : Char} (blank : (isSpace c || isLineBreak c) = true) :
    isSeparator c = false := by
  simp only [isSpace, isLineBreak, Bool.or_eq_true, beq_iff_eq] at blank
  rcases blank with ((rfl | rfl) | rfl) | rfl | rfl <;> decide

/-- The scanner stops where the grammar does, and at the blanks that it knows alone. -/
theorem stopsScan_eq (text : Text) : stopsScan text = (stopsRule text || atForeignBlank text) := by
  cases text with
  | nil => rfl
  | cons c rest =>
      have behind : (rest.head?.map Text.isBlank).getD true =
          ((rest.head?.map Grammar.isPictureBlank).getD true ||
            (rest.head?.map fun d => Text.isBlank d && !Grammar.isPictureBlank d).getD false) := by
        cases rest with
        | nil => rfl
        | cons d others =>
            cases blank : Grammar.isPictureBlank d with
            | true => simp [blank, (isBlank_of_isPictureBlank blank).1]
            | false => simp [blank]
      simp only [stopsScan, stopsRule, stopsPicture, atForeignBlank, isBlank_of_scan, behind]
      cases isSeparator c <;> cases Grammar.isPictureBlank c <;> simp [Bool.or_left_comm]

theorem stopsScan_of_stopsRule (text : Text) (stops : stopsRule text = true) :
    stopsScan text = true := by
  rw [stopsScan_eq, stops, Bool.true_or]

/-- No blank is foreign that the grammar takes for one. -/
theorem stopsRule_and_atForeignBlank (text : Text) :
    (stopsRule text && atForeignBlank text) = false := by
  cases text with
  | nil => rfl
  | cons c rest =>
      simp only [stopsRule, stopsPicture, atForeignBlank]
      cases blank : Grammar.isPictureBlank c with
      | true =>
          have noFeed : (c == '\x0c') = false := by
            refine beq_eq_false_iff_ne.mpr ?_
            rintro rfl
            cases blank
          simp [noFeed, isSeparator_of_blank (isBlank_of_isPictureBlank blank).2]
      | false =>
          cases separator : isSeparator c with
          | false => rfl
          | true =>
              have noFeed : (c == '\x0c') = false := by
                refine beq_eq_false_iff_ne.mpr ?_
                rintro rfl
                cases separator
              cases rest with
              | nil => simp [noFeed]
              | cons d others => cases known : Grammar.isPictureBlank d <;> simp [noFeed, known]

/-- A foreign blank is a blank of the text that the grammar takes for none. -/
theorem exists_of_atForeignBlank {text : Text} (foreign : atForeignBlank text = true) :
    ∃ c ∈ text, Text.isBlank c = true ∧ Grammar.isPictureBlank c = false := by
  cases text with
  | nil => cases foreign
  | cons c rest =>
      simp only [atForeignBlank, Bool.or_eq_true, Bool.and_eq_true, beq_iff_eq] at foreign
      rcases foreign with rfl | ⟨-, behind⟩
      · exact ⟨_, List.mem_cons_self, by decide, by decide⟩
      · cases rest with
        | nil => cases behind
        | cons d others =>
            have blank : (Text.isBlank d && !Grammar.isPictureBlank d) = true := behind
            rw [Bool.and_eq_true, Bool.not_eq_true'] at blank
            exact ⟨d, List.mem_cons_of_mem _ List.mem_cons_self, blank⟩

theorem pictureBytes_eq (text : Text) (size : Nat) :
    pictureBytes text = (.pictureString, size) ↔
      pictureLength text ≠ 0 ∧ Text.byteLength (text.take (pictureLength text)) = size := by
  rw [pictureBytes, scanPicture]
  by_cases none : pictureLength text = 0
  · simp [none, kind_scanWord]
  · simp [none]

theorem bytes?_pictureString (text : Text) :
    Grammar.pictureString.bytes? false text =
      if text.lengthUntil stopsRule = 0 then none
      else some (Text.byteLength (text.take (text.lengthUntil stopsRule))) := by
  rw [Grammar.pictureString, Expr.bytes?_atomicRule, ← Grammar.pictureString,
    Grammar.length?_pictureString]
  split <;> rfl

/-- Both find the same picture strings if both stop at the same place. -/
theorem agree_iff_length (text : Text) :
    (∀ size, pictureBytes text = (.pictureString, size) ↔
      Grammar.pictureString.bytes? false text = some size) ↔
        text.lengthUntil stopsRule = pictureLength text := by
  simp only [pictureBytes_eq, bytes?_pictureString]
  constructor
  · intro agree
    by_cases none : text.lengthUntil stopsRule = 0
    · by_contra other
      have found := (agree (Text.byteLength (text.take (pictureLength text)))).mp
        ⟨fun zero => other (none.trans zero.symm), rfl⟩
      rw [if_pos none] at found
      cases found
    · have found := (agree _).mpr (if_neg none)
      have scan := pictureLength_le text
      have rule := Text.lengthUntil_le stopsRule text
      exact (Text.length_eq_of_byteLength scan rule found.2).symm
  · intro same size
    rw [same]
    by_cases none : pictureLength text = 0
    · simp [none]
    · simp [none]

/-- They stop at the same place unless the scanner stops at a blank that it knows alone. -/
theorem length_eq_iff (text : Text) :
    text.lengthUntil stopsRule = pictureLength text ↔
      atForeignBlank (text.drop (pictureLength text)) = false := by
  rw [pictureLength_eq, Text.lengthUntil_eq_iff stopsScan_of_stopsRule rfl]
  have stops := stops_drop_lengthUntil (rfl : stopsScan [] = true) text
  generalize text.drop (text.lengthUntil stopsScan) = behind at *
  have apart := stopsRule_and_atForeignBlank behind
  rw [stopsScan_eq] at stops
  cases rule : stopsRule behind <;> simp_all

theorem picturesAgree (text : Text) : PicturesAgree text := by
  refine ⟨(agree_iff_length text).trans (length_eq_iff text), fun plain => ?_, fun size found => ?_⟩
  · refine (agree_iff_length text).mpr ((length_eq_iff text).mpr ?_)
    refine Bool.eq_false_iff.mpr fun foreign => ?_
    obtain ⟨c, behind, blank, other⟩ := exists_of_atForeignBlank foreign
    rw [plain c (List.mem_of_mem_drop behind) blank] at other
    cases other
  · obtain ⟨some, rfl⟩ := (pictureBytes_eq text size).mp found
    have less : pictureLength text ≤ text.lengthUntil stopsRule := by
      rw [pictureLength_eq]
      exact Text.lengthUntil_le_of_imp stopsScan_of_stopsRule text
    obtain ⟨more, same⟩ := Nat.exists_eq_add_of_le less
    rw [bytes?_pictureString, if_neg (by omega), same, List.take_add, Text.byteLength_append]
    exact ⟨_, rfl⟩

/-- Behind a form feed the grammar goes on with the picture string, and the scanner does not. -/
theorem pictures_differ :
    blankLength "9\x0cX".toList = 0 ∧ pictureBytes "9\x0cX".toList = (.pictureString, 1) ∧
      Grammar.pictureString.bytes? false "9\x0cX".toList = some 3 := by
  refine ⟨by decide, by decide, ?_⟩
  rw [bytes?_pictureString]
  decide

end Scan

end CobolTree
