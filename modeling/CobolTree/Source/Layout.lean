import CobolTree.Source.Text

/-!
Two ways to blank out a text. `blank` keeps every byte offset: a character becomes as
many spaces as it has bytes. `padding` keeps every column: a character becomes one
space. Both keep line feeds where they are, so lines stay lines.
-/

namespace CobolTree.Text

/-- The text with spaces in place of everything but line feeds, byte for byte. -/
def blank (text : Text) : Text :=
  text.flatMap fun c => if c = '\n' then ['\n'] else List.replicate c.utf8Size ' '

/-- The text with one space in place of each character other than a line feed. -/
def padding (text : Text) : Text := text.map fun c => if c = '\n' then '\n' else ' '

theorem byteLength_spaces (count : Nat) : byteLength (List.replicate count ' ') = count := by
  induction count with
  | zero => rfl
  | succ count ih =>
      have : ' '.utf8Size = 1 := by decide
      rw [List.replicate_succ, byteLength, ih, this]
      omega

/-- Blanks take the bytes of the text that they stand for. -/
@[simp] theorem byteLength_blank (text : Text) : text.blank.byteLength = text.byteLength := by
  induction text with
  | nil => rfl
  | cons c cs ih =>
      rw [blank, List.flatMap_cons, byteLength_append, byteLength]
      rw [show byteLength (List.flatMap _ cs) = byteLength cs from ih]
      split
      · rename_i feed
        subst feed
        rfl
      · rw [byteLength_spaces]

@[simp] theorem blank_append (s t : Text) : blank (s ++ t) = blank s ++ blank t := by
  simp [blank]

theorem blank_spaces (count : Nat) :
    blank (List.replicate count ' ') = List.replicate count ' ' := by
  induction count with
  | zero => rfl
  | succ count ih =>
      rw [List.replicate_succ, ← List.singleton_append, blank_append, ih]
      rfl

/-- Blanks stay what they are. -/
@[simp] theorem blank_blank (text : Text) : text.blank.blank = text.blank := by
  induction text with
  | nil => rfl
  | cons c cs ih =>
      rw [← List.singleton_append, blank_append, blank_append, ih]
      by_cases feed : c = '\n'
      · subst feed
        rfl
      · have spaces : blank [c] = List.replicate c.utf8Size ' ' := by simp [blank, feed]
        rw [spaces, blank_spaces]

/-- Padding has as many characters as the text that it stands for. -/
@[simp] theorem length_padding (text : Text) : text.padding.length = text.length := by
  simp [padding]

end CobolTree.Text
