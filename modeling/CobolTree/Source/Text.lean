/-!
Source text as a list of characters, measured in UTF-8 bytes.

Offsets into a text count bytes, so they may fall inside a character; the cutting
functions answer `none` there. A text is cut at a byte offset by `dropBytes?` and
`takeBytes?`, and `slice?` is the text between two offsets. `sameWord` is the only
comparison of words: COBOL words are equal when they differ in ASCII case alone.
-/

namespace CobolTree

/-- A source text, or a piece of one. -/
abbrev Text := List Char

namespace Text

/-! ### Byte offsets -/

/-- Number of UTF-8 bytes of a text. -/
def byteLength : Text → Nat
  | [] => 0
  | c :: cs => c.utf8Size + byteLength cs

/-- The text after its first `n` bytes, unless they end inside a character or past the end. -/
def dropBytes? : Text → Nat → Option Text
  | cs, 0 => some cs
  | [], _ + 1 => none
  | c :: cs, n + 1 => if c.utf8Size ≤ n + 1 then dropBytes? cs (n + 1 - c.utf8Size) else none

/-- The first `n` bytes of a text, unless they end inside a character or past the end. -/
def takeBytes? : Text → Nat → Option Text
  | _, 0 => some []
  | [], _ + 1 => none
  | c :: cs, n + 1 =>
      if c.utf8Size ≤ n + 1 then (takeBytes? cs (n + 1 - c.utf8Size)).map (c :: ·) else none

/-- The text between two byte offsets, if both are character boundaries in order. -/
def slice? (text : Text) (start stop : Nat) : Option Text :=
  if start ≤ stop then (dropBytes? text start).bind (takeBytes? · (stop - start)) else none

@[simp] theorem byteLength_append (s t : Text) :
    byteLength (s ++ t) = byteLength s + byteLength t := by
  induction s with
  | nil => simp [byteLength]
  | cons c cs ih => simp [byteLength, ih, Nat.add_assoc]

/-- Every character takes at least one byte. -/
theorem length_le_byteLength (t : Text) : t.length ≤ byteLength t := by
  induction t with
  | nil => simp [byteLength]
  | cons c cs ih =>
      have := c.utf8Size_pos
      simp only [List.length_cons, byteLength]
      omega

/-- Cutting after the bytes of a first part leaves the second part. -/
@[simp] theorem dropBytes?_append (s t : Text) : dropBytes? (s ++ t) (byteLength s) = some t := by
  induction s with
  | nil => cases t <;> rfl
  | cons c cs ih =>
      obtain ⟨k, hk⟩ : ∃ k, byteLength (c :: cs) = k + 1 :=
        ⟨byteLength (c :: cs) - 1, by
          have := c.utf8Size_pos
          simp only [byteLength]; omega⟩
      have hsize : k + 1 = c.utf8Size + byteLength cs := by rw [← hk]; rfl
      rw [hk, List.cons_append, dropBytes?, if_pos (by omega)]
      rw [show k + 1 - c.utf8Size = byteLength cs by omega, ih]

/-- Taking the bytes of a first part yields that part. -/
@[simp] theorem takeBytes?_append (s t : Text) : takeBytes? (s ++ t) (byteLength s) = some s := by
  induction s with
  | nil => cases t <;> rfl
  | cons c cs ih =>
      obtain ⟨k, hk⟩ : ∃ k, byteLength (c :: cs) = k + 1 :=
        ⟨byteLength (c :: cs) - 1, by
          have := c.utf8Size_pos
          simp only [byteLength]; omega⟩
      have hsize : k + 1 = c.utf8Size + byteLength cs := by rw [← hk]; rfl
      rw [hk, List.cons_append, takeBytes?, if_pos (by omega)]
      rw [show k + 1 - c.utf8Size = byteLength cs by omega, ih]
      rfl

/-- The part of a text behind a first part and before a third is a slice of it. -/
@[simp] theorem slice?_append (s t u : Text) :
    slice? (s ++ (t ++ u)) (byteLength s) (byteLength s + byteLength t) = some t := by
  rw [slice?, if_pos (by omega), dropBytes?_append, Option.bind_some]
  rw [Nat.add_sub_cancel_left, takeBytes?_append]

/-! ### Words -/

/-- A text with its ASCII letters in upper case. -/
def upper (text : Text) : Text := text.map Char.toUpper

/-- Two words are the same when they differ in ASCII case only. -/
def sameWord (a b : Text) : Bool := upper a == upper b

end Text

end CobolTree
