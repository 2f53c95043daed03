import CobolTree.Source.Text

/-!
Positions in a source text. A position carries the line, the column in characters and
the offset in bytes, all from zero; `Position.advance` moves it over the text that
starts there, and moving over two texts in turn is moving over both at once.
-/

namespace CobolTree

/-- A place in a text: line, column counted in characters, offset counted in bytes. -/
structure Position where
  line : Nat
  column : Nat
  index : Nat
deriving DecidableEq, Repr

namespace Position

/-- The beginning of every text. -/
def zero : Position := ⟨0, 0, 0⟩

/-- The place after one character; a line feed opens the next line. -/
def step (place : Position) (c : Char) : Position :=
  if c = '\n' then ⟨place.line + 1, 0, place.index + c.utf8Size⟩
  else ⟨place.line, place.column + 1, place.index + c.utf8Size⟩

/-- The place right after a text that starts here. -/
def advance (place : Position) (text : Text) : Position := text.foldl step place

/-- Comparison by line, then column, then offset. -/
def before (p q : Position) : Bool :=
  p.line < q.line || p.line == q.line &&
    (p.column < q.column || p.column == q.column && p.index < q.index)

@[simp] theorem advance_nil (place : Position) : place.advance [] = place := rfl

theorem advance_append (place : Position) (s t : Text) :
    place.advance (s ++ t) = (place.advance s).advance t := by
  simp [advance, List.foldl_append]

@[simp] theorem index_step (place : Position) (c : Char) :
    (place.step c).index = place.index + c.utf8Size := by
  unfold step
  split <;> rfl

/-- Moving over a text adds its bytes to the offset. -/
@[simp] theorem index_advance (place : Position) (text : Text) :
    (place.advance text).index = place.index + text.byteLength := by
  induction text generalizing place with
  | nil => rfl
  | cons c cs ih =>
      have := ih (place.step c)
      simp only [advance, List.foldl_cons, Text.byteLength] at this ⊢
      rw [this, index_step]
      omega

end Position

/-- The stretch between two places, end exclusive. -/
structure Span where
  start : Position
  stop : Position
deriving DecidableEq, Repr

/-- A stretch of bytes, end exclusive. -/
structure Range where
  start : Nat
  stop : Nat
deriving DecidableEq, Repr

namespace Range

/-- The stretch of a text that begins at an offset. -/
def ofText (start : Nat) (text : Text) : Range := ⟨start, start + text.byteLength⟩

/-- The empty stretch at an offset. -/
def empty (offset : Nat) : Range := ⟨offset, offset⟩

def isEmpty (range : Range) : Bool := range.start == range.stop

/-- The offset lies inside the stretch. -/
def contains (range : Range) (offset : Nat) : Bool :=
  decide (range.start ≤ offset) && decide (offset < range.stop)

/-- The other stretch lies inside this one. -/
def covers (outer inner : Range) : Bool :=
  decide (outer.start ≤ inner.start) && decide (inner.stop ≤ outer.stop)

end Range

end CobolTree
