import CobolTree.Stream
import Mathlib.Data.List.Induction

/-!
The table of lines agrees with the walk over the text: the position that a table gives for an
offset is where `Position.advance` arrives when it moves over the text before that offset
(`LinedText.position_eq`). The lines that begin at or before the offset are those that the text
before it breaks into (`takeWhile_starts`), and the column counts the characters behind the last
of these breaks (`exists_lastLine`).
-/

namespace CobolTree

namespace LineTable

theorem breaks_append (offset : Nat) (s t : Text) :
    breaks offset (s ++ t) = breaks offset s ++ breaks (offset + s.byteLength) t := by
  induction s generalizing offset with
  | nil => rfl
  | cons c rest ih =>
      simp only [List.cons_append, breaks, ih, Text.byteLength, Nat.add_assoc]
      split <;> simp

/-- A break lies behind the character that makes it, and within the text. -/
theorem mem_breaks {offset : Nat} {text : Text} {start : Nat} (mem : start ∈ breaks offset text) :
    offset < start ∧ start ≤ offset + text.byteLength := by
  induction text generalizing offset with
  | nil => cases mem
  | cons c rest ih =>
      have size := c.utf8Size_pos
      have behind : start ∈ breaks (offset + c.utf8Size) rest →
          offset < start ∧ start ≤ offset + Text.byteLength (c :: rest) := by
        intro inside
        have := ih inside
        simp only [Text.byteLength]
        omega
      rw [breaks] at mem
      split at mem
      · rcases List.mem_cons.mp mem with same | inside
        · simp only [Text.byteLength]
          omega
        · exact behind inside
      · exact behind mem

/-- The lines that begin at or before an offset are those of the text before it. -/
theorem takeWhile_starts (before after : Text) :
    (ofText (before ++ after)).starts.takeWhile (· ≤ before.byteLength) =
      (ofText before).starts := by
  have early : ∀ start ∈ (ofText before).starts, decide (start ≤ before.byteLength) = true := by
    intro start mem
    rcases List.mem_cons.mp mem with first | inside
    · simp [first]
    · have := mem_breaks inside
      simp
      omega
  have split : (ofText (before ++ after)).starts =
      (ofText before).starts ++ breaks before.byteLength after := by
    simp [ofText, breaks_append]
  rw [split, List.takeWhile_append_of_pos early]
  suffices late : (breaks before.byteLength after).takeWhile (· ≤ before.byteLength) = [] by
    rw [late, List.append_nil]
  cases found : breaks before.byteLength after with
  | nil => rfl
  | cons start rest =>
      have := mem_breaks (found ▸ List.mem_cons_self : start ∈ breaks before.byteLength after)
      exact List.takeWhile_cons_of_neg (by simp; omega)

/-- A text splits at its last break: the table has the place of the break, and the walk over the
text has counted the lines before it and the characters behind it. -/
theorem exists_lastLine (text : Text) : ∃ lines line, text = lines ++ line ∧
    (ofText text).starts.getLastD 0 = lines.byteLength ∧
      Position.zero.advance text =
        ⟨(ofText text).starts.length - 1, line.length, text.byteLength⟩ := by
  -- the walk goes on at the end of the text, so the induction adds a last character
  induction text using List.reverseRecOn with
  | nil => exact ⟨[], [], rfl, rfl, rfl⟩
  | append_singleton text c ih =>
      obtain ⟨lines, line, split, last, place⟩ := ih
      have moved : Position.zero.advance (text ++ [c]) = (Position.zero.advance text).step c := by
        rw [Position.advance_append]
        rfl
      by_cases feed : c = '\n'
      · have begins : (ofText (text ++ [c])).starts =
            (ofText text).starts ++ [Text.byteLength (text ++ [c])] := by
          simp [ofText, breaks_append, breaks, feed, Text.byteLength]
        refine ⟨text ++ [c], [], by simp, by rw [begins]; simp, ?_⟩
        rw [moved, place, Position.step, if_pos feed, begins]
        simp [ofText, Text.byteLength]
      · have begins : (ofText (text ++ [c])).starts = (ofText text).starts := by
          simp [ofText, breaks_append, breaks, feed]
        refine ⟨lines, line ++ [c], by simp [split], by rw [begins, last], ?_⟩
        rw [moved, place, Position.step, if_neg feed, begins]
        simp [Text.byteLength]

end LineTable

/-- The position of an offset is where the walk over the text before it arrives. -/
theorem LinedText.position_eq (source : LinedText) {before after : Text}
    (split : source.text = before ++ after) :
    source.position before.byteLength = Position.zero.advance before := by
  obtain ⟨lines, line, parts, last, place⟩ := LineTable.exists_lastLine before
  have reached := LineTable.takeWhile_starts before after
  have table : source.lines.starts = (LineTable.ofText source.text).starts := by
    rw [source.lines_eq]
  have stop : min before.byteLength source.text.byteLength = before.byteLength := by
    rw [split, Text.byteLength_append]
    omega
  have lastLine : source.text.slice? lines.byteLength before.byteLength = some line := by
    rw [split, parts, List.append_assoc, Text.byteLength_append, Text.slice?_append]
  rw [place, LinedText.position, LineTable.position, table, stop, split]
  simp only [reached, last]
  rw [← split, lastLine]

theorem Stream.position_eq (stream : Stream) {before after : Text}
    (split : stream.text = before ++ after) :
    stream.position before.byteLength = Position.zero.advance before :=
  stream.source.position_eq split

end CobolTree
