import CobolTree.Proofs.Source.Recasing
import CobolTree.Stream

/-!
A text in capitals. It is cut where the text is cut, it is blanked out and padded alike, and its
lines begin at the same bytes; so a stream of it has every offset at the same position
(`Stream.position_upper`) and the same padding before it (`Stream.paddingBefore_upper`).
-/

namespace CobolTree

namespace Text

theorem byteLength_upper (text : Text) : text.upper.byteLength = text.byteLength :=
  Recasing.capitals.byteLength_text text

theorem upper_flatMap {α : Type} (text : α → Text) (row : List α) :
    upper (row.flatMap text) = row.flatMap fun value => (text value).upper := List.map_flatMap

theorem upper_cons (c : Char) (rest : Text) : upper (c :: rest) = c.toUpper :: upper rest := rfl

theorem upper_append (s t : Text) : upper (s ++ t) = upper s ++ upper t := List.map_append

theorem dropBytes?_upper (text : Text) (count : Nat) :
    text.upper.dropBytes? count = (text.dropBytes? count).map upper := by
  induction text generalizing count with
  | nil =>
      cases count with
      | zero => rfl
      | succ count => rfl
  | cons c rest ih =>
      cases count with
      | zero => rfl
      | succ count =>
          rw [upper_cons, dropBytes?, dropBytes?, caseless_utf8Size c, ih]
          split
          · rfl
          · rfl

theorem takeBytes?_upper (text : Text) (count : Nat) :
    text.upper.takeBytes? count = (text.takeBytes? count).map upper := by
  induction text generalizing count with
  | nil =>
      cases count with
      | zero => rfl
      | succ count => rfl
  | cons c rest ih =>
      cases count with
      | zero => rfl
      | succ count =>
          rw [upper_cons, takeBytes?, takeBytes?, caseless_utf8Size c, ih]
          split
          · rw [Option.map_map, Option.map_map]
            rfl
          · rfl

theorem slice?_upper (text : Text) (start stop : Nat) :
    text.upper.slice? start stop = (text.slice? start stop).map upper := by
  rw [slice?, slice?, dropBytes?_upper]
  split
  · cases text.dropBytes? start with
    | none => rfl
    | some rest => exact takeBytes?_upper rest (stop - start)
  · rfl

theorem padding_upper (text : Text) : text.upper.padding = text.padding := by
  rw [padding, upper, List.map_map, padding]
  refine List.map_congr_left fun c _ => ?_
  have feed : (c.toUpper = '\n') = (c = '\n') := Recasing.caseless_feed c
  simp only [Function.comp_apply, feed]

theorem blank_upper (text : Text) : text.upper.blank = text.blank := by
  rw [blank, upper, List.flatMap_map, blank]
  congr 1
  funext c
  have feed : (c.toUpper = '\n') = (c = '\n') := Recasing.caseless_feed c
  simp only [feed, caseless_utf8Size c]

theorem upper_blank (text : Text) : text.blank.upper = text.blank := by
  rw [blank, upper_flatMap]
  congr 1
  funext c
  split
  · rfl
  · rw [upper, List.map_replicate]
    rfl

/-- Blanks have no case. -/
theorem upper_padding (text : Text) : text.padding.upper = text.padding := by
  rw [padding, upper, List.map_map]
  refine List.map_congr_left fun c _ => ?_
  rw [Function.comp_apply]
  split
  · rfl
  · rfl

end Text

theorem LineTable.breaks_upper (offset : Nat) (text : Text) :
    breaks offset text.upper = breaks offset text := by
  induction text generalizing offset with
  | nil => rfl
  | cons c rest ih =>
      have feed : (c.toUpper = '\n') = (c = '\n') := Recasing.caseless_feed c
      simp only [Text.upper_cons, breaks, feed, caseless_utf8Size c, ih]

namespace Stream

variable (text : Text)

theorem position_upper (offset : Nat) :
    (ofText text.upper).position offset = (ofText text).position offset := by
  have lines : (LineTable.ofText text.upper).starts = (LineTable.ofText text).starts :=
    congrArg (0 :: ·) (LineTable.breaks_upper 0 text)
  have bytes := text.byteLength_upper
  simp only [position, ofText, LinedText.position, LinedText.ofText, LineTable.position, lines,
    bytes, Text.slice?_upper]
  cases text.slice? _ _ with
  | none => rfl
  | some line => simp [Text.upper]

theorem paddingBefore_upper (offset : Nat) :
    (ofText text.upper).paddingBefore offset = (ofText text).paddingBefore offset := by
  have same (stream : Text) : (ofText stream).text = stream := rfl
  rw [paddingBefore, paddingBefore, same, same, Text.byteLength_upper, Text.takeBytes?_upper]
  cases text.takeBytes? (min offset text.byteLength) with
  | none => rfl
  | some front => exact front.padding_upper

end Stream

end CobolTree
