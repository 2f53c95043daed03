import CobolTree.Proofs.Source.LineTable
import CobolTree.Proofs.Source.Slices
import Mathlib.Data.List.TakeWhile

/-!
Positions by the table and positions by the walk. Main statement
(`LineTable.tellsPositions_ofText`): at every character boundary the table of a text gives the
place where the walk over the text before it arrives, from one boundary to another the walk over
what stands between them leads from place to place, and the places ascend; at every offset
whatever, inside a character or behind the text, the line is the last that begins at or before it.

A table is looked up by a binary search and by differences of offsets. `Finds` is what such a
search may answer, and `LineTable.positionAt?` the computation with every step checked: it fails
where a line is not in the table and where a difference would be below zero. It never fails, and
where the length of a text fits into 32 bits, all lines and columns do.
-/

namespace CobolTree

/-! ### The walk -/

namespace Position

/-- The next character stands behind the one before it. -/
theorem before_step (place : Position) (c : Char) : place.before (place.step c) = true := by
  unfold step
  split <;> simp [before]

theorem before_trans {p q r : Position} (first : p.before q = true) (second : q.before r = true) :
    p.before r = true := by
  simp only [before, Bool.or_eq_true, Bool.and_eq_true, decide_eq_true_eq, beq_iff_eq] at *
  omega

/-- What stands behind a text that is not empty is behind its beginning. -/
theorem before_advance (place : Position) {text : Text} (some : text ≠ []) :
    place.before (place.advance text) = true := by
  induction text generalizing place with
  | nil => exact absurd rfl some
  | cons c rest ih =>
      have moved : place.advance (c :: rest) = (place.step c).advance rest := rfl
      rw [moved]
      by_cases last : rest = []
      · rw [last]
        exact before_step place c
      · exact before_trans (before_step place c) (ih (place.step c) last)

end Position

/-! ### Lines in order -/

/-- What a binary search may answer about a key: the place where the key stands, or else the place
where it could be put in, behind all that is less and before all that is greater. -/
inductive Finds (entries : List Nat) (key : Nat) : Except Nat Nat → Prop
  | present {place : Nat} (stands : entries[place]? = some key) : Finds entries key (.ok place)
  | absent {place : Nat} (room : place ≤ entries.length)
      (below : ∀ before entry, entries[before]? = some entry → before < place → entry < key)
      (above : ∀ behind entry, entries[behind]? = some entry → place ≤ behind → key < entry) :
      Finds entries key (.error place)

namespace LineTable

variable {text : Text} {offset : Nat}

theorem breaks_ascend (offset : Nat) (text : Text) : (breaks offset text).Pairwise (· < ·) := by
  induction text generalizing offset with
  | nil => exact List.Pairwise.nil
  | cons c rest ih =>
      rw [breaks]
      split
      · exact List.pairwise_cons.mpr ⟨fun start mem => (mem_breaks mem).1, ih _⟩
      · exact ih _

/-- Each line begins behind the ones before it. -/
theorem starts_ascend (text : Text) : (ofText text).starts.Pairwise (· < ·) :=
  List.pairwise_cons.mpr ⟨fun _ mem => (mem_breaks mem).1, breaks_ascend 0 text⟩

theorem start_lt_start {line other start next : Nat}
    (first : (ofText text).starts[line]? = some start)
    (second : (ofText text).starts[other]? = some next) (order : line < other) : start < next := by
  obtain ⟨inside, rfl⟩ := List.getElem?_eq_some_iff.mp first
  obtain ⟨room, rfl⟩ := List.getElem?_eq_some_iff.mp second
  exact List.pairwise_iff_getElem.mp (starts_ascend text) line other inside room order

/-- Every line begins within the text. -/
theorem le_byteLength_of_mem_starts {start : Nat} (mem : start ∈ (ofText text).starts) :
    start ≤ text.byteLength := by
  rcases List.mem_cons.mp mem with first | inside
  · omega
  · have := (mem_breaks inside).2
    omega

theorem length_breaks_le (offset : Nat) (text : Text) :
    (breaks offset text).length ≤ text.byteLength := by
  induction text generalizing offset with
  | nil => exact Nat.le_refl 0
  | cons c rest ih =>
      have size := c.utf8Size_pos
      have inside := ih (offset + c.utf8Size)
      rw [breaks, Text.byteLength]
      split
      · rw [List.length_cons]
        omega
      · omega

/-- Behind the lines that begin at or before an offset, all others begin behind it. -/
theorem lt_of_mem_dropWhile {starts : List Nat} {start : Nat} (ascend : starts.Pairwise (· < ·))
    (mem : start ∈ starts.dropWhile (· ≤ offset)) : offset < start := by
  induction starts with
  | nil => cases mem
  | cons first rest ih =>
      obtain ⟨least, others⟩ := List.pairwise_cons.mp ascend
      by_cases early : first ≤ offset
      · rw [List.dropWhile_cons_of_pos (by simpa using early)] at mem
        exact ih others mem
      · rw [List.dropWhile_cons_of_neg (by simpa using early)] at mem
        rcases List.mem_cons.mp mem with rfl | behind
        · exact Nat.lt_of_not_le early
        · exact Nat.lt_trans (Nat.lt_of_not_le early) (least start behind)

/-- The line of an offset: its number, and where it begins. -/
structure IsLineOf (text : Text) (offset line start : Nat) : Prop where
  stands : (ofText text).starts[line]? = some start
  reached : start ≤ offset
  last : ∀ other next, (ofText text).starts[other]? = some next → (next ≤ offset ↔ other ≤ line)

/-- The lines that begin at or before an offset are those up to its line. -/
theorem isLineOf_position (text : Text) (offset : Nat) :
    IsLineOf text offset ((ofText text).position text offset).line
      (((ofText text).starts.takeWhile (· ≤ offset)).getLastD 0) := by
  have whole : (ofText text).starts.takeWhile (· ≤ offset) ++
      (ofText text).starts.dropWhile (· ≤ offset) = (ofText text).starts :=
    List.takeWhile_append_dropWhile
  have line : ((ofText text).position text offset).line =
      ((ofText text).starts.takeWhile (· ≤ offset)).length - 1 := rfl
  rw [line]
  have ascend := starts_ascend text
  have early : ∀ start ∈ (ofText text).starts.takeWhile (· ≤ offset), start ≤ offset :=
    fun start mem => by simpa using List.mem_takeWhile_imp mem
  have late : ∀ start ∈ (ofText text).starts.dropWhile (· ≤ offset), offset < start :=
    fun start mem => lt_of_mem_dropWhile ascend mem
  -- the first line begins at zero, so some line is reached
  have some : (ofText text).starts.takeWhile (· ≤ offset) ≠ [] := by simp [ofText]
  generalize (ofText text).starts.takeWhile (· ≤ offset) = reached at *
  generalize (ofText text).starts.dropWhile (· ≤ offset) = ahead at *
  have size := List.length_pos_iff.mpr some
  have lastReached : reached[reached.length - 1]? = Option.some (reached.getLastD 0) := by
    rw [← List.getLast?_eq_getElem?, List.getLastD_eq_getLast?, List.getLast?_eq_some_getLast some]
    rfl
  constructor
  case stands => rw [← whole, List.getElem?_append_left (by omega), lastReached]
  case reached => exact early _ (List.mem_of_getElem? lastReached)
  case last =>
    intro other next stands
    rw [← whole] at stands
    by_cases inside : other < reached.length
    · rw [List.getElem?_append_left inside] at stands
      have := early next (List.mem_of_getElem? stands)
      omega
    · rw [List.getElem?_append_right (by omega)] at stands
      have := late next (List.mem_of_getElem? stands)
      omega

/-- A search for an offset finds its line, or the line behind it. -/
theorem IsLineOf.of_finds {line start : Nat} (found : IsLineOf text offset line start)
    {answer : Except Nat Nat} (finds : Finds (ofText text).starts offset answer) :
    answer = .ok line ∨ answer = .error (line + 1) := by
  cases finds with
  | @present place stands =>
      have reached := (found.last place offset stands).mp (Nat.le_refl _)
      refine .inl (congrArg _ (Nat.le_antisymm reached (Nat.le_of_not_lt fun short => ?_)))
      have := start_lt_start stands found.stands short
      have := found.reached
      omega
  | @absent place room below above =>
      refine .inr (congrArg _ (Nat.le_antisymm ?_ ?_))
      · refine Nat.le_of_not_lt fun long => ?_
        have inside : line + 1 < (ofText text).starts.length := by omega
        have stands := List.getElem?_eq_getElem inside
        have := (found.last (line + 1) _ stands).mp (Nat.le_of_lt (below _ _ stands long))
        omega
      · refine Nat.lt_of_not_le fun short => ?_
        have := above line start found.stands short
        have := found.reached
        omega

/-- Every search has an answer. -/
theorem IsLineOf.exists_finds {line start : Nat} (found : IsLineOf text offset line start) :
    ∃ answer, Finds (ofText text).starts offset answer := by
  by_cases same : start = offset
  · exact ⟨.ok line, .present (same ▸ found.stands)⟩
  · have reached : start < offset := Nat.lt_of_le_of_ne found.reached same
    obtain ⟨room, -⟩ := List.getElem?_eq_some_iff.mp found.stands
    refine ⟨.error (line + 1), .absent room ?_ ?_⟩
    · intro before entry stands early
      rcases Nat.lt_or_eq_of_le (Nat.le_of_lt_succ early) with earlier | rfl
      · exact Nat.lt_trans (start_lt_start stands found.stands earlier) reached
      · rw [found.stands] at stands
        cases stands
        exact reached
    · intro behind entry stands late
      have := found.last behind entry stands
      omega

/-! ### The checked computation -/

/-- A difference, where it does not go below zero. -/
def minus? (a b : Nat) : Option Nat := if b ≤ a then some (a - b) else none

/-- The line that the answer of a search tells: the one that was found, or the one before the place
where the offset could be put in. -/
def answeredLine? : Except Nat Nat → Option Nat
  | .ok line => some line
  | .error next => minus? next 1

/-- The position of an offset by the answer of a search for it, with every step checked: the line
has to be one of the table, and no difference may go below zero. -/
def positionAt? (table : LineTable) (text : Text) (offset : Nat) (answer : Except Nat Nat) :
    Option Position := do
  let line ← answeredLine? answer
  let lineStart ← table.starts[line]?
  let stop := min offset text.byteLength
  -- the difference is taken even where the line can be cut out of the text
  let bytes ← minus? stop lineStart
  return ⟨line, ((text.slice? lineStart stop).map List.length).getD bytes, offset⟩

/-- No step fails, whatever the search answers. -/
theorem positionAt?_ofText {answer : Except Nat Nat}
    (finds : Finds (ofText text).starts offset answer) :
    (ofText text).positionAt? text offset answer = some ((ofText text).position text offset) := by
  have found := isLineOf_position text offset
  have within := le_byteLength_of_mem_starts (List.mem_of_getElem? found.stands)
  have line : answeredLine? answer = some ((ofText text).position text offset).line := by
    rcases found.of_finds finds with rfl | rfl <;> rfl
  have order := Nat.le_min.mpr ⟨found.reached, within⟩
  simp only [positionAt?, line, Option.bind_eq_bind, Option.bind_some, found.stands, minus?,
    if_pos order]
  simp only [position]
  cases text.slice? _ _ <;> rfl

/-! ### Bounds -/

/-- Line and column of a position are at most the length of the text. -/
theorem position_le (text : Text) (offset : Nat) :
    ((ofText text).position text offset).line ≤ text.byteLength ∧
      ((ofText text).position text offset).column ≤ text.byteLength := by
  constructor
  · have found := isLineOf_position text offset
    obtain ⟨room, -⟩ := List.getElem?_eq_some_iff.mp found.stands
    have count := length_breaks_le 0 text
    simp only [ofText, List.length_cons] at room count ⊢
    omega
  · simp only [position]
    split
    · rename_i line cut
      obtain ⟨before, after, split, -, -⟩ := Text.slice?_eq_some_iff.mp cut
      have := line.length_le_byteLength
      rw [split]
      simp only [Text.byteLength_append]
      omega
    · exact Nat.le_trans (Nat.sub_le _ _) (Nat.min_le_right _ _)

/-! ### Main statement -/

/-- What the table of a text tells about offsets. -/
structure TellsPositions (text : Text) (table : LineTable) : Prop where
  /-- At a character boundary the position is where the walk over the text before it arrives. -/
  walks : ∀ offset before, text.takeBytes? offset = some before →
    table.position text offset = Position.zero.advance before
  /-- From a boundary to a later one the walk leads from position to position, and forward. -/
  moves : ∀ start stop before longer, text.takeBytes? start = some before →
    text.takeBytes? stop = some longer → start ≤ stop →
      ∃ between, text.slice? start stop = some between ∧
        table.position text stop = (table.position text start).advance between ∧
        (start < stop → (table.position text start).before (table.position text stop) = true)
  /-- At every offset the line is the last that begins at or before it. -/
  lastLine : ∀ offset, ∃ start, IsLineOf text offset (table.position text offset).line start
  /-- At every offset a search has an answer, and no step from any answer to the position fails. -/
  succeeds : ∀ offset, (∃ answer, Finds table.starts offset answer) ∧
    ∀ answer, Finds table.starts offset answer →
      table.positionAt? text offset answer = some (table.position text offset)
  /-- Of a text that is short enough, all numbers fit into 32 bits. -/
  fits : text.byteLength < UInt32.size → (∀ start ∈ table.starts, start < UInt32.size) ∧
    ∀ offset, (table.position text offset).line < UInt32.size ∧
      (table.position text offset).column < UInt32.size

theorem position_of_takeBytes? {before : Text} (cut : text.takeBytes? offset = some before) :
    (ofText text).position text offset = Position.zero.advance before := by
  obtain ⟨rest, split, rfl⟩ := Text.takeBytes?_eq_some_iff.mp cut
  exact (LinedText.ofText text).position_eq split

/-- Of two boundaries in order, the text before the later one goes on from the text before the
earlier one. -/
theorem exists_between {start stop : Nat} {before longer : Text}
    (first : text.takeBytes? start = some before) (second : text.takeBytes? stop = some longer)
    (order : start ≤ stop) :
    ∃ between, longer = before ++ between ∧ text.slice? start stop = some between := by
  obtain ⟨rest, split, rfl⟩ := Text.takeBytes?_eq_some_iff.mp first
  obtain ⟨after, parts, rfl⟩ := Text.takeBytes?_eq_some_iff.mp second
  rcases List.append_eq_append_iff.mp (split.symm.trans parts) with
    ⟨between, rfl, rfl⟩ | ⟨more, rfl, rfl⟩
  · refine ⟨between, rfl, ?_⟩
    rw [split, Text.byteLength_append]
    exact Text.slice?_append before between after
  · have none : more = [] := by
      have size := Text.length_le_byteLength more
      rw [Text.byteLength_append] at order
      exact List.length_eq_zero_iff.mp (by omega)
    subst none
    refine ⟨[], by simp, ?_⟩
    rw [split, List.append_nil]
    exact Text.slice?_append longer [] rest

theorem tellsPositions_ofText (text : Text) : TellsPositions text (ofText text) where
  walks _ _ := position_of_takeBytes?
  moves start stop before longer first second order := by
    obtain ⟨between, split, cut⟩ := exists_between first second order
    have arrived : (ofText text).position text stop =
        ((ofText text).position text start).advance between := by
      rw [position_of_takeBytes? second, position_of_takeBytes? first, split,
        Position.advance_append]
    refine ⟨between, cut, arrived, fun ahead => ?_⟩
    rw [arrived]
    refine Position.before_advance _ ?_
    rintro rfl
    obtain ⟨_, _, _, _, size⟩ := Text.slice?_eq_some_iff.mp cut
    rw [Text.byteLength] at size
    omega
  lastLine offset := ⟨_, isLineOf_position text offset⟩
  succeeds offset := ⟨(isLineOf_position text offset).exists_finds, fun _ => positionAt?_ofText⟩
  fits short := by
    refine ⟨fun start mem => ?_, fun offset => ?_⟩
    · have := le_byteLength_of_mem_starts mem
      omega
    · have := position_le text offset
      omega

-- behind a line feed, inside a character of two bytes, and behind the end of the text
example :
    let text : Text := "A\n\u00e9B".toList
    [2, 3, 4, 9].map ((ofText text).position text) =
      [⟨1, 0, 2⟩, ⟨1, 1, 3⟩, ⟨1, 1, 4⟩, ⟨1, 2, 9⟩] := by decide

end LineTable
end CobolTree
