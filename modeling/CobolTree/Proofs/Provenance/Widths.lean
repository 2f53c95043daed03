import CobolTree.Proofs.Lossless
import CobolTree.Proofs.Provenance.Characters
import CobolTree.Proofs.Source.Positions
import CobolTree.Proofs.Token.Partition

/-!
Widths of places. Lines, columns and offsets are kept in 32 bits. A walk over a text adds at most the
bytes of the text to each of the three (`Position.HasRoom.advance`), so the places of the tokens of
a text that is short enough do not overflow (`Parsed.hasRoom_ofText`). Whatever a document is asked, it
answers with a walk over a stretch of its text, from the beginning or from where an entry was written;
so no place that it tells overflows, if its text is short enough and each entry was written where
there is room for the text (`Document.fits_ofText`).
-/

namespace CobolTree

/-! ### Walks -/

namespace Position

/-- Line, column and offset could each grow by the size and would still fit into 32 bits. -/
structure HasRoom (size : Nat) (place : Position) : Prop where
  line : place.line + size < UInt32.size
  column : place.column + size < UInt32.size
  index : place.index + size < UInt32.size

/-- Line, column and offset fit into 32 bits. -/
abbrev Fits (place : Position) : Prop := place.HasRoom 0

namespace HasRoom

variable {place : Position} {size other : Nat}

theorem mono (room : place.HasRoom size) (less : other ≤ size) : place.HasRoom other where
  line := Nat.lt_of_le_of_lt (Nat.add_le_add_left less _) room.line
  column := Nat.lt_of_le_of_lt (Nat.add_le_add_left less _) room.column
  index := Nat.lt_of_le_of_lt (Nat.add_le_add_left less _) room.index

theorem zero (short : size < UInt32.size) : Position.zero.HasRoom size := by
  have start : 0 + size < UInt32.size := by rwa [Nat.zero_add]
  exact ⟨start, start, start⟩

/-- A character moves each number by its bytes at most. -/
theorem step {c : Char} (room : place.HasRoom (c.utf8Size + size)) : (place.step c).HasRoom size := by
  obtain ⟨line, column, index⟩ := room
  have pos := c.utf8Size_pos
  unfold Position.step
  split
  · exact ⟨by dsimp only; omega, by dsimp only; omega, by dsimp only; omega⟩
  · exact ⟨by dsimp only; omega, by dsimp only; omega, by dsimp only; omega⟩

/-- Where there is room for a text and more, there is room for more behind the text. -/
theorem advance {text : Text} (room : place.HasRoom (text.byteLength + size)) :
    (place.advance text).HasRoom size := by
  induction text generalizing place with
  | nil => simpa [Text.byteLength] using room
  | cons c rest ih =>
      refine ih (step ?_)
      rwa [Text.byteLength, Nat.add_assoc] at room

end HasRoom

end Position

/-! ### Tokens -/

/-- In a text that is short enough, each token has a place with room for the token. -/
theorem Parsed.hasRoom_ofText (settings : Settings) {text : Text}
    (short : text.byteLength < UInt32.size) :
    ∀ token ∈ (ofText settings text).tokens, token.position.HasRoom token.text.byteLength := by
  intro token mem
  obtain ⟨last, -, reads⟩ := reads_ofText settings text
  obtain ⟨before, behind, split⟩ := List.append_of_mem mem
  rw [split] at reads
  have whole : text.byteLength = _ := congrArg Text.byteLength reads.rest_eq
  simp only [Token.lexemes_append, Token.lexemes_cons, Lexeme.textOf_append, Lexeme.textOf_cons,
    Text.byteLength_append] at whole
  rw [reads.position_of_split]
  refine Position.HasRoom.advance ((Position.HasRoom.zero short).mono ?_)
  omega

/-! ### Documents -/

namespace Document

/-- Every place that a document tells fits into 32 bits. -/
structure Fits (document : Document) : Prop where
  resolve : ∀ offset < UInt32.size, (document.resolve offset).2.Fits
  locationOf : ∀ range : Range, range.start < UInt32.size →
    (document.locationOf range).span.start.Fits ∧ (document.locationOf range).span.stop.Fits

section Between

variable (text : Text) (mapping : DocumentMapping) (start stop : Nat)

/-- What stands between two offsets is nothing, or else the first one is a boundary and the text is
no longer than the offsets are apart. -/
theorem between_cases :
    (ofText text mapping).between start stop = [] ∨
      ∃ before after, text = before ++ after ∧ before.byteLength = start ∧
        start + ((ofText text mapping).between start stop).byteLength =
          min stop text.byteLength := by
  have document : (ofText text mapping).text = text := rfl
  rw [between, document]
  cases cut : text.slice? start (min stop text.byteLength) with
  | none => exact .inl rfl
  | some middle =>
      obtain ⟨before, after, split, first, last⟩ := Text.slice?_eq_some_iff.mp cut
      exact .inr ⟨before, _, split, first, last⟩

theorem byteLength_between_le :
    ((ofText text mapping).between start stop).byteLength ≤ min stop text.byteLength - start := by
  rcases between_cases text mapping start stop with none | ⟨_, _, -, -, size⟩
  · rw [none]
    exact Nat.zero_le _
  · omega

end Between

variable {text : Text} {mapping : DocumentMapping}

/-- A place in a text that stands alone has room for whatever is walked over from there. -/
theorem hasRoom_position (short : text.byteLength < UInt32.size) {offset : Nat}
    (inside : offset < UInt32.size) (stop : Nat) :
    ((LinedText.ofText text).position offset).HasRoom
      ((ofText text mapping).between offset stop).byteLength := by
  rcases between_cases text mapping offset stop with none | ⟨before, after, split, rfl, size⟩
  · obtain ⟨line, column⟩ := LineTable.position_le text offset
    rw [none]
    exact ⟨Nat.lt_of_le_of_lt line short, Nat.lt_of_le_of_lt column short, inside⟩
  · rw [(LinedText.ofText text).position_eq split]
    refine Position.HasRoom.advance ((Position.HasRoom.zero short).mono ?_)
    omega

/-- The place of an offset has room for whatever is walked over from there. -/
theorem hasRoom_resolve (short : text.byteLength < UInt32.size)
    (room : ∀ entry ∈ mapping.entries, entry.written.HasRoom text.byteLength) {offset : Nat}
    (inside : offset < UInt32.size) (stop : Nat) :
    ((ofText text mapping).resolve offset).2.HasRoom
      ((ofText text mapping).between offset stop).byteLength := by
  unfold resolve
  split
  · rename_i entry found
    have walk := byteLength_between_le text mapping offset stop
    have earlier := byteLength_between_le text mapping entry.expanded.start offset
    have known := room entry (DocumentMapping.mem_of_entryAt? found)
    refine Position.HasRoom.advance (known.mono ?_)
    omega
  · exact hasRoom_position short inside stop

/-- No place that a document tells overflows, if its text is short enough and each entry was written
where there is room for the text. -/
theorem fits_ofText (short : text.byteLength < UInt32.size)
    (room : ∀ entry ∈ mapping.entries, entry.written.HasRoom text.byteLength) :
    (ofText text mapping).Fits where
  resolve offset inside := (hasRoom_resolve short room inside 0).mono (Nat.zero_le _)
  locationOf range inside := by
    have start := hasRoom_resolve short room inside range.stop
    unfold locationOf
    refine ⟨start.mono (Nat.zero_le _), ?_⟩
    dsimp only
    split
    · exact start.mono (Nat.zero_le _)
    · exact start.advance

end Document

end CobolTree
