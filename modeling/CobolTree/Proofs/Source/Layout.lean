import CobolTree.Proofs.Source.LineTable
import CobolTree.Proofs.Source.Slices
import Mathlib.Data.List.Forall2

/-!
Both ways to blank out a text keep its layout (`Stream.keepsLayout`). Behind padding every place of
the text has its line and its column, since the two texts have their line feeds after the same
numbers of characters (`Position.samePlace_advance`). Blanks have theirs at the same bytes, and they
are the same for a text in which something is blank already.

What is blank already is told by stretches of bytes. `Text.blankWithin` blanks all of them at once,
and it comes to the same to blank them one after another (`blankFrom_append`).
-/

namespace CobolTree

/-! ### Lines and columns -/

namespace Position

/-- The two positions have the same line and the same column. -/
structure SamePlace (p q : Position) : Prop where
  line : p.line = q.line
  column : p.column = q.column

theorem SamePlace.step {p q : Position} (h : SamePlace p q) {c d : Char}
    (feed : c = '\n' ↔ d = '\n') : SamePlace (p.step c) (q.step d) := by
  unfold Position.step
  by_cases same : c = '\n'
  · rw [if_pos same, if_pos (feed.mp same)]
    exact ⟨congrArg (· + 1) h.line, rfl⟩
  · rw [if_neg same, if_neg (mt feed.mpr same)]
    exact ⟨h.line, congrArg (· + 1) h.column⟩

/-- Two texts lead to the same place if their line feeds are the same characters by number. -/
theorem samePlace_advance {p q : Position} {s t : Text} (h : SamePlace p q)
    (feeds : List.Forall₂ (fun c d => c = '\n' ↔ d = '\n') s t) :
    SamePlace (p.advance s) (q.advance t) := by
  induction feeds generalizing p q with
  | nil => exact h
  | cons feed _ ih => exact ih (h.step feed)

end Position

namespace Text

/-- Padding has the line feeds of the text among as many characters. -/
theorem forall₂_padding (text : Text) :
    List.Forall₂ (fun c d => c = '\n' ↔ d = '\n') text.padding text := by
  rw [padding, List.forall₂_map_left_iff, List.forall₂_same]
  intro c _
  split <;> simp_all

/-! ### Blanks among blanks -/

/-- Blanks are line feeds and spaces. -/
theorem eq_of_mem_blank {text : Text} {c : Char} (mem : c ∈ text.blank) : c = '\n' ∨ c = ' ' := by
  obtain ⟨d, -, mem⟩ := List.mem_flatMap.mp mem
  split at mem
  · exact .inl (List.mem_singleton.mp mem)
  · exact .inr (List.eq_of_mem_replicate mem)

/-- A text that begins at an offset, with all characters blank that begin in one of some
stretches. -/
def blankFrom (stretches : List Range) (offset : Nat) : Text → Text
  | [] => []
  | c :: rest =>
      (if stretches.any (·.contains offset) then blank [c] else [c]) ++
        blankFrom stretches (offset + c.utf8Size) rest

/-- The text with some of its stretches blank. -/
def blankWithin (stretches : List Range) (text : Text) : Text := blankFrom stretches 0 text

section BlankFrom

variable {stretches : List Range}

theorem blankFrom_append (stretches : List Range) (offset : Nat) (s t : Text) :
    blankFrom stretches offset (s ++ t) =
      blankFrom stretches offset s ++ blankFrom stretches (offset + s.byteLength) t := by
  induction s generalizing offset with
  | nil => rfl
  | cons c rest ih =>
      simp only [List.cons_append, blankFrom, ih, byteLength, List.append_assoc, Nat.add_assoc]

/-- What is blank already stays what it is. -/
theorem blankFrom_of_blanks {text : Text} (blanks : ∀ c ∈ text, c = '\n' ∨ c = ' ')
    (offset : Nat) : blankFrom stretches offset text = text := by
  induction text generalizing offset with
  | nil => rfl
  | cons c rest ih =>
      obtain ⟨first, others⟩ := List.forall_mem_cons.mp blanks
      have stays : blank [c] = [c] := by
        rcases first with rfl | rfl <;> rfl
      rw [blankFrom, stays, ite_self, ih others]
      rfl

/-- Where the stretches cover all of a text it is blank, and where they cover none of it it stays
what it is. -/
theorem blankFrom_uniform (covered : Bool) {offset : Nat} {text : Text}
    (uniform : ∀ place, offset ≤ place → place < offset + text.byteLength →
      stretches.any (·.contains place) = covered) :
    blankFrom stretches offset text = if covered then text.blank else text := by
  induction text generalizing offset with
  | nil => cases covered <;> rfl
  | cons c rest ih =>
      have size := c.utf8Size_pos
      rw [byteLength] at uniform
      have here := uniform offset (Nat.le_refl _) (by omega)
      have behind : blankFrom stretches (offset + c.utf8Size) rest =
          if covered then blank rest else rest :=
        ih fun place lower upper => uniform place (by omega) (by omega)
      rw [blankFrom, behind, here]
      cases covered with
      | false => rfl
      | true => exact (blank_append [c] rest).symm

/-- One stretch between two places where the text splits. -/
theorem blankWithin_single (s t u : Text) :
    blankWithin [⟨s.byteLength, s.byteLength + t.byteLength⟩] (s ++ (t ++ u)) =
      s ++ (t.blank ++ u) := by
  rw [blankWithin, blankFrom_append, blankFrom_append, blankFrom_uniform false,
    blankFrom_uniform true, blankFrom_uniform false]
  · rfl
  · intro place lower _
    simp [Range.contains]
    omega
  · intro place lower upper
    simp [Range.contains]
    omega
  · intro place _ upper
    simp [Range.contains]
    omega

/-- To blank stretches one after another is to blank all of them at once. -/
theorem blankFrom_blankFrom (first second : List Range) (offset : Nat) (text : Text) :
    blankFrom second offset (blankFrom first offset text) =
      blankFrom (first ++ second) offset text := by
  induction text generalizing offset with
  | nil => rfl
  | cons c rest ih =>
      rw [blankFrom, blankFrom_append, blankFrom, List.any_append]
      cases covered : first.any (·.contains offset) with
      | true =>
          have blanks : blankFrom second offset (blank [c]) = blank [c] :=
            blankFrom_of_blanks (fun _ => eq_of_mem_blank) offset
          have size : byteLength (blank [c]) = c.utf8Size := byteLength_blank [c]
          simp only [if_true, Bool.true_or, blanks, size, ih]
      | false =>
          have size : byteLength [c] = c.utf8Size := rfl
          simp only [Bool.false_eq_true, if_false, Bool.false_or, size, ih, blankFrom,
            List.append_nil]

theorem blank_blankFrom (stretches : List Range) (offset : Nat) (text : Text) :
    (blankFrom stretches offset text).blank = text.blank := by
  induction text generalizing offset with
  | nil => rfl
  | cons c rest ih =>
      have here : blank (if stretches.any (·.contains offset) then blank [c] else [c]) =
          blank [c] := by
        split
        · exact blank_blank [c]
        · rfl
      rw [blankFrom, blank_append, ih, here, ← blank_append]
      rfl

end BlankFrom

/-! ### Line feeds by bytes -/

/-- A space at every byte of a row of spaces. -/
theorem slice?_spaces {count offset : Nat} (inside : offset < count) :
    slice? (List.replicate count ' ') offset (offset + 1) = some [' '] := by
  obtain ⟨more, rfl⟩ : ∃ more, count = offset + (1 + more) := ⟨count - offset - 1, by omega⟩
  rw [← List.replicate_append_replicate, ← List.replicate_append_replicate]
  have cut := slice?_append (List.replicate offset ' ') (List.replicate 1 ' ')
    (List.replicate more ' ')
  rwa [byteLength_spaces, byteLength_spaces] at cut

/-- A line feed that begins within the first character of a text is that character. -/
theorem eq_of_slice?_feed {c : Char} {rest : Text} {offset : Nat} (inside : offset < c.utf8Size)
    (feed : slice? (c :: rest) offset (offset + 1) = some ['\n']) : c = '\n' := by
  obtain ⟨before, after, split, size, -⟩ := slice?_eq_some_iff.mp feed
  cases before with
  | nil => exact (List.cons.inj split).1
  | cons d others =>
      obtain ⟨rfl, -⟩ := List.cons.inj split
      rw [byteLength] at size
      omega

/-- Byte by byte, blanks have a line feed where the text has one, and else a space. -/
theorem slice?_blank_byte {text : Text} {offset : Nat} (inside : offset < text.byteLength) :
    text.blank.slice? offset (offset + 1) =
      some [if text.slice? offset (offset + 1) = some ['\n'] then '\n' else ' '] := by
  induction text generalizing offset with
  | nil => exact absurd inside (Nat.not_lt_zero _)
  | cons c rest ih =>
      have shape : blank (c :: rest) = blank [c] ++ blank rest := blank_append [c] rest
      have size : byteLength (blank [c]) = c.utf8Size := byteLength_blank [c]
      by_cases first : offset < c.utf8Size
      · rw [shape, slice?_append_left (by omega)]
        by_cases feed : c = '\n'
        · subst feed
          obtain rfl : offset = 0 := Nat.lt_one_iff.mp first
          cases rest <;> rfl
        · have other : slice? (c :: rest) offset (offset + 1) ≠ some ['\n'] := fun found =>
            feed (eq_of_slice?_feed first found)
          have spaces : blank [c] = List.replicate c.utf8Size ' ' := by simp [blank, feed]
          rw [if_neg other, spaces, slice?_spaces first]
      · obtain ⟨behind, rfl⟩ : ∃ behind, offset = c.utf8Size + behind :=
          ⟨offset - c.utf8Size, by omega⟩
        have left := slice?_append_right (blank [c]) (blank rest) behind (behind + 1)
        have right := slice?_append_right [c] rest behind (behind + 1)
        rw [size] at left
        rw [shape, Nat.add_assoc, left, ih (by rw [byteLength] at inside; omega), ← right]
        rfl

end Text

/-! ### Main statement -/

namespace Stream

/-- The padding and the blanks of a text keep its layout. -/
structure KeepsLayout (stream : Stream) : Prop where
  /-- Behind the padding for what stands before it, each place of a rest of the text is in the line
  and the column of that place in the text. -/
  padding : ∀ start before rest, stream.text.takeBytes? start = some before →
    stream.text.dropBytes? start = some rest →
      ∀ size within, rest.takeBytes? size = some within →
        Position.SamePlace
          ((LinedText.ofText (stream.paddingBefore start ++ rest)).position
            ((stream.paddingBefore start).byteLength + size))
          (stream.position (start + size))
  /-- Blanking one stretch replaces it by its blanks. -/
  stretch : ∀ before between after, stream.text = before ++ (between ++ after) →
    stream.text.blankWithin
        [⟨before.byteLength, before.byteLength + between.byteLength⟩] =
      before ++ (between.blank ++ after)
  /-- Stretches are blanked one after another or all at once. -/
  stretches : ∀ first second, (stream.text.blankWithin first).blankWithin second =
    stream.text.blankWithin (first ++ second)
  /-- Whatever is blank already makes no difference to the blanks of the text. -/
  blank : ∀ stretches, (stream.text.blankWithin stretches).blank = stream.text.blank
  /-- The blanks take the bytes of the text. -/
  size : ∀ stretches,
    (stream.text.blankWithin stretches).blank.byteLength = stream.text.byteLength
  /-- The blanks have line feeds at the bytes where the text has them, and spaces at all others. -/
  feeds : ∀ stretches offset, offset < stream.text.byteLength →
    (stream.text.blankWithin stretches).blank.slice? offset (offset + 1) =
      some [if stream.text.slice? offset (offset + 1) = some ['\n'] then '\n' else ' ']

/-- The padding before a place where the text splits is the padding of all that stands before. -/
theorem paddingBefore_eq {stream : Stream} {before rest : Text}
    (split : stream.text = before ++ rest) :
    stream.paddingBefore before.byteLength = before.padding := by
  have whole : min before.byteLength stream.text.byteLength = before.byteLength := by
    rw [split, Text.byteLength_append]
    omega
  rw [paddingBefore, whole, split, Text.takeBytes?_append]
  rfl

theorem samePlace_padding {stream : Stream} {before within after : Text}
    (split : stream.text = before ++ (within ++ after)) :
    Position.SamePlace
      ((LinedText.ofText (before.padding ++ (within ++ after))).position
        (before.padding.byteLength + within.byteLength))
      (stream.position (before.byteLength + within.byteLength)) := by
  have padded := (LinedText.ofText (before.padding ++ (within ++ after))).position_eq
    (List.append_assoc _ within after).symm
  have plain := stream.position_eq (split.trans (List.append_assoc _ within after).symm)
  rw [Text.byteLength_append] at padded plain
  rw [padded, plain]
  refine Position.samePlace_advance ⟨rfl, rfl⟩ (List.rel_append ?_ ?_)
  · exact before.forall₂_padding
  · exact List.forall₂_same.mpr fun c _ => Iff.rfl

theorem keepsLayout (stream : Stream) : stream.KeepsLayout where
  padding start before rest front back size within cut := by
    obtain ⟨other, split, rfl⟩ := Text.takeBytes?_eq_some_iff.mp front
    rw [split, Text.dropBytes?_append] at back
    cases back
    obtain ⟨after, rfl, rfl⟩ := Text.takeBytes?_eq_some_iff.mp cut
    rw [paddingBefore_eq split]
    exact samePlace_padding split
  stretch before between after split := by
    rw [split]
    exact Text.blankWithin_single before between after
  stretches first second := Text.blankFrom_blankFrom first second 0 stream.text
  blank stretches := Text.blank_blankFrom stretches 0 stream.text
  size stretches := by
    rw [Text.blankWithin, Text.blank_blankFrom, Text.byteLength_blank]
  feeds stretches offset inside := by
    rw [Text.blankWithin, Text.blank_blankFrom]
    exact Text.slice?_blank_byte inside

end Stream

end CobolTree
