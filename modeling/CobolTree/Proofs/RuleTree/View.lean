import CobolTree.Proofs.Grammar.Reparse
import CobolTree.Proofs.Source.LineTable

/-!
Terminals as a view of the source. A terminal is faithful when it has the text at its range, the
position that the text before it leads to, and the origin of its range; a row of terminals is a
view when all of them are faithful, none begins before the one before it ends, and nothing but
filler lies outside of them, with comments that end where they may (`IsView`). Terminals that cover
the text are a view of it (`Covers.isView`).
-/

namespace CobolTree

/-- The terminal says what stands at its range, and where. -/
structure Terminal.IsFaithful (stream : Stream) (terminal : Terminal) : Prop where
  nonempty : terminal.range.start < terminal.range.stop
  text : stream.text.slice? terminal.range.start terminal.range.stop = some terminal.text
  position : ∃ before, stream.text.takeBytes? terminal.range.start = some before ∧
    terminal.position = Position.zero.advance before
  origin : terminal.origin = stream.document.map (·.locationOf terminal.range)

/-- The stretches between an offset and an end that are outside of the ranges of a row of terminals:
before each of them, and behind the last. -/
def gaps (stop offset : Nat) : List Terminal → List Range
  | [] => [⟨offset, stop⟩]
  | terminal :: rest => ⟨offset, terminal.range.start⟩ :: gaps stop terminal.range.stop rest

/-- A row of terminals as a faithful and ordered view of the text from an offset on. Outside of the
terminals there are blanks and comments alone, and every comment ends where it `stops`. -/
structure IsView (stream : Stream) (stops : Nat → Prop) (offset : Nat) (terminals : List Terminal) :
    Prop where
  faithful : ∀ terminal ∈ terminals, terminal.IsFaithful stream
  behind : ∀ terminal ∈ terminals, offset ≤ terminal.range.start
  ordered : terminals.Pairwise fun earlier later => earlier.range.stop ≤ later.range.start
  filled : ∀ gap ∈ gaps stream.text.byteLength offset terminals, ∃ filler,
    stream.text.slice? gap.start gap.stop = some filler ∧ IsFiller stops gap.start filler

namespace IsView

variable {stream : Stream} {stops : Nat → Prop}

theorem nil {before filler : Text} (split : stream.text = before ++ filler)
    (blank : IsFiller stops before.byteLength filler) :
    IsView stream stops before.byteLength [] where
  faithful _ mem := by cases mem
  behind _ mem := by cases mem
  ordered := .nil
  filled gap mem := by
    have stop : stream.text.byteLength = before.byteLength + filler.byteLength := by
      rw [split, Text.byteLength_append]
    have slice : stream.text.slice? before.byteLength stream.text.byteLength = some filler := by
      rw [stop]
      simpa [split] using Text.slice?_append before filler []
    rw [List.mem_singleton.mp mem]
    exact ⟨filler, slice, blank⟩

/-- A terminal behind a gap comes before a view of what is behind it. -/
theorem cons {before gap text rest : Text} {terminal : Terminal} {terminals : List Terminal}
    (split : stream.text = before ++ (gap ++ (text ++ rest)))
    (blank : IsFiller stops before.byteLength gap) (some : text ≠ [])
    (stands : stream.StandsFor terminal (before ++ gap).byteLength text)
    (h : IsView stream stops (before ++ gap ++ text).byteLength terminals) :
    IsView stream stops before.byteLength (terminal :: terminals) := by
  obtain ⟨type, rfl⟩ := stands
  have lead : stream.text = (before ++ gap) ++ (text ++ rest) := by rw [split, List.append_assoc]
  have size := Text.length_le_byteLength text
  have long := List.length_pos_iff.mpr some
  have stop : (before ++ gap ++ text).byteLength =
      (before ++ gap).byteLength + text.byteLength := Text.byteLength_append _ text
  constructor
  · intro other mem
    rcases List.mem_cons.mp mem with rfl | inside
    · constructor
      · simp only [Stream.terminal, Range.ofText]
        omega
      · rw [lead]
        exact Text.slice?_append (before ++ gap) text rest
      · refine ⟨before ++ gap, ?_, stream.position_eq lead⟩
        rw [lead]
        exact Text.takeBytes?_append (before ++ gap) (text ++ rest)
      · rfl
    · exact h.faithful other inside
  · intro other mem
    have lower : before.byteLength ≤ (before ++ gap).byteLength := by
      rw [Text.byteLength_append]
      omega
    rcases List.mem_cons.mp mem with rfl | inside
    · exact lower
    · have := h.behind other inside
      omega
  · refine List.pairwise_cons.mpr ⟨fun other mem => ?_, h.ordered⟩
    have := h.behind other mem
    rwa [stop] at this
  · intro stretch mem
    rcases List.mem_cons.mp mem with rfl | inside
    · refine ⟨gap, ?_, blank⟩
      have slice := Text.slice?_append before gap (text ++ rest)
      rwa [← split, ← Text.byteLength_append] at slice
    · refine h.filled stretch ?_
      rw [stop]
      exact inside

end IsView

/-- Terminals that cover a text from an offset on are a view of it. -/
theorem Covers.isView {stream : Stream} {stops : Nat → Prop} {before text : Text}
    {terminals : List Terminal}
    (h : Covers stops stream.StandsFor before.byteLength text terminals)
    (split : stream.text = before ++ text) : IsView stream stops before.byteLength terminals := by
  generalize start : before.byteLength = offset at h
  induction h generalizing before with
  | gap blank =>
      subst start
      exact .nil split blank
  | @piece offset gap text rest terminal terminals blank some stands _ ih =>
      subst start
      have here : before.byteLength + gap.byteLength = (before ++ gap).byteLength :=
        (Text.byteLength_append before gap).symm
      have there : (before ++ gap ++ text).byteLength =
          before.byteLength + gap.byteLength + text.byteLength := by
        rw [here, Text.byteLength_append]
      have others := ih (by simp [split]) there
      rw [← there] at others
      rw [here] at stands
      exact .cons split blank some stands others

end CobolTree
