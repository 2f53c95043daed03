import CobolTree.Proofs.Provenance.Lookup
import CobolTree.Proofs.Source.LineTable
import CobolTree.Proofs.Source.Slices
import CobolTree.Provenance.Document

/-!
The three ways to ask where a text was written agree. Behind a stretch that was written through one
entry, or through none, the next character was written where the stretch ends (`resolve_advance`).
So the place that the walk over all characters carries along is the one that `resolve` works out
from the beginning of the entry (`charactersFrom_eq`). The walk begins anew where an entry begins;
it is right to do so if entries begin at characters (`entryAt?_before`).
-/

namespace CobolTree

/-! ### Boundaries -/

/-- The offset stands between two characters of the text, or at an end of it. -/
def Text.IsBoundary (text : Text) (offset : Nat) : Prop :=
  ∃ before after, text = before ++ after ∧ byteLength before = offset

instance (text : Text) (offset : Nat) : Decidable (text.IsBoundary offset) :=
  decidable_of_iff ((text.dropBytes? offset).isSome = true) (by
    rw [Option.isSome_iff_exists]
    simp only [Text.dropBytes?_eq_some_iff]
    exact exists_comm)

/-- A boundary before the end of a character is at its beginning at the latest. -/
theorem Text.IsBoundary.le_of_lt {text front back : Text} {c : Char} {offset : Nat}
    (boundary : text.IsBoundary offset) (split : text = front ++ c :: back)
    (lt : offset < byteLength (front ++ [c])) : offset ≤ byteLength front := by
  obtain ⟨before, after, other, rfl⟩ := boundary
  rcases List.append_eq_append_iff.mp (other.symm.trans split) with
    ⟨middle, rfl, -⟩ | ⟨middle, rfl, rest⟩
  · simp
  · cases middle with
    | nil => simp
    | cons head middle =>
        obtain ⟨rfl, -⟩ := List.cons.inj rest
        simp only [byteLength_append, byteLength] at lt
        omega

/-- Every entry begins at a character of the text, at its end or past it. -/
def DocumentMapping.OnBoundaries (text : Text) (entries : List MappingEntry) : Prop :=
  ∀ entry ∈ entries,
    text.IsBoundary entry.expanded.start ∨ text.byteLength < entry.expanded.start

instance (text : Text) (entries : List MappingEntry) :
    Decidable (DocumentMapping.OnBoundaries text entries) :=
  inferInstanceAs (Decidable (∀ entry ∈ entries, _))

namespace Document

open DocumentMapping

section Walk

variable {text : Text} {uri : String} {entries : List MappingEntry}

/-! ### Places -/

theorem between_append (mapping : DocumentMapping) (before middle after : Text) :
    (ofText (before ++ (middle ++ after)) mapping).between before.byteLength
      (before.byteLength + middle.byteLength) = middle := by
  have stop : min (before.byteLength + middle.byteLength)
      (Text.byteLength (before ++ (middle ++ after))) =
        before.byteLength + middle.byteLength := by
    simp only [Text.byteLength_append]
    omega
  have same : (ofText (before ++ (middle ++ after)) mapping).text = before ++ (middle ++ after) :=
    rfl
  rw [between, same, stop, Text.slice?_append, Option.getD_some]

/-- An entry that is found within the text begins at a character. -/
theorem boundary_of_entryAt? (placed : OnBoundaries text entries) {before after : Text}
    (split : text = before ++ after) {entry : MappingEntry}
    (found : entryAt? before.byteLength (ofEntries uri entries) = some entry) :
    text.IsBoundary entry.expanded.start := by
  obtain ⟨latest, -⟩ := entryAt?_eq_some_iff.mp found
  have reached := latest.1
  have whole : text.byteLength = before.byteLength + after.byteLength := by
    rw [split, Text.byteLength_append]
  rcases placed entry latest.mem with boundary | past
  · exact boundary
  · omega

/-- Behind a stretch, text that was written through the same entry was written where the stretch
ends. -/
theorem resolve_advance (placed : OnBoundaries text entries) {before middle after : Text}
    (split : text = before ++ (middle ++ after))
    (same : entryAt? (before ++ middle).byteLength (ofEntries uri entries) =
      entryAt? before.byteLength (ofEntries uri entries)) :
    let document := ofText text (ofEntries uri entries)
    document.resolve (before ++ middle).byteLength =
      ((document.resolve before.byteLength).1,
        (document.resolve before.byteLength).2.advance middle) := by
  intro document
  have mapped : document.mapping = ofEntries uri entries := rfl
  simp only [resolve, mapped, same]
  cases found : entryAt? before.byteLength (ofEntries uri entries) with
  | none =>
      have source : document.source.text = before ++ (middle ++ after) := split
      have whole : document.source.text = (before ++ middle) ++ after := by
        rw [source, List.append_assoc]
      simp only [document.source.position_eq source, document.source.position_eq whole,
        Position.advance_append]
  | some entry =>
      obtain ⟨front, rest, parts, size⟩ := boundary_of_entryAt? placed split found
      have reached : entry.expanded.start ≤ before.byteLength :=
        (entryAt?_eq_some_iff.mp found).1.1
      -- the entry begins within the text before the stretch
      obtain ⟨walked, rfl⟩ : ∃ walked, before = front ++ walked := by
        rcases List.append_eq_append_iff.mp (parts.symm.trans split) with
          ⟨walked, inside, -⟩ | ⟨past, outside, -⟩
        · exact ⟨walked, inside⟩
        · have none : past = [] := by
            have longer := congrArg Text.byteLength outside
            have short := Text.length_le_byteLength past
            rw [Text.byteLength_append] at longer
            exact List.eq_nil_of_length_eq_zero (by omega)
          exact ⟨[], by rw [outside, none, List.append_nil, List.append_nil]⟩
      have one := between_append (ofEntries uri entries) front walked (middle ++ after)
      have both := between_append (ofEntries uri entries) front (walked ++ middle) after
      simp only [document, split, List.append_assoc, Text.byteLength_append, ← size] at one both ⊢
      rw [one, both, Position.advance_append]

/-- Where an entry begins, its text was written where the entry says. -/
theorem resolve_start {before after : Text} (split : text = before ++ after) {entry : MappingEntry}
    (found : entryAt? before.byteLength (ofEntries uri entries) = some entry)
    (begins : entry.expanded.start = before.byteLength) :
    (ofText text (ofEntries uri entries)).resolve before.byteLength =
      (entry.uri, entry.written) := by
  have mapped : (ofText text (ofEntries uri entries)).mapping = ofEntries uri entries := rfl
  have none := between_append (ofEntries uri entries) before [] after
  simp only [resolve, mapped, found, begins]
  rw [List.nil_append, ← split] at none
  exact congrArg (fun walked => (entry.uri, entry.written.advance walked)) none

/-- Of a character in front of which its entry was not found, the entry begins there. -/
theorem entryAt?_before (placed : OnBoundaries text entries) {front back : Text} {c : Char}
    (split : text = front ++ c :: back) {entry : MappingEntry}
    (found : entryAt? (front ++ [c]).byteLength (ofEntries uri entries) = some entry) :
    entryAt? front.byteLength (ofEntries uri entries) = some entry ∨
      entry.expanded.start = (front ++ [c]).byteLength := by
  have parts : text = (front ++ [c]) ++ back := by simp [split]
  have boundary := boundary_of_entryAt? placed parts found
  rcases Nat.eq_or_lt_of_le (entryAt?_eq_some_iff.mp found).1.1 with begins | earlier
  · exact Or.inr begins
  · apply Or.inl
    apply entryAt?_of_le found (boundary.le_of_lt split earlier)
    simp

/-! ### The walk -/

/-- A character with its provenance as the lookups of its offset tell it. -/
def describe (document : Document) (offset id : Nat) (c : Char) : MappedCharacter :=
  let entry := document.mapping.entryAt? offset
  let origin := document.resolve offset
  ⟨id, c, provenanceAt origin.1 (entry.map (·.expanded)) (entry.bind (·.name)) origin.2 c⟩

/-- The characters from an offset on, each described by itself. -/
def describeFrom (document : Document) (offset id : Nat) : Text → List MappedCharacter
  | [] => []
  | c :: rest =>
      document.describe offset id c ::
        document.describeFrom (offset + c.utf8Size) (id + 1) rest

theorem describeFrom_append (document : Document) (offset id : Nat) (s t : Text) :
    document.describeFrom offset id (s ++ t) =
      document.describeFrom offset id s ++
        document.describeFrom (offset + s.byteLength) (id + s.length) t := by
  induction s generalizing offset id with
  | nil => rfl
  | cons c rest ih =>
      have size : offset + c.utf8Size + Text.byteLength rest =
          offset + Text.byteLength (c :: rest) := by
        simp only [Text.byteLength]
        omega
      have count : id + 1 + rest.length = id + (c :: rest).length := by
        simp only [List.length_cons]
        omega
      rw [List.cons_append, describeFrom, describeFrom, ih, List.cons_append, size, count]

theorem map_character_describeFrom (document : Document) (offset id : Nat) (text : Text) :
    (document.describeFrom offset id text).map (·.character) = text := by
  induction text generalizing offset id with
  | nil => rfl
  | cons c rest ih => rw [describeFrom, List.map_cons, ih]; rfl

/-- What the walk carries behind a text: nothing before the first character, and else the range of
the entry of the last one with the place behind it. -/
def Carries (document : Document) (before : Text) (running : Option (Range × Position)) : Prop :=
  before = [] ∧ running = none ∨
    ∃ (front : Text) (c : Char), before = front ++ [c] ∧
      running = (document.mapping.entryAt? front.byteLength).map fun entry =>
        (entry.expanded, (document.resolve front.byteLength).2.step c)

/-- The place that the walk gives a character of an entry. -/
def placeBehind (running : Option (Range × Position)) (entry : MappingEntry) : Position :=
  match running with
  | some (range, place) => if range = entry.expanded then place else entry.written
  | none => entry.written

/-- The place that the walk gives a character of an entry is the one that is worked out from the
beginning of the entry. -/
theorem Carries.place_eq (placed : OnBoundaries text entries) {before after : Text}
    (split : text = before ++ after) {running : Option (Range × Position)}
    (carries : (ofText text (ofEntries uri entries)).Carries before running) {entry : MappingEntry}
    (found : entryAt? before.byteLength (ofEntries uri entries) = some entry) :
    placeBehind running entry =
      ((ofText text (ofEntries uri entries)).resolve before.byteLength).2 := by
  have start : entry.expanded.start = before.byteLength →
      entry.written = ((ofText text (ofEntries uri entries)).resolve before.byteLength).2 :=
    fun begins => by rw [resolve_start split found begins]
  rcases carries with ⟨rfl, rfl⟩ | ⟨front, c, rfl, rfl⟩
  · have reached := (entryAt?_eq_some_iff.mp found).1.1
    exact start (Nat.le_zero.mp reached)
  · have parts : text = front ++ ([c] ++ after) := by rw [split, List.append_assoc]
    have mapped : (ofText text (ofEntries uri entries)).mapping = ofEntries uri entries := rfl
    rw [mapped]
    cases last : entryAt? front.byteLength (ofEntries uri entries) with
    | none =>
        apply start
        rcases entryAt?_before placed parts found with same | begins
        · cases last.symm.trans same
        · exact begins
    | some previous =>
        rw [Option.map_some, placeBehind]
        split_ifs with range
        · -- entries of one range are one entry, which goes on here
          have begun : entry.expanded.start ≤ front.byteLength := by
            rw [← range]
            exact (entryAt?_eq_some_iff.mp last).1.1
          have same := entryAt?_of_le found begun (by simp)
          rw [resolve_advance placed parts (found.trans same.symm)]
          rfl
        · apply start
          rcases entryAt?_before placed parts found with same | begins
          · cases last.symm.trans same
            exact absurd rfl range
          · exact begins

theorem charactersFrom_eq (placed : OnBoundaries text entries) {before rest : Text}
    (split : text = before ++ rest) {running : Option (Range × Position)}
    (carries : (ofText text (ofEntries uri entries)).Carries before running) (id : Nat) :
    (ofText text (ofEntries uri entries)).charactersFrom before.byteLength id running rest =
      (ofText text (ofEntries uri entries)).describeFrom before.byteLength id rest := by
  induction rest generalizing before running id with
  | nil => rfl
  | cons c rest ih =>
      have parts : text = (before ++ [c]) ++ rest := by simp [split]
      have next : before.byteLength + c.utf8Size = (before ++ [c]).byteLength := by
        simp [Text.byteLength]
      have mapped : (ofText text (ofEntries uri entries)).mapping = ofEntries uri entries := rfl
      rw [charactersFrom, describeFrom]
      cases found : entryAt? before.byteLength (ofEntries uri entries) with
      | none =>
          simp only [mapped, found, describe, resolve, next]
          congr 1
          apply ih parts
          exact Or.inr ⟨before, c, rfl, by rw [mapped, found]; rfl⟩
      | some entry =>
          have place := carries.place_eq placed split found
          simp only [mapped, found, describe, next]
          rw [← place]
          let carried := some (entry.expanded, (placeBehind running entry).step c)
          change _ :: charactersFrom _ _ _ carried _ = _
          congr 1
          · simp only [resolve, mapped, found, Option.map_some, Option.bind_some]
            rfl
          · apply ih parts
            exact Or.inr ⟨before, c, rfl, by rw [mapped, found, ← place]; rfl⟩

theorem mappedCharacters_eq (placed : OnBoundaries text entries) :
    (ofText text (ofEntries uri entries)).mappedCharacters =
      (ofText text (ofEntries uri entries)).describeFrom 0 0 text := by
  have nothing : (ofText text (ofEntries uri entries)).Carries [] none := Or.inl ⟨rfl, rfl⟩
  exact charactersFrom_eq placed rfl nothing 0

end Walk

/-! ### Agreement -/

/-- What the walk over a document tells of its characters agrees with what is told of single offsets
and of ranges. -/
structure Agrees (document : Document) : Prop where
  /-- There is one mapped character for each character, in order. -/
  characters : document.mappedCharacters.map (·.character) = document.text
  /-- A character was written where its offset was, and takes the stretch that its range takes. -/
  each : ∀ (before : Text) (c : Char) (after : Text), document.text = before ++ c :: after →
    ∃ mapped, document.mappedCharacters[before.length]? = some mapped ∧
      (mapped.provenance.uri, mapped.provenance.written) = document.resolve before.byteLength ∧
      mapped.provenance.parent =
        (document.mapping.entryAt? before.byteLength).map (·.expanded) ∧
      mapped.provenance.instant =
        document.locationOf ⟨before.byteLength, before.byteLength + c.utf8Size⟩
  /-- A range that was written through one entry, or through none, goes from the beginning of its
  first character to the end of its last. -/
  stretches : ∀ before middle after : Text, document.text = before ++ (middle ++ after) →
    middle ≠ [] →
    (∃ through, ∀ (front : Text) (c : Char) (back : Text), middle = front ++ c :: back →
      document.mapping.entryAt? (before ++ front).byteLength = through) →
    ∃ first last, document.mappedCharacters[before.length]? = some first ∧
      document.mappedCharacters[before.length + middle.length - 1]? = some last ∧
      first.provenance.instant.uri = last.provenance.instant.uri ∧
      document.locationOf ⟨before.byteLength, before.byteLength + middle.byteLength⟩ =
        ⟨first.provenance.instant.uri,
          ⟨first.provenance.instant.span.start, last.provenance.instant.span.stop⟩⟩

section Agreement

variable {text : Text} {uri : String} {entries : List MappingEntry}

theorem locationOf_eq (mapping : DocumentMapping) {before middle after : Text}
    (split : text = before ++ (middle ++ after)) (nonempty : middle ≠ []) :
    let document := ofText text mapping
    document.locationOf ⟨before.byteLength, before.byteLength + middle.byteLength⟩ =
      ⟨(document.resolve before.byteLength).1, (document.resolve before.byteLength).2,
        (document.resolve before.byteLength).2.advance middle⟩ := by
  intro document
  have walked : document.between before.byteLength (before.byteLength + middle.byteLength) =
      middle := by
    simp only [document, split]
    exact between_append mapping before middle after
  have filled : (Range.isEmpty ⟨before.byteLength, before.byteLength + middle.byteLength⟩) =
      false := by
    have long := Text.length_le_byteLength middle
    have := List.length_pos_iff.mpr nonempty
    simp only [Range.isEmpty, beq_eq_false_iff_ne]
    omega
  simp only [locationOf, filled, walked]
  rfl

/-- The mapped character of a character is the one that its offset describes. -/
theorem mappedCharacters_getElem? (placed : OnBoundaries text entries) {before after : Text}
    {c : Char} (split : text = before ++ c :: after) :
    let document := ofText text (ofEntries uri entries)
    document.mappedCharacters[before.length]? =
      some (document.describe before.byteLength before.length c) := by
  intro document
  have count : (document.describeFrom 0 0 before).length = before.length := by
    rw [← List.length_map (·.character), map_character_describeFrom]
  have whole : document.mappedCharacters = document.describeFrom 0 0 before ++
      document.describeFrom (0 + before.byteLength) (0 + before.length) (c :: after) := by
    rw [← describeFrom_append, ← split]
    exact mappedCharacters_eq placed
  rw [whole, List.getElem?_append_right (Nat.le_of_eq count), count, Nat.sub_self, Nat.zero_add,
    Nat.zero_add]
  rfl

/-- If every entry begins at a character of the text or past its end, the walk over all characters
agrees with the lookups of their offsets and of ranges, however the entries overlap. -/
theorem agrees_ofEntries (text : Text) (uri : String) (entries : List MappingEntry)
    (placed : OnBoundaries text entries) : (ofText text (ofEntries uri entries)).Agrees where
  characters := by
    rw [mappedCharacters_eq placed, map_character_describeFrom]
    rfl
  each before c after split := by
    refine ⟨_, mappedCharacters_getElem? placed split, rfl, rfl, ?_⟩
    have parts : text = before ++ ([c] ++ after) := split
    exact (locationOf_eq (ofEntries uri entries) parts (List.cons_ne_nil c [])).symm
  stretches before middle after split nonempty same := by
    obtain ⟨through, same⟩ := same
    have whole : text = before ++ (middle ++ after) := split
    obtain ⟨c, rest, begins⟩ := List.exists_cons_of_ne_nil nonempty
    obtain ⟨front, d, ends⟩ : ∃ (front : Text) (d : Char), middle = front ++ [d] :=
      ⟨_, _, (List.dropLast_concat_getLast nonempty).symm⟩
    have first : text = before ++ c :: (rest ++ after) := by rw [whole, begins, List.cons_append]
    have last : text = (before ++ front) ++ d :: after := by rw [whole, ends]; simp
    have place : (before ++ front).length = before.length + middle.length - 1 := by
      rw [ends, List.length_append, List.length_append, List.length_singleton]
      omega
    refine ⟨_, _, mappedCharacters_getElem? placed first,
      place ▸ mappedCharacters_getElem? placed last, ?_⟩
    -- the last character was written where the stretch before it ends
    have behind : text = before ++ (front ++ d :: after) := by rw [last, List.append_assoc]
    have one : entryAt? before.byteLength (ofEntries uri entries) = through := by
      have front := same [] c rest begins
      rwa [List.append_nil] at front
    have moved := resolve_advance placed behind ((same front d [] ends).trans one.symm)
    rw [locationOf_eq (ofEntries uri entries) whole nonempty]
    simp only [describe, provenanceAt, moved, true_and]
    rw [ends, Position.advance_append]
    rfl

/-- Entries may nest, share a range and be empty. -/
theorem agrees_nested :
    let text := "añb\ncd".toList
    let entries : List MappingEntry :=
      [⟨⟨0, 6⟩, "outer", ⟨4, 7, 90⟩, some "OUTER"⟩, ⟨⟨1, 3⟩, "first", .zero, none⟩,
        ⟨⟨1, 3⟩, "second", ⟨2, 0, 20⟩, none⟩, ⟨⟨4, 4⟩, "empty", .zero, none⟩,
        ⟨⟨9, 12⟩, "past", .zero, none⟩]
    OnBoundaries text entries ∧ (ofText text (ofEntries "main" entries)).Agrees := by
  intro text entries
  have placed : OnBoundaries text entries := by decide
  exact ⟨placed, agrees_ofEntries text "main" entries placed⟩

end Agreement

end Document

end CobolTree
