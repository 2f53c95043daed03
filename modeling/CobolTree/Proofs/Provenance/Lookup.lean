import CobolTree.Provenance.Mapping
import Mathlib.Data.List.Induction
import Mathlib.Data.List.TakeWhile

/-!
Looking up the entry of an offset. Entries stand in the order in which they begin
(`inOrder_ofEntries`), and the lookup looks at one of them only: the last that begins at or before
the offset (`candidate?`). Adding an entry makes it the candidate unless one that begins behind it
is (`candidate?_push`), so the candidate is told by the entries as they were added
(`candidate?_eq_some_iff`).

The lookup answers with the candidate if that holds the offset (`entryAt?_ofEntries`). An entry that
goes on behind the end of a later one is not found there (`entryAt?_behind_nested`).
-/

namespace CobolTree.DocumentMapping

variable {offset : Nat} {entry : MappingEntry} {entries : List MappingEntry}
  {mapping : DocumentMapping}

theorem reaches_iff : reaches offset entry = true ↔ entry.expanded.start ≤ offset :=
  decide_eq_true_iff

/-! ### Entries in order -/

/-- No entry begins before the one in front of it. -/
def InOrder (entries : List MappingEntry) : Prop :=
  entries.Pairwise fun first second => first.expanded.start ≤ second.expanded.start

/-- Behind the entries that begin at or before an offset, all others begin behind the offset. -/
theorem InOrder.lt_of_mem_dropWhile (sorted : InOrder entries)
    (mem : entry ∈ entries.dropWhile (reaches offset)) : offset < entry.expanded.start := by
  induction entries with
  | nil => cases mem
  | cons first rest ih =>
      obtain ⟨least, others⟩ := List.pairwise_cons.mp sorted
      by_cases early : reaches offset first = true
      · rw [List.dropWhile_cons_of_pos early] at mem
        exact ih others mem
      · rw [List.dropWhile_cons_of_neg early] at mem
        have late : offset < first.expanded.start := Nat.lt_of_not_le fun le =>
          early (reaches_iff.mpr le)
        rcases List.mem_cons.mp mem with rfl | behind
        · exact late
        · exact Nat.lt_of_lt_of_le late (least entry behind)

theorem le_of_mem_takeWhile (mem : entry ∈ entries.takeWhile (reaches offset)) :
    entry.expanded.start ≤ offset := reaches_iff.mp (List.mem_takeWhile_imp mem)

theorem inOrder_push (sorted : InOrder mapping.entries) (entry : MappingEntry) :
    InOrder (mapping.push entry).entries := by
  apply List.pairwise_append.mpr
  refine ⟨sorted.sublist (List.takeWhile_sublist _), ?_, ?_⟩
  · apply List.pairwise_cons.mpr
    constructor
    · intro later mem
      exact Nat.le_of_lt (sorted.lt_of_mem_dropWhile mem)
    · exact sorted.sublist (List.dropWhile_sublist _)
  · intro earlier mem later behind
    have first := le_of_mem_takeWhile mem
    rcases List.mem_cons.mp behind with rfl | others
    · exact first
    · exact Nat.le_trans first (Nat.le_of_lt (sorted.lt_of_mem_dropWhile others))

theorem ofEntries_append (uri : String) (entries : List MappingEntry) (entry : MappingEntry) :
    ofEntries uri (entries ++ [entry]) = (ofEntries uri entries).push entry := by
  rw [ofEntries, List.foldl_append]
  rfl

/-- Entries stand in order, whatever order they were added in. -/
theorem inOrder_ofEntries (uri : String) (entries : List MappingEntry) :
    InOrder (ofEntries uri entries).entries := by
  induction entries using List.reverseRecOn with
  | nil => exact List.Pairwise.nil
  | append_singleton entries entry ih =>
      rw [ofEntries_append]
      exact inOrder_push ih entry

/-! ### The candidate -/

/-- The only entry that the lookup looks at: the last that begins at or before an offset. -/
def candidate? (offset : Nat) (mapping : DocumentMapping) : Option MappingEntry :=
  (mapping.entries.takeWhile (reaches offset)).getLast?

theorem entryAt?_eq (offset : Nat) (mapping : DocumentMapping) :
    entryAt? offset mapping = (candidate? offset mapping).filter (·.expanded.contains offset) := rfl

theorem mem_of_entryAt? {offset : Nat} {entry : MappingEntry}
    (found : mapping.entryAt? offset = some entry) : entry ∈ mapping.entries := by
  rw [entryAt?_eq, Option.filter_eq_some_iff] at found
  exact (List.takeWhile_subset _) (List.mem_of_getLast? found.1)

/-- An entry that begins behind an offset leaves the candidate as it is; any other takes its place,
unless the candidate begins behind it. -/
theorem candidate?_push (sorted : InOrder mapping.entries) (offset : Nat) (entry : MappingEntry) :
    candidate? offset (mapping.push entry) =
      if entry.expanded.start ≤ offset then
        some (((candidate? offset mapping).filter
          (entry.expanded.start < ·.expanded.start)).getD entry)
      else candidate? offset mapping := by
  let early := mapping.entries.takeWhile (reaches entry.expanded.start)
  let late := mapping.entries.dropWhile (reaches entry.expanded.start)
  have whole : mapping.entries = early ++ late := List.takeWhile_append_dropWhile.symm
  have pushed : (mapping.push entry).entries = early ++ entry :: late := rfl
  split
  · rename_i reached
    have all : ∀ first ∈ early, reaches offset first = true := fun first mem =>
      reaches_iff.mpr (Nat.le_trans (le_of_mem_takeWhile mem) reached)
    rw [candidate?, candidate?, pushed, whole, List.takeWhile_append_of_pos all,
      List.takeWhile_append_of_pos all, List.takeWhile_cons_of_pos (reaches_iff.mpr reached),
      List.getLast?_append, List.getLast?_append, List.getLast?_cons]
    cases last : (late.takeWhile (reaches offset)).getLast? with
    | some found =>
        have mem := (List.takeWhile_sublist _).mem (List.mem_of_getLast? last)
        have behind := sorted.lt_of_mem_dropWhile mem
        simp [Option.filter, behind]
    | none =>
        have hidden : (early.getLast?).filter (entry.expanded.start < ·.expanded.start) = none := by
          apply Option.filter_eq_none_iff.mpr
          intro first found
          have before := le_of_mem_takeWhile (List.mem_of_getLast? found)
          simpa using before
        simp [hidden]
  · rename_i beyond
    have stops : ¬reaches offset entry = true := fun le => beyond (reaches_iff.mp le)
    have none : late.takeWhile (reaches offset) = [] := by
      cases rest : late with
      | nil => rfl
      | cons first others =>
          have behind := sorted.lt_of_mem_dropWhile (rest ▸ List.mem_cons_self : first ∈ late)
          apply List.takeWhile_cons_of_neg
          intro le
          exact beyond (Nat.le_trans (Nat.le_of_lt behind) (reaches_iff.mp le))
    rw [candidate?, candidate?, pushed, whole, List.takeWhile_append, List.takeWhile_append, none,
      List.takeWhile_cons_of_neg stops]

/-- Of the entries that begin at or before an offset, the one that begins last; of those that begin
there together, the one that was added last. -/
def IsLatest (offset : Nat) (entries : List MappingEntry) (entry : MappingEntry) : Prop :=
  entry.expanded.start ≤ offset ∧ ∃ before after, entries = before ++ entry :: after ∧
    (∀ other ∈ before, other.expanded.start ≤ offset →
      other.expanded.start ≤ entry.expanded.start) ∧
    ∀ other ∈ after, other.expanded.start ≤ offset → other.expanded.start < entry.expanded.start

namespace IsLatest

theorem mem (h : IsLatest offset entries entry) : entry ∈ entries := by
  obtain ⟨-, before, after, rfl, -⟩ := h
  exact List.mem_append_right before List.mem_cons_self

theorem le (h : IsLatest offset entries entry) {other : MappingEntry} (mem : other ∈ entries)
    (reached : other.expanded.start ≤ offset) :
    other.expanded.start ≤ entry.expanded.start := by
  obtain ⟨-, before, after, rfl, first, last⟩ := h
  rcases List.mem_append.mp mem with earlier | later
  · exact first other earlier reached
  · rcases List.mem_cons.mp later with rfl | later
    · exact Nat.le_refl _
    · exact Nat.le_of_lt (last other later reached)

/-- Another entry, added last, is the latest if no entry that begins at or before the offset begins
behind it. -/
theorem of_le (reached : entry.expanded.start ≤ offset)
    (least : ∀ other ∈ entries, other.expanded.start ≤ offset →
      other.expanded.start ≤ entry.expanded.start) :
    IsLatest offset (entries ++ [entry]) entry :=
  ⟨reached, entries, [], rfl, least, List.forall_mem_nil _⟩

/-- Another entry, added last, makes no difference if it begins behind the offset, or before the
latest one. -/
theorem append (h : IsLatest offset entries entry) {other : MappingEntry}
    (before : other.expanded.start ≤ offset → other.expanded.start < entry.expanded.start) :
    IsLatest offset (entries ++ [other]) entry := by
  obtain ⟨reached, front, after, rfl, first, last⟩ := h
  refine ⟨reached, front, after ++ [other], by simp, first, ?_⟩
  rw [List.forall_mem_append, List.forall_mem_singleton]
  exact ⟨last, before⟩

/-- The latest entry of an offset is that of every earlier one down to where the entry begins. -/
theorem of_le_offset (h : IsLatest offset entries entry) {earlier : Nat}
    (begun : entry.expanded.start ≤ earlier) (le : earlier ≤ offset) :
    IsLatest earlier entries entry := by
  obtain ⟨-, before, after, split, first, last⟩ := h
  refine ⟨begun, before, after, split, ?_, ?_⟩
  · intro other mem reached
    exact first other mem (Nat.le_trans reached le)
  · intro other mem reached
    exact last other mem (Nat.le_trans reached le)

/-- There is one latest entry at most. -/
theorem unique {other : MappingEntry} (h : IsLatest offset entries entry)
    (k : IsLatest offset entries other) : entry = other := by
  obtain ⟨reached, before, after, split, first, last⟩ := h
  obtain ⟨reached', before', after', split', first', last'⟩ := k
  -- of two entries of one row, one stands in front of the other, or they are the same
  rcases List.append_eq_append_iff.mp (split.symm.trans split') with
    ⟨middle, front, rest⟩ | ⟨middle, front, rest⟩
  · cases middle with
    | nil => exact (List.cons.inj rest).1
    | cons head between =>
        obtain ⟨rfl, behind⟩ := List.cons.inj rest
        have less := last other (behind ▸ by simp) reached'
        have more := first' entry (front ▸ by simp) reached
        omega
  · cases middle with
    | nil => exact (List.cons.inj rest).1.symm
    | cons head between =>
        obtain ⟨rfl, behind⟩ := List.cons.inj rest
        have less := last' entry (behind ▸ by simp) reached
        have more := first other (front ▸ by simp) reached'
        omega

end IsLatest

/-- The candidate is the latest entry; there is none only if all entries begin behind the offset. -/
theorem candidate?_cases (uri : String) (entries : List MappingEntry) (offset : Nat) :
    match candidate? offset (ofEntries uri entries) with
    | some entry => IsLatest offset entries entry
    | none => ∀ entry ∈ entries, offset < entry.expanded.start := by
  induction entries using List.reverseRecOn with
  | nil => exact List.forall_mem_nil _
  | append_singleton entries entry ih =>
      rw [ofEntries_append, candidate?_push (inOrder_ofEntries uri entries)]
      cases found : candidate? offset (ofEntries uri entries) with
      | none =>
          rw [found] at ih
          split_ifs with reached
          · apply IsLatest.of_le reached
            intro other mem early
            exact absurd early (Nat.not_le_of_lt (ih other mem))
          · intro other mem
            rcases List.mem_append.mp mem with earlier | last
            · exact ih other earlier
            · rw [List.mem_singleton.mp last]
              exact Nat.lt_of_not_le reached
      | some latest =>
          rw [found] at ih
          split_ifs with reached
          · by_cases behind : entry.expanded.start < latest.expanded.start
            · simpa [Option.filter, behind] using ih.append fun _ => behind
            · have last : IsLatest offset (entries ++ [entry]) entry := by
                apply IsLatest.of_le reached
                intro other mem early
                exact Nat.le_trans (ih.le mem early) (Nat.le_of_not_lt behind)
              simpa [Option.filter, behind] using last
          · exact ih.append fun early => absurd early reached

theorem candidate?_eq_some_iff {uri : String} :
    candidate? offset (ofEntries uri entries) = some entry ↔ IsLatest offset entries entry := by
  have cases := candidate?_cases uri entries offset
  cases found : candidate? offset (ofEntries uri entries) with
  | none =>
      rw [found] at cases
      constructor
      · nofun
      · intro latest
        exact absurd latest.1 (Nat.not_le_of_lt (cases entry latest.mem))
  | some candidate =>
      rw [found] at cases
      constructor
      · rintro ⟨⟩
        exact cases
      · intro latest
        rw [cases.unique latest]

/-! ### The lookup -/

/-- The entry of an offset is the latest one, if that holds the offset. -/
theorem entryAt?_eq_some_iff {uri : String} :
    entryAt? offset (ofEntries uri entries) = some entry ↔
      IsLatest offset entries entry ∧ entry.expanded.contains offset = true := by
  rw [entryAt?_eq, Option.filter_eq_some_iff, candidate?_eq_some_iff]

/-- An entry that is found at an offset is found at every earlier one down to where it begins. -/
theorem entryAt?_of_le {uri : String} {earlier : Nat}
    (found : entryAt? offset (ofEntries uri entries) = some entry)
    (begun : entry.expanded.start ≤ earlier) (le : earlier ≤ offset) :
    entryAt? earlier (ofEntries uri entries) = some entry := by
  obtain ⟨latest, holds⟩ := entryAt?_eq_some_iff.mp found
  apply entryAt?_eq_some_iff.mpr
  constructor
  · exact latest.of_le_offset begun le
  · have both := Bool.and_eq_true_iff.mp holds
    have within : offset < entry.expanded.stop := of_decide_eq_true both.2
    apply Bool.and_eq_true_iff.mpr
    constructor
    · exact decide_eq_true begun
    · exact decide_eq_true (Nat.lt_of_le_of_lt le within)

/-- The lookup answers with the latest of the entries that begin at or before an offset, if the
range of that entry holds the offset. So it answers with an entry that holds the offset, and it
misses the entries that hold the offset exactly where the latest one has ended before the offset. -/
theorem entryAt?_ofEntries (uri : String) (entries : List MappingEntry) (offset : Nat) :
    (∀ entry, entryAt? offset (ofEntries uri entries) = some entry ↔
      IsLatest offset entries entry ∧ entry.expanded.contains offset = true) ∧
    (entryAt? offset (ofEntries uri entries) = none ↔
      ∀ entry ∈ entries, entry.expanded.contains offset = true →
        ∃ later, IsLatest offset entries later ∧ later.expanded.contains offset = false) := by
  refine ⟨fun entry => entryAt?_eq_some_iff, ?_⟩
  constructor
  · intro missed entry mem holds
    have reached : entry.expanded.start ≤ offset := by
      have both := Bool.and_eq_true_iff.mp holds
      exact of_decide_eq_true both.1
    have cases := candidate?_cases uri entries offset
    cases found : candidate? offset (ofEntries uri entries) with
    | none =>
        rw [found] at cases
        exact absurd reached (Nat.not_le_of_lt (cases entry mem))
    | some latest =>
        rw [found] at cases
        rw [entryAt?_eq, found] at missed
        exact ⟨latest, cases, by simpa [Option.filter] using missed⟩
  · intro hidden
    apply Option.eq_none_iff_forall_ne_some.mpr
    intro entry answer
    obtain ⟨latest, holds⟩ := entryAt?_eq_some_iff.mp answer
    obtain ⟨later, also, ended⟩ := hidden entry latest.mem holds
    rw [latest.unique also] at holds
    exact Bool.false_ne_true (ended.symm.trans holds)

/-- Where an entry is nested in another, the outer one is not found behind the end of the inner one,
though its range goes on. -/
theorem entryAt?_behind_nested :
    let outer : MappingEntry := ⟨⟨0, 10⟩, "outer", .zero, none⟩
    let inner : MappingEntry := ⟨⟨3, 5⟩, "inner", .zero, none⟩
    outer.expanded.contains 7 = true ∧
      entryAt? 7 (ofEntries "main" [outer, inner]) = none := by
  decide

end CobolTree.DocumentMapping
