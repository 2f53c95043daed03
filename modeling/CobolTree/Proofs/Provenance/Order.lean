import CobolTree.Proofs.Provenance.Lookup

/-!
The order of the entries of a mapping. Adding entries one after another sorts them stably by where
they begin (`entries_ofEntries`): all of them are there, in ascending order, and those that begin
together stand in the order in which they were added (`SortsStably`). No other row has these three
properties (`SortsStably.unique`), so this is the row that `List.mergeSort` makes.

The place of an entry is the end of those that begin at or before it. A search that looks at a few
entries only, such as halving, finds this place if those entries stand in front of all others
(`BoundarySearch`). Each addition relies here on the order that the additions before it have left
behind; it leaves the same order behind, so every such search puts each entry where `push` puts it
(`foldl_pushBy`).
-/

namespace CobolTree

/-! ### Searching for a boundary -/

/-- A search for the boundary in a row. Where the elements that pass a test stand in front of all
others, it tells how many they are; in any other row the answer is left open. -/
structure BoundarySearch (α : Type) where
  find : (α → Bool) → List α → Nat
  find_append : ∀ test front back, (∀ x ∈ front, test x = true) → (∀ x ∈ back, test x = false) →
    find test (front ++ back) = front.length

namespace BoundarySearch

variable {α : Type} {test : α → Bool} {front back : List α}

/-- Looks at the element in the middle between two places, and goes on in the half in which the
boundary must be if there is one. -/
def halve (test : α → Bool) (row : List α) (low high : Nat) : Nat :=
  if low < high then
    let middle := low + (high - low) / 2
    if row[middle]?.any test then halve test row (middle + 1) high else halve test row low middle
  else low
termination_by high - low

theorem any_getElem?_append (pass : ∀ x ∈ front, test x = true) (fail : ∀ x ∈ back, test x = false)
    (place : Nat) : (front ++ back)[place]?.any test = decide (place < front.length) := by
  by_cases inside : place < front.length
  · rw [List.getElem?_append_left inside, List.getElem?_eq_getElem inside]
    simpa [inside] using pass _ (List.getElem_mem inside)
  · rw [List.getElem?_append_right (Nat.le_of_not_lt inside)]
    cases found : back[place - front.length]? with
    | none => simp [inside]
    | some x => simpa [inside] using fail x (List.mem_of_getElem? found)

/-- Halving keeps the boundary between its two places until they meet there. -/
theorem halve_append (pass : ∀ x ∈ front, test x = true) (fail : ∀ x ∈ back, test x = false)
    {low high : Nat} (above : low ≤ front.length) (below : front.length ≤ high) :
    halve test (front ++ back) low high = front.length := by
  fun_induction halve test (front ++ back) low high with
  | case1 low high apart middle passes ih =>
      rw [any_getElem?_append pass fail, decide_eq_true_eq] at passes
      exact ih passes below
  | case2 low high apart middle fails ih =>
      rw [any_getElem?_append pass fail, decide_eq_true_eq] at fails
      exact ih above (Nat.le_of_not_lt fails)
  | case3 low high met => omega

/-- Without a boundary, halving need not stop where the elements from the front on cease to pass. -/
example : halve (· ≤ 5) [9, 3, 8] 0 3 = 2 ∧ ([9, 3, 8].takeWhile (· ≤ 5)).length = 0 := by
  cbv

/-- Halving the whole row. -/
def halving (α : Type) : BoundarySearch α where
  find test row := halve test row 0 row.length
  find_append test front back pass fail := by
    apply halve_append pass fail (Nat.zero_le _)
    simp

end BoundarySearch

namespace DocumentMapping

variable {entry : MappingEntry} {entries row other : List MappingEntry}
  {mapping : DocumentMapping} {offset : Nat}

/-- Adds an entry where a search finds the end of those that begin at or before it. -/
def pushBy (search : BoundarySearch MappingEntry) (entry : MappingEntry)
    (mapping : DocumentMapping) : DocumentMapping :=
  let place := search.find (reaches entry.expanded.start) mapping.entries
  { mapping with entries := mapping.entries.insertIdx place entry }

theorem insertIdx_length_append {α : Type} (front back : List α) (x : α) :
    (front ++ back).insertIdx front.length x = front ++ x :: back := by
  induction front with
  | nil => rfl
  | cons first rest ih => simpa using ih

/-- An entry parts a row that is in order: those in front of it begin at or before it, and those
behind it begin behind it. -/
theorem InOrder.exists_parts (sorted : InOrder mapping.entries) (entry : MappingEntry) :
    ∃ early late, mapping.entries = early ++ late ∧
      mapping.push entry = { mapping with entries := early ++ entry :: late } ∧
      (∀ first ∈ early, first.expanded.start ≤ entry.expanded.start) ∧
      ∀ second ∈ late, entry.expanded.start < second.expanded.start := by
  refine ⟨_, _, List.takeWhile_append_dropWhile.symm, rfl, ?_, ?_⟩
  · intro first mem
    exact le_of_mem_takeWhile mem
  · intro second mem
    exact sorted.lt_of_mem_dropWhile mem

/-- In a row that is in order there is a boundary, so the search has to find it. -/
theorem pushBy_eq_push (search : BoundarySearch MappingEntry) (sorted : InOrder mapping.entries)
    (entry : MappingEntry) : mapping.pushBy search entry = mapping.push entry := by
  obtain ⟨early, late, whole, pushed, before, behind⟩ := sorted.exists_parts entry
  have place : search.find (reaches entry.expanded.start) mapping.entries = early.length := by
    rw [whole]
    apply search.find_append
    · exact fun first mem => decide_eq_true (before first mem)
    · exact fun second mem => decide_eq_false (Nat.not_le_of_lt (behind second mem))
  rw [pushBy, place, pushed, whole, insertIdx_length_append]

/-- Whichever search is used, the entries come to stand in the same places. -/
theorem foldl_pushBy (search : BoundarySearch MappingEntry) (uri : String)
    (entries : List MappingEntry) :
    entries.foldl (fun mapping entry => mapping.pushBy search entry) (plain uri) =
      ofEntries uri entries := by
  induction entries using List.reverseRecOn with
  | nil => rfl
  | append_singleton entries entry ih =>
      rw [List.foldl_append, ih, ofEntries_append]
      exact pushBy_eq_push search (inOrder_ofEntries uri entries) entry

/-! ### Stable sorting -/

/-- The entries that begin at an offset, in the order of the row. -/
def beginningAt (offset : Nat) (entries : List MappingEntry) : List MappingEntry :=
  entries.filter fun entry => decide (entry.expanded.start = offset)

@[simp] theorem mem_beginningAt :
    entry ∈ beginningAt offset entries ↔ entry ∈ entries ∧ entry.expanded.start = offset := by
  simp [beginningAt]

@[simp] theorem beginningAt_nil (offset : Nat) : beginningAt offset [] = [] := rfl

@[simp] theorem beginningAt_append (offset : Nat) (first second : List MappingEntry) :
    beginningAt offset (first ++ second) = beginningAt offset first ++ beginningAt offset second :=
  List.filter_append first second

theorem beginningAt_cons (offset : Nat) (entry : MappingEntry) (rest : List MappingEntry) :
    beginningAt offset (entry :: rest) =
      if entry.expanded.start = offset then entry :: beginningAt offset rest
      else beginningAt offset rest := by
  simp [beginningAt, List.filter_cons]

/-- A row has the given entries sorted by where they begin, and has not changed the order of those
that begin together. -/
structure SortsStably (entries row : List MappingEntry) : Prop where
  perm : row.Perm entries
  inOrder : InOrder row
  ties : ∀ offset, beginningAt offset row = beginningAt offset entries

/-- A row in order begins with one of the entries that begin first. -/
theorem InOrder.le_of_mem {first : MappingEntry} (sorted : InOrder (first :: row))
    (mem : entry ∈ first :: row) : first.expanded.start ≤ entry.expanded.start := by
  rcases List.mem_cons.mp mem with rfl | behind
  · exact Nat.le_refl _
  · exact (List.pairwise_cons.mp sorted).1 entry behind

theorem mem_iff_of_beginningAt_eq
    (ties : ∀ offset, beginningAt offset row = beginningAt offset other) (entry : MappingEntry) :
    entry ∈ row ↔ entry ∈ other := by
  have same := congrArg (entry ∈ ·) (ties entry.expanded.start)
  simpa using same

/-- A row in order is known from the entries that begin at each offset. -/
theorem InOrder.eq_of_beginningAt_eq (sorted : InOrder row) (also : InOrder other)
    (ties : ∀ offset, beginningAt offset row = beginningAt offset other) : row = other := by
  induction row generalizing other with
  | nil =>
      symm
      apply List.eq_nil_iff_forall_not_mem.mpr
      intro entry inside
      exact List.not_mem_nil ((mem_iff_of_beginningAt_eq ties entry).mpr inside)
  | cons first rest ih =>
      have mem := mem_iff_of_beginningAt_eq ties
      cases other with
      | nil => exact absurd ((mem first).mp List.mem_cons_self) List.not_mem_nil
      | cons second others =>
          have start : second.expanded.start = first.expanded.start := by
            apply Nat.le_antisymm
            · exact also.le_of_mem ((mem first).mp List.mem_cons_self)
            · exact sorted.le_of_mem ((mem second).mpr List.mem_cons_self)
          have heads := ties first.expanded.start
          rw [beginningAt_cons, beginningAt_cons, if_pos rfl, if_pos start] at heads
          obtain ⟨rfl, -⟩ := List.cons.inj heads
          have tails : ∀ offset, beginningAt offset rest = beginningAt offset others := by
            intro offset
            have whole := ties offset
            rw [beginningAt_cons, beginningAt_cons] at whole
            split at whole
            · exact (List.cons.inj whole).2
            · exact whole
          rw [ih sorted.of_cons also.of_cons tails]

namespace SortsStably

/-- There is one such row at most. -/
theorem unique (h : SortsStably entries row) (k : SortsStably entries other) : row = other :=
  h.inOrder.eq_of_beginningAt_eq k.inOrder fun offset => (h.ties offset).trans (k.ties offset).symm

/-- Adding an entry to a row that sorts some entries makes one that sorts them and, as the last of
them, this entry. -/
theorem push (h : SortsStably entries mapping.entries) (entry : MappingEntry) :
    SortsStably (entries ++ [entry]) (mapping.push entry).entries where
  perm := by
    have pushed := (perm_entries_push entry mapping).trans (h.perm.cons entry)
    exact pushed.trans (List.perm_append_singleton entry entries).symm
  inOrder := inOrder_push h.inOrder entry
  ties offset := by
    obtain ⟨early, late, whole, pushed, -, behind⟩ := h.inOrder.exists_parts entry
    have before := h.ties offset
    rw [whole, beginningAt_append] at before
    rw [pushed, beginningAt_append, beginningAt_append, beginningAt_cons, beginningAt_cons,
      ← before]
    by_cases begins : entry.expanded.start = offset
    · -- all that begin there have been added before, and stand in front
      have none : beginningAt offset late = [] := by
        apply List.eq_nil_iff_forall_not_mem.mpr
        intro second mem
        obtain ⟨inside, start⟩ := mem_beginningAt.mp mem
        have beyond := behind second inside
        omega
      simp [begins, none]
    · simp [begins]

end SortsStably

theorem sortsStably_ofEntries (uri : String) (entries : List MappingEntry) :
    SortsStably entries (ofEntries uri entries).entries := by
  induction entries using List.reverseRecOn with
  | nil => exact ⟨List.Perm.nil, List.Pairwise.nil, fun offset => rfl⟩
  | append_singleton entries entry ih =>
      rw [ofEntries_append]
      exact ih.push entry

/-- The first entry begins where the second does, or before. -/
def noLater (first second : MappingEntry) : Bool :=
  decide (first.expanded.start ≤ second.expanded.start)

theorem noLater_trans (first second third : MappingEntry) (before : noLater first second = true)
    (behind : noLater second third = true) : noLater first third = true :=
  decide_eq_true (Nat.le_trans (of_decide_eq_true before) (of_decide_eq_true behind))

theorem noLater_total (first second : MappingEntry) :
    (noLater first second || noLater second first) = true := by
  simp only [noLater, Bool.or_eq_true, decide_eq_true_eq]
  exact Nat.le_total _ _

/-- Entries that begin together are a sorted part of the row, and merging keeps the order of such a
part. -/
theorem beginningAt_mergeSort (offset : Nat) (entries : List MappingEntry) :
    beginningAt offset (entries.mergeSort noLater) = beginningAt offset entries := by
  have together : (beginningAt offset entries).Pairwise fun first second =>
      noLater first second = true := by
    apply List.pairwise_of_forall_mem_list
    intro first mem second behind
    have start := (mem_beginningAt.mp mem).2
    have same := (mem_beginningAt.mp behind).2
    exact decide_eq_true (start.trans same.symm).le
  have part : (beginningAt offset entries).Sublist (entries.mergeSort noLater) :=
    List.sublist_mergeSort noLater_trans noLater_total together List.filter_sublist
  have inside : (beginningAt offset (beginningAt offset entries)).Sublist
      (beginningAt offset (entries.mergeSort noLater)) := part.filter _
  have all : beginningAt offset (beginningAt offset entries) = beginningAt offset entries :=
    List.filter_eq_self.mpr fun entry mem => decide_eq_true (mem_beginningAt.mp mem).2
  have count : (beginningAt offset entries).length =
      (beginningAt offset (entries.mergeSort noLater)).length :=
    ((List.mergeSort_perm entries noLater).filter _).length_eq.symm
  rw [all] at inside
  exact (inside.eq_of_length count).symm

theorem sortsStably_mergeSort (entries : List MappingEntry) :
    SortsStably entries (entries.mergeSort noLater) where
  perm := List.mergeSort_perm entries noLater
  inOrder := (List.pairwise_mergeSort noLater_trans noLater_total entries).imp of_decide_eq_true
  ties offset := beginningAt_mergeSort offset entries

/-- Whichever search finds the places, entries that are added one after another to an empty mapping
stand there sorted stably by where they begin. -/
theorem entries_ofEntries (uri : String) (entries : List MappingEntry) :
    SortsStably entries (ofEntries uri entries).entries ∧
    (ofEntries uri entries).entries = entries.mergeSort noLater ∧
    ∀ search : BoundarySearch MappingEntry,
      entries.foldl (fun mapping entry => mapping.pushBy search entry) (plain uri) =
        ofEntries uri entries := by
  have sorted := sortsStably_ofEntries uri entries
  refine ⟨sorted, ?_, ?_⟩
  · exact sorted.unique (sortsStably_mergeSort entries)
  · intro search
    exact foldl_pushBy search uri entries

/-- Of three entries, two begin at one offset and keep their order. -/
example :
    let entry (start : Nat) (uri : String) : MappingEntry := ⟨⟨start, start + 5⟩, uri, .zero, none⟩
    let entries := [entry 20 "first", entry 5 "second", entry 20 "third"]
    let mapping := entries.foldl
      (fun mapping entry => mapping.pushBy (.halving MappingEntry) entry) (plain "main")
    mapping.entries.map (·.uri) = ["second", "first", "third"] := by
  cbv

end DocumentMapping

end CobolTree
