import CobolTree.Source.Layout

/-!
Slices of a text that is put together from two. A cut that lies in one of them is a cut of it
(`slice?_append_left`, `slice?_append_right`), and a cut that begins in the first and ends in the
second is made of a cut of each (`slice?_append_across`). A slice is there exactly when the text
splits at both of its ends (`slice?_eq_some_iff`).
-/

namespace CobolTree.Text

variable {s t : Text}

/-! ### Cuts as splits -/

theorem dropBytes?_eq_some_iff {text rest : Text} {count : Nat} :
    text.dropBytes? count = some rest ↔
      ∃ before, text = before ++ rest ∧ byteLength before = count := by
  constructor
  · intro cut
    fun_induction dropBytes? text count with
    | case1 => exact ⟨[], Option.some.inj cut, rfl⟩
    | case2 => cases cut
    | case3 c cs n room ih =>
        obtain ⟨before, split, size⟩ := ih cut
        refine ⟨c :: before, by rw [split, List.cons_append], ?_⟩
        rw [byteLength, size]
        omega
    | case4 => cases cut
  · rintro ⟨before, rfl, rfl⟩
    exact dropBytes?_append before rest

theorem takeBytes?_eq_some_iff {text before : Text} {count : Nat} :
    text.takeBytes? count = some before ↔
      ∃ rest, text = before ++ rest ∧ byteLength before = count := by
  constructor
  · intro cut
    fun_induction takeBytes? text count generalizing before with
    | case1 text =>
        cases cut
        exact ⟨text, rfl, rfl⟩
    | case2 => cases cut
    | case3 c cs n room ih =>
        obtain ⟨front, taken, rfl⟩ := Option.map_eq_some_iff.mp cut
        obtain ⟨rest, split, size⟩ := ih taken
        refine ⟨rest, by rw [split, List.cons_append], ?_⟩
        rw [byteLength, size]
        omega
    | case4 => cases cut
  · rintro ⟨rest, rfl, rfl⟩
    exact takeBytes?_append before rest

/-- A slice is what stands between two splits of the text. -/
theorem slice?_eq_some_iff {text slice : Text} {start stop : Nat} :
    text.slice? start stop = some slice ↔
      ∃ before after, text = before ++ (slice ++ after) ∧ byteLength before = start ∧
        start + byteLength slice = stop := by
  constructor
  · intro cut
    rw [slice?] at cut
    split at cut
    · rename_i order
      obtain ⟨rest, dropped, taken⟩ := Option.bind_eq_some_iff.mp cut
      obtain ⟨before, rfl, size⟩ := dropBytes?_eq_some_iff.mp dropped
      obtain ⟨after, rfl, length⟩ := takeBytes?_eq_some_iff.mp taken
      exact ⟨before, after, rfl, size, by omega⟩
    · cases cut
  · rintro ⟨before, after, rfl, rfl, rfl⟩
    exact slice?_append before slice after

/-- Where two texts stand one behind the other, each stands in its own place. -/
theorem slice?_of_append {text s t : Text} {start : Nat}
    (h : text.slice? start (start + byteLength (s ++ t)) = some (s ++ t)) :
    text.slice? start (start + byteLength s) = some s ∧
      text.slice? (start + byteLength s) (start + byteLength s + byteLength t) = some t := by
  obtain ⟨before, after, split, size, -⟩ := slice?_eq_some_iff.mp h
  constructor
  · exact slice?_eq_some_iff.mpr ⟨before, t ++ after, by simp [split], size, rfl⟩
  · exact slice?_eq_some_iff.mpr ⟨before ++ s, after, by simp [split], by simp [size], rfl⟩

/-! ### Two texts in a row -/

theorem dropBytes?_append_right (s t : Text) (count : Nat) :
    (s ++ t).dropBytes? (byteLength s + count) = t.dropBytes? count := by
  induction s with
  | nil => simp [byteLength]
  | cons c cs ih =>
      have size := c.utf8Size_pos
      obtain ⟨n, whole⟩ : ∃ n, byteLength (c :: cs) + count = n + 1 :=
        ⟨byteLength (c :: cs) + count - 1, by simp only [byteLength]; omega⟩
      have left : n + 1 - c.utf8Size = byteLength cs + count := by
        simp only [byteLength] at whole
        omega
      rw [whole, List.cons_append, dropBytes?, if_pos (by simp only [byteLength] at whole; omega),
        left, ih]

theorem dropBytes?_append_left {count : Nat} (h : count ≤ byteLength s) (t : Text) :
    (s ++ t).dropBytes? count = (s.dropBytes? count).map (· ++ t) := by
  induction s generalizing count with
  | nil =>
      obtain rfl : count = 0 := by simpa [byteLength] using h
      simp [dropBytes?]
  | cons c cs ih =>
      cases count with
      | zero => rfl
      | succ n =>
          rw [List.cons_append, dropBytes?, dropBytes?]
          split
          · exact ih (by simp only [byteLength] at h; omega)
          · rfl

theorem takeBytes?_append_right (s t : Text) (count : Nat) :
    (s ++ t).takeBytes? (byteLength s + count) = (t.takeBytes? count).map (s ++ ·) := by
  induction s with
  | nil => simp [byteLength]
  | cons c cs ih =>
      have size := c.utf8Size_pos
      obtain ⟨n, whole⟩ : ∃ n, byteLength (c :: cs) + count = n + 1 :=
        ⟨byteLength (c :: cs) + count - 1, by simp only [byteLength]; omega⟩
      have left : n + 1 - c.utf8Size = byteLength cs + count := by
        simp only [byteLength] at whole
        omega
      rw [whole, List.cons_append, takeBytes?, if_pos (by simp only [byteLength] at whole; omega),
        left, ih, Option.map_map]
      rfl

theorem takeBytes?_append_left {count : Nat} (h : count ≤ byteLength s) (t : Text) :
    (s ++ t).takeBytes? count = s.takeBytes? count := by
  induction s generalizing count with
  | nil =>
      obtain rfl : count = 0 := by simpa [byteLength] using h
      simp [takeBytes?]
  | cons c cs ih =>
      cases count with
      | zero => rfl
      | succ n =>
          rw [List.cons_append, takeBytes?, takeBytes?]
          split
          · rw [ih (by simp only [byteLength] at h; omega)]
          · rfl

/-! ### Slices -/

/-- A slice that ends in the first of two texts is a slice of it. -/
theorem slice?_append_left {start stop : Nat} (h : stop ≤ byteLength s) (t : Text) :
    (s ++ t).slice? start stop = s.slice? start stop := by
  rw [slice?, slice?]
  split
  · rename_i order
    rw [dropBytes?_append_left (by omega)]
    cases cut : s.dropBytes? start with
    | none => rfl
    | some rest =>
        obtain ⟨before, rfl, size⟩ := dropBytes?_eq_some_iff.mp cut
        rw [byteLength_append] at h
        exact takeBytes?_append_left (by omega) t
  · rfl

/-- A slice that begins in the second of two texts is a slice of it. -/
theorem slice?_append_right (s t : Text) (start stop : Nat) :
    (s ++ t).slice? (byteLength s + start) (byteLength s + stop) = t.slice? start stop := by
  rw [slice?, slice?, dropBytes?_append_right, Nat.add_sub_add_left]
  by_cases order : start ≤ stop
  · rw [if_pos order, if_pos (by omega)]
  · rw [if_neg order, if_neg (by omega)]

/-- A slice that begins in the first of two texts and ends in the second. -/
theorem slice?_append_across {start : Nat} (h : start ≤ byteLength s) (t : Text) (count : Nat) :
    (s ++ t).slice? start (byteLength s + count) =
      (s.dropBytes? start).bind fun rest => (t.slice? 0 count).map (rest ++ ·) := by
  rw [slice?, if_pos (by omega), dropBytes?_append_left h, slice?, if_pos (Nat.zero_le count)]
  cases cut : s.dropBytes? start with
  | none => rfl
  | some rest =>
      obtain ⟨before, rfl, size⟩ := dropBytes?_eq_some_iff.mp cut
      have left : byteLength (before ++ rest) + count - start = byteLength rest + count := by
        rw [byteLength_append]
        omega
      have whole : t.dropBytes? 0 = some t := by cases t <;> rfl
      rw [whole, left]
      exact takeBytes?_append_right rest t count

/-- A slice that stays in the middle one of three texts is a slice of it. -/
theorem slice?_append_middle (s t u : Text) {start stop : Nat} (first : byteLength s ≤ start)
    (last : stop ≤ byteLength s + byteLength t) (order : start ≤ stop) :
    (s ++ (t ++ u)).slice? start stop =
      t.slice? (start - byteLength s) (stop - byteLength s) := by
  have behind := slice?_append_right s (t ++ u) (start - byteLength s) (stop - byteLength s)
  rw [Nat.add_sub_of_le first, Nat.add_sub_of_le (by omega)] at behind
  rw [behind, slice?_append_left (by omega)]

/-- A slice of blanks is the blank of the slice. -/
theorem slice?_blank {text slice : Text} {start stop : Nat}
    (h : text.slice? start stop = some slice) :
    text.blank.slice? start stop = some slice.blank := by
  obtain ⟨before, after, rfl, rfl, rfl⟩ := slice?_eq_some_iff.mp h
  rw [blank_append, blank_append, ← byteLength_blank before, ← byteLength_blank slice]
  exact slice?_append _ _ _

theorem slice?_zero (text : Text) (start : Nat) :
    text.slice? start 0 = if start = 0 then some [] else none := by
  rw [slice?]
  by_cases zero : start = 0
  · subst zero
    cases text <;> rfl
  · rw [if_neg zero, if_neg (by omega)]

/-- Two texts have the same slice when their first parts are the same, or take the same bytes and
end before the slice begins, and what the slice has of their second parts is the same. -/
theorem slice?_append_congr {s s' t t' : Text} {start stop : Nat}
    (size : byteLength s' = byteLength s) (first : s' = s ∨ byteLength s ≤ start)
    (second : byteLength s ≤ stop → t'.slice? (start - byteLength s) (stop - byteLength s) =
      t.slice? (start - byteLength s) (stop - byteLength s)) :
    (s' ++ t').slice? start stop = (s ++ t).slice? start stop := by
  by_cases behind : byteLength s ≤ start
  · by_cases order : start ≤ stop
    · have same := second (by omega)
      rw [← slice?_append_right s' t', ← slice?_append_right s t, size] at same
      rwa [Nat.add_sub_of_le behind, Nat.add_sub_of_le (by omega)] at same
    · rw [slice?, slice?, if_neg order, if_neg order]
  · obtain rfl := first.resolve_right behind
    by_cases ends : stop ≤ byteLength s'
    · rw [slice?_append_left ends, slice?_append_left ends]
    · have same := second (by omega)
      rw [Nat.sub_eq_zero_of_le (by omega)] at same
      obtain ⟨count, rfl⟩ : ∃ count, stop = byteLength s' + count :=
        ⟨stop - byteLength s', by omega⟩
      rw [Nat.add_sub_cancel_left] at same
      rw [slice?_append_across (by omega), slice?_append_across (by omega), same]

end CobolTree.Text
