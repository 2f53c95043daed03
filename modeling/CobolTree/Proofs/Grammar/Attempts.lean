import CobolTree.Grammar.Attempts

/-!
What is noted of attempts. A rule is added at the offset where it was decisive, and what was
attempted before that offset is dropped (`add_eq`). A rule that is noted before all others stands
for whatever was attempted at its offset (`Settled`), so to note another one around it makes no
difference (`note_of_settled`).
-/

namespace CobolTree.Attempts

/-- The attempts once an offset is reached: those before it are dropped. -/
def reach (offset : Nat) (attempts : Attempts) : Attempts :=
  if attempts.offset < offset then ⟨offset, [], []⟩ else attempts

/-- One rule more. -/
def push (negated : Bool) (rule : Rule) (attempts : Attempts) : Attempts :=
  if negated then { attempts with unexpected := attempts.unexpected ++ [rule] }
  else { attempts with expected := attempts.expected ++ [rule] }

/-! ### Before the first attempt -/

theorem countAt_none (offset : Nat) : none.countAt offset = 0 := ite_self _

theorem restore_none (offset : Nat) (before : Attempts) : none.restore offset before = none := by
  simp [restore, none]

theorem reach_none (offset : Nat) : none.reach offset = ⟨offset, [], []⟩ := by
  cases offset with
  | zero => rfl
  | succ offset => exact if_pos offset.succ_pos

/-! ### Adding and noting -/

theorem add_eq (offset : Nat) (negated : Bool) (rule : Rule) (attempts : Attempts) :
    attempts.add offset negated rule =
      if (attempts.reach offset).offset = offset then (attempts.reach offset).push negated rule
      else attempts.reach offset := rfl

variable {offset : Nat} {attempts before : Attempts} {negated : Bool} {rule : Rule}

theorem offset_eq_of_countAt (h : attempts.countAt offset ≠ 0) : attempts.offset = offset := by
  unfold countAt at h
  split at h
  · assumption
  · exact absurd rfl h

theorem le_offset_reach : offset ≤ (attempts.reach offset).offset := by
  unfold reach
  split
  · exact Nat.le_refl _
  · omega

theorem countAt_push :
    (attempts.push negated rule).countAt attempts.offset =
      attempts.countAt attempts.offset + 1 := by
  unfold push
  split
  · simp [countAt, Nat.add_assoc]
  · simp [countAt, Nat.add_right_comm]

theorem offset_push : (attempts.push negated rule).offset = attempts.offset := by
  unfold push
  split
  · rfl
  · rfl

theorem le_offset_add : offset ≤ (attempts.add offset negated rule).offset := by
  rw [add_eq]
  split
  · rw [offset_push]
    exact le_offset_reach
  · exact le_offset_reach

/-- A rule that is noted takes the attempts to where it stands. -/
theorem le_offset_note : offset ≤ (attempts.note offset negated rule before).offset := by
  unfold note
  split
  · rename_i one
    exact Nat.le_of_eq (offset_eq_of_countAt (by omega)).symm
  · exact le_offset_add

/-! ### The first rule -/

/-- One rule has been noted at an offset, or others have been farther on. -/
def Settled (offset : Nat) (attempts : Attempts) : Prop :=
  attempts.countAt offset = 1 ∨ offset < attempts.offset

theorem settled_add (h : attempts.countAt offset = 0) :
    (attempts.add offset negated rule).Settled offset := by
  have reached : (attempts.reach offset).countAt offset = 0 := by
    unfold reach
    split
    · exact if_pos rfl
    · exact h
  rw [add_eq]
  split
  · rename_i here
    have more : ((attempts.reach offset).push negated rule).countAt
        (attempts.reach offset).offset = _ := countAt_push
    rw [here, reached] at more
    exact .inl more
  · rename_i beyond
    have le : offset ≤ (attempts.reach offset).offset := le_offset_reach
    exact .inr (by omega)

theorem countAt_restore_none : (attempts.restore offset none).countAt offset = 0 := by
  have expected : (if none.offset = offset then none.expected.length else 0) = 0 := ite_self _
  have unexpected : (if none.offset = offset then none.unexpected.length else 0) = 0 := ite_self _
  unfold restore
  split
  · simp only [expected, unexpected, List.take_zero]
    exact ite_self _
  · rename_i elsewhere
    exact if_neg elsewhere

/-- The first rule that is noted stands for all attempts at its offset. -/
theorem settled_note : (attempts.note offset negated rule .none).Settled offset := by
  unfold note
  rw [countAt_none]
  split
  · rename_i one
    exact .inl one
  · exact settled_add countAt_restore_none

/-- A rule that is noted around another one adds nothing. -/
theorem note_of_settled {start : Nat} (h : attempts.Settled offset) (le : start ≤ offset) :
    attempts.note start negated rule .none = attempts := by
  rw [note, countAt_none]
  split
  · rfl
  · rename_i other
    -- the one rule at the offset is not at the start, so all attempts are behind it
    have beyond : start < attempts.offset := by
      rcases h with one | beyond
      · have reached : attempts.offset = offset := offset_eq_of_countAt (by omega)
        have apart : start ≠ offset := by
          rintro rfl
          exact other one
        omega
      · omega
    have stays : attempts.reach start = attempts := if_neg (by omega)
    rw [restore, if_neg (by omega), add_eq, stays, if_neg (by omega)]

end CobolTree.Attempts
