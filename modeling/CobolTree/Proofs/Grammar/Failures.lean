import CobolTree.Proofs.Grammar.Attempts
import CobolTree.Proofs.Grammar.Reparse
import CobolTree.Proofs.Source.Slices

/-!
Where a reading fails. What is noted of attempts is noted at inputs that the grammar gets to, each
of them behind a text of the input (`Expr.movesFrom_trace`); so a division that its grammar refuses
is refused within its own text, at the beginning of a character of it or at its end
(`Reparse.exists_split_of_error`).
-/

namespace CobolTree

namespace Attempts

/-- The farthest offset is the one it was, or the offset of an input that is reached. -/
def MovesFrom (input : Input) (before after : Attempts) : Prop :=
  after.offset = before.offset ∨
    ∃ text next, input.Moves text next ∧ after.offset = next.offset

variable {input next : Input} {text : Text} {first second third : Attempts}

theorem movesFrom_refl (input : Input) (attempts : Attempts) : MovesFrom input attempts attempts :=
  .inl rfl

theorem MovesFrom.trans (h : MovesFrom input first second) (k : MovesFrom input second third) :
    MovesFrom input first third := by
  rcases k with stays | moves
  · rcases h with stayed | moved
    · exact .inl (stays.trans stayed)
    · obtain ⟨text, next, reached, same⟩ := moved
      exact .inr ⟨text, next, reached, stays.trans same⟩
  · exact .inr moves

/-- What is reached from an input is reached from those before it. -/
theorem MovesFrom.behind (moves : input.Moves text next) (h : MovesFrom next first second) :
    MovesFrom input first second := by
  rcases h with stays | ⟨more, last, reached, same⟩
  · exact .inl stays
  · exact .inr ⟨text ++ more, last, moves.trans reached, same⟩

theorem offset_restore (offset : Nat) (attempts before : Attempts) :
    (attempts.restore offset before).offset = attempts.offset := by
  unfold restore
  split
  · rfl
  · rfl

theorem offset_add (offset : Nat) (negated : Bool) (rule : Rule) (attempts : Attempts) :
    (attempts.add offset negated rule).offset = attempts.offset ∨
      (attempts.add offset negated rule).offset = offset := by
  have reached : (attempts.reach offset).offset = attempts.offset ∨
      (attempts.reach offset).offset = offset := by
    unfold reach
    split
    · exact .inr rfl
    · exact .inl rfl
  rw [add_eq]
  split
  · rw [offset_push]
    exact reached
  · exact reached

/-- A rule is noted where it stands, if not farther on. -/
theorem movesFrom_note (input : Input) (negated : Bool) (rule : Rule) (attempts before : Attempts) :
    MovesFrom input attempts (attempts.note input.offset negated rule before) := by
  unfold note
  split
  · exact movesFrom_refl input attempts
  · rcases offset_add input.offset negated rule (attempts.restore input.offset before) with
      stays | moves
    · exact .inl (stays.trans (offset_restore _ _ _))
    · exact .inr ⟨[], input, Input.moves_nil input, moves⟩

end Attempts

namespace Expr

open Attempts

variable {atomic : Bool}

/-- An input behind what is read, and behind the filler there. -/
theorem exists_moves_of_read? {e : Expr} {input : Input} {reading : Reading}
    (read : e.read? atomic input = some reading) :
    ∃ text, input.Moves text (reading.next.skip atomic) := by
  obtain ⟨consumed, reads⟩ := e.exists_reads atomic input reading read
  obtain ⟨skipped, moves, -⟩ := reading.next.exists_moves_skip atomic
  exact ⟨consumed ++ skipped, reads.moves.trans moves⟩

theorem movesFrom_repeatedAttempts {step : Input → Option Input}
    {round : Input → Attempts → Attempts}
    (moves : ∀ input next, step input = some next → ∃ text, input.Moves text next)
    (each : ∀ input attempts, MovesFrom input attempts (round input attempts))
    (bound : Text) (input : Input) (attempts : Attempts) :
    MovesFrom input attempts (repeatedAttempts step round bound input attempts) := by
  induction bound generalizing input attempts with
  | nil => exact each input attempts
  | cons c bound ih =>
      rw [repeatedAttempts]
      cases taken : step input with
      | none => exact each input attempts
      | some next =>
          obtain ⟨text, moved⟩ := moves input next taken
          exact (each input attempts).trans (.behind moved (ih next _))

/-- What a trace notes is noted at inputs that are reached. -/
theorem movesFrom_trace (e : Expr) (atomic negated : Bool) (input : Input) (attempts : Attempts) :
    MovesFrom input attempts (e.trace atomic negated input attempts) := by
  induction e generalizing atomic negated input attempts with
  | seq first second ihFirst ihSecond =>
      rw [trace]
      cases read : first.read? atomic input with
      | none => exact ihFirst atomic negated input attempts
      | some one =>
          obtain ⟨text, moves⟩ := exists_moves_of_read? read
          exact (ihFirst atomic negated input attempts).trans
            (.behind moves (ihSecond atomic negated _ _))
  | alt first second ihFirst ihSecond =>
      rw [trace]
      cases read : first.read? atomic input with
      | none =>
          exact (ihFirst atomic negated input attempts).trans (ihSecond atomic negated input _)
      | some one => exact ihFirst atomic negated input attempts
  | star body ih =>
      rw [trace]
      refine movesFrom_repeatedAttempts (fun input next taken => ?_) (ih atomic negated) _ _ _
      obtain ⟨one, read, rfl⟩ := Option.map_eq_some_iff.mp taken
      exact exists_moves_of_read? read
  | opt body ih => exact ih atomic negated input attempts
  | absent body ih => exact ih atomic (!negated) input attempts
  | rule named isAtomic body ih =>
      rw [trace]
      have within := ih (atomic || isAtomic) negated input attempts
      split
      · exact within.trans (movesFrom_note input negated named _ attempts)
      · exact within
  | exact | anyCase | anyChar | digit | alphanumeric | lineBreak | ending =>
      exact movesFrom_refl input attempts

end Expr

namespace Reparse

/-- A division is refused within its own text, at a boundary of characters. -/
theorem exists_split_of_error {stream : Stream} {grammar : GrammarName} {padding text : Text}
    {base : Nat} {failure : ReparseFailure}
    (refused : run stream grammar ⟨padding.byteLength, base⟩ (padding ++ text) = .error failure) :
    ∃ before after, text = before ++ after ∧ failure.offset = base + before.byteLength := by
  unfold run at refused
  split at refused
  · split at refused
    · cases refused
    · cases refused
  · cases refused
    obtain ⟨front, rest, split, offset⟩ : ∃ front rest, padding ++ text = front ++ rest ∧
        (grammar.unit.trace false false ⟨0, padding ++ text⟩ .none).offset = front.byteLength := by
      rcases grammar.unit.movesFrom_trace false false ⟨0, padding ++ text⟩ .none with
        stays | ⟨front, next, moves, same⟩
      · exact ⟨[], padding ++ text, rfl, stays⟩
      · refine ⟨front, next.rest, moves.rest, ?_⟩
        rw [same, moves.offset, Nat.zero_add]
    simp only [offset, Projection.offset]
    by_cases inside : front.byteLength ≤ padding.byteLength
    · exact ⟨[], text, rfl, by rw [Nat.sub_eq_zero_of_le inside]; rfl⟩
    · -- the failure is behind the padding, so what is left is left of the text alone
      have cut := Text.dropBytes?_append_right padding text
        (front.byteLength - padding.byteLength)
      rw [Nat.add_sub_of_le (by omega), split, Text.dropBytes?_append] at cut
      obtain ⟨before, parts, size⟩ := Text.dropBytes?_eq_some_iff.mp cut.symm
      exact ⟨before, rest, parts, by rw [size]⟩

end Reparse

end CobolTree
